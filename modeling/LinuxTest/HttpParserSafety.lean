/-
When the parser returns.  A `std::string` built from `nullptr` throws; two
places of the code do that: `URLDecode` at a cut escape, and `getDataToString`
at a length that came out negative.  This module says for which inputs they are
reached, reading by reading from the `Buffer` of the connection.
-/
import LinuxTest.HttpReadings

namespace LinuxTest

namespace Sone

/-! ### Texts that can be decoded -/

/-- Every `%` that is read as an escape has two bytes behind it. -/
def escapesComplete : Bytes → Bool
  | [] => true
  | c :: rest =>
      if c = percent then
        match rest with
        | _ :: _ :: rest => escapesComplete rest
        | _ => false
      else escapesComplete rest

/-- The escapes are complete in the part of the text that the loop of
`URLDecode` runs over. -/
def Decodable (text : Bytes) : Prop :=
  escapesComplete (text.take (intBound text.length)) = true

instance (text : Bytes) : Decidable (Decodable text) :=
  inferInstanceAs (Decidable (_ = true))

theorem urlDecodeLoop_escape (high low : UInt8) (rest : Bytes) :
    urlDecodeLoop (percent :: high :: low :: rest) =
      (urlDecodeLoop rest).map
        (UInt8.ofNat (hexMap high * 16 + hexMap low) :: ·) := by
  rw [urlDecodeLoop.eq_def]
  simp only [if_true]

theorem urlDecodeLoop_plain {c : UInt8} (hc : c ≠ percent) (rest : Bytes) :
    urlDecodeLoop (c :: rest) = (urlDecodeLoop rest).map (c :: ·) := by
  rw [urlDecodeLoop.eq_def]
  simp only [if_neg hc]

/-- At a cut escape the loop returns `nullptr`; otherwise it returns a text. -/
theorem urlDecodeLoop_cases (text : Bytes) :
    if escapesComplete text then ∃ decoded, urlDecodeLoop text = .ok decoded
    else urlDecodeLoop text = .error .nullString := by
  fun_induction escapesComplete text with
  | case1 => exact ⟨[], rfl⟩
  | case2 high low rest ih =>
      rw [urlDecodeLoop_escape]
      by_cases hrest : escapesComplete rest
      · rw [if_pos hrest] at ih ⊢
        obtain ⟨decoded, hdecoded⟩ := ih
        exact ⟨_, by rw [hdecoded]; rfl⟩
      · rw [if_neg hrest] at ih ⊢
        rw [ih]
        rfl
  | case3 rest hshort =>
      rcases rest with _ | ⟨high, _ | ⟨low, more⟩⟩
      · rfl
      · rfl
      · exact (hshort high low more rfl).elim
  | case4 c rest hc ih =>
      rw [urlDecodeLoop_plain hc]
      by_cases hrest : escapesComplete rest
      · rw [if_pos hrest] at ih ⊢
        obtain ⟨decoded, hdecoded⟩ := ih
        exact ⟨_, by rw [hdecoded]; rfl⟩
      · rw [if_neg hrest] at ih ⊢
        rw [ih]
        rfl

theorem urlDecode_of_decodable {text : Bytes} (htext : Decodable text) :
    ∃ decoded, urlDecode text = .ok decoded := by
  have hcases := urlDecodeLoop_cases (text.take (intBound text.length))
  rw [Decodable] at htext
  rw [if_pos htext] at hcases
  obtain ⟨decoded, hdecoded⟩ := hcases
  exact ⟨cString decoded, by simp [urlDecode, hdecoded, Except.map]⟩

theorem urlDecode_of_not_decodable {text : Bytes} (htext : ¬ Decodable text) :
    urlDecode text = .error .nullString := by
  have hcases := urlDecodeLoop_cases (text.take (intBound text.length))
  rw [Decodable] at htext
  rw [if_neg htext] at hcases
  simp [urlDecode, hcases, Except.map]

/-! ### Calls that return -/

/-- Every key and value up to the first piece without `=` can be decoded. -/
def SafePairs : List Bytes → Prop
  | [] => True
  | piece :: rest =>
      match cut equals piece with
      | none => True
      | some (key, val) => Decodable key ∧ Decodable val ∧ SafePairs rest

/-- What stands between the spaces, and behind the second one, lets
`parseRequestLine` compute a URL and a query string. -/
def SafeTarget (target version : Bytes) : Prop :=
  match cut question target with
  | none => Decodable target ∧ question ∉ version
  | some (path, query) => Decodable path ∧ Decodable query ∧
      SafePairs (query.splitOn ampersand)

def SafeRequestLine (line : Bytes) : Prop :=
  match cut space line with
  | none => True
  | some (name, rest) =>
      match cut space rest with
      | none => True
      | some (target, version) =>
          convertStringToMethod name = .unknow ∨ SafeTarget target version

/-- The call that `onMessage` makes in this state meets no cut escape and no
`?` behind the second space only. -/
def SafeCall (c : HttpConn) : Prop :=
  match c.state with
  | .checkRequestLine => ∀ line rest, c.queue = line ++ cr :: lf :: rest →
      cr ∉ line → SafeRequestLine line
  | .checkHeader => True
  | .checkContent => c.request.isForm → SafePairs (c.queue.splitOn ampersand)

def Verdict.Raises (verdict : Verdict) : Prop :=
  ∃ cause, verdict = .raise cause

theorem not_raises_accept : ¬ Verdict.accept.Raises := by
  simp [Verdict.Raises]

theorem not_raises_reject : ¬ Verdict.reject.Raises := by
  simp [Verdict.Raises]

theorem raises_raise (cause : Raise) : (Verdict.raise cause).Raises :=
  ⟨cause, rfl⟩

/-- Decoding and going on raises when the text cannot be decoded, or later. -/
theorem orRaise_urlDecode_raises_iff {T : Type} (text : Bytes) (stored : T)
    (next : Bytes → T × Verdict) {later : Prop}
    (hnext : ∀ decoded, (next decoded).2.Raises ↔ ¬ later) :
    (orRaise (urlDecode text) stored next).2.Raises ↔
      ¬ (Decodable text ∧ later) := by
  by_cases htext : Decodable text
  · obtain ⟨decoded, hdecoded⟩ := urlDecode_of_decodable htext
    rw [hdecoded, orRaise_ok, hnext]
    simp [htext]
  · rw [urlDecode_of_not_decodable htext, orRaise_error]
    simp [htext, raises_raise]

theorem parsePairs_raises_iff (pieces : List Bytes) (req : HttpRequest) :
    (parsePairs pieces req).2.Raises ↔ ¬ SafePairs pieces := by
  induction pieces generalizing req with
  | nil => simp [parsePairs, SafePairs, not_raises_accept]
  | cons piece rest ih =>
      rw [parsePairs, SafePairs]
      cases cut equals piece with
      | none => simp [not_raises_reject]
      | some parts =>
          obtain ⟨key, val⟩ := parts
          apply orRaise_urlDecode_raises_iff
          intro decodedKey
          apply orRaise_urlDecode_raises_iff
          intro decodedVal
          exact ih _

theorem readTarget_raises_iff (target version : Bytes) (req : HttpRequest) :
    (readTarget target version req).2.Raises ↔
      ¬ SafeTarget target version := by
  rw [readTarget, SafeTarget]
  cases cut question target with
  | some parts =>
      obtain ⟨path, query⟩ := parts
      apply orRaise_urlDecode_raises_iff
      intro url
      apply orRaise_urlDecode_raises_iff
      intro decoded
      exact parsePairs_raises_iff _ _
  | none =>
      cases hversion : cut question version with
      | none =>
          have hnot := cut_eq_none_iff.mp hversion
          apply orRaise_urlDecode_raises_iff
          intro url
          simp [hnot, not_raises_accept]
      | some parts =>
          -- a `?` behind the second space raises, whatever can be decoded
          obtain ⟨before, rest⟩ := parts
          have hmem : question ∈ version := by
            simp [(cut_eq_some_iff.mp hversion).1]
          have hraise : ∀ url : Bytes, (({ req with url := url },
              Verdict.raise .nullString) : HttpRequest × Verdict).2.Raises ↔
                ¬ False := by
            simp [raises_raise]
          simpa [hmem] using orRaise_urlDecode_raises_iff
            (target ++ space :: before) req _ hraise

theorem readRequestLine_raises_iff (line : Bytes) (req : HttpRequest) :
    (readRequestLine line req).2.Raises ↔ ¬ SafeRequestLine line := by
  rw [readRequestLine, SafeRequestLine]
  cases cut space line with
  | none => simp [not_raises_reject]
  | some parts =>
      obtain ⟨name, rest⟩ := parts
      by_cases hunknow : convertStringToMethod name = .unknow
      · simp only [hunknow, if_true, true_or]
        cases cut space rest <;> simp [not_raises_reject]
      · simp only [hunknow, if_false, false_or]
        cases cut space rest with
        | none => simp [not_raises_reject]
        | some parts =>
            obtain ⟨target, version⟩ := parts
            simp only []
            rw [← readTarget_raises_iff target version
              { req with method := convertStringToMethod name }]
            rcases readTarget target version _ with ⟨stored, verdict⟩
            cases verdict with
            | accept =>
                rw [onAccept_accept]
                cases lineVersion line <;>
                  simp [not_raises_accept, not_raises_reject]
            | reject => rfl
            | raise cause => rfl

theorem readHeaderLine_not_raises (line : Bytes) (req : HttpRequest) :
    ¬ (readHeaderLine line req).2.Raises := by
  rw [readHeaderLine]
  cases cut colon line with
  | none => exact not_raises_reject
  | some parts =>
      obtain ⟨key, val⟩ := parts
      by_cases hunknow : convertStringToHeader key = .unknow
      · simp only [if_pos hunknow]
        exact not_raises_reject
      · simp only [if_neg hunknow]
        exact not_raises_accept

theorem readContent_raises_iff (content : Bytes) (req : HttpRequest) :
    (readContent content req).2.Raises ↔
      ¬ (req.isForm → SafePairs (content.splitOn ampersand)) := by
  rw [readContent, HttpRequest.isForm_content]
  by_cases hreq : req.isForm = true
  · rw [if_pos hreq, parsePairs_raises_iff]
    simp [hreq]
  · rw [if_neg hreq]
    simp [hreq, not_raises_accept]

/-- A line decides what `SafeCall` says of a line state. -/
theorem safeCall_of_line {c : HttpConn} (hstate : c.state ≠ .checkContent)
    {line rest : Bytes} (hqueue : c.queue = line ++ cr :: lf :: rest)
    (hline : cr ∉ line) :
    SafeCall c ↔
      (c.state = .checkRequestLine → SafeRequestLine line) := by
  cases hc : c.state with
  | checkContent => exact absurd hc hstate
  | checkHeader => simp [SafeCall, hc]
  | checkRequestLine =>
      simp only [SafeCall, hc, true_implies]
      constructor
      · intro hsafe
        exact hsafe line rest hqueue hline
      · intro hsafe other after hother hnot
        obtain ⟨rfl, _⟩ := append_sep_inj hline hnot (hqueue ▸ hother)
        exact hsafe

/-- Without a complete line nothing is asked. -/
theorem safeCall_of_no_line {c : HttpConn} (hstate : c.state ≠ .checkContent)
    (hparse : parseLine c.queue ≠ .ok .lineOk) : SafeCall c := by
  cases hc : c.state with
  | checkContent => exact absurd hc hstate
  | checkHeader => simp [SafeCall, hc]
  | checkRequestLine =>
      simp only [SafeCall, hc]
      intro line rest hqueue hline
      rw [hqueue, parseLine_pair hline, if_pos rfl] at hparse
      exact absurd rfl hparse

theorem readLine_raises_iff {state : ReqCheckState}
    (hstate : state ≠ .checkContent) (line : Bytes) (req : HttpRequest) :
    (readLine state line req).2.Raises ↔
      ¬ (state = .checkRequestLine → SafeRequestLine line) := by
  cases state with
  | checkContent => exact absurd rfl hstate
  | checkRequestLine =>
      simp only [true_implies]
      rw [readLine, ← readRequestLine_raises_iff line req]
      rcases readRequestLine line req with ⟨stored, verdict⟩
      cases verdict <;> rfl
  | checkHeader =>
      have hheader := readHeaderLine_not_raises line req
      rw [readLine]
      by_cases hnil : line = []
      · simp [hnil, not_raises_accept]
      · simp [hnil, hheader]

/-- One turn of the loop raises exactly in the states that are not safe. -/
theorem turn_raises_iff (c : HttpConn) :
    (∃ cause, (turn c).2 = some (.raised cause)) ↔ ¬ SafeCall c := by
  have hend (verdict : Verdict) :
      (∃ cause, verdict.loopEnd = some (.raised cause)) ↔
        verdict.Raises := by
    cases verdict <;> simp [Verdict.loopEnd, Verdict.Raises]
  by_cases hstate : c.state = .checkContent
  · rw [turn_eq_of_content hstate, hend, readContent_raises_iff]
    simp only [SafeCall, hstate]
  · obtain ⟨view, hparse, hview⟩ := parseLine_view c.queue
    cases hview with
    | more hmore =>
        have hsafe := safeCall_of_no_line hstate (by simp [hparse])
        simp [turn_eq_of_more hstate hparse, hsafe]
    | ok line rest hqueue hline =>
        rw [turn_eq_of_line hstate hqueue hline, hend,
          safeCall_of_line hstate hqueue hline, readLine_raises_iff hstate]
    | error line rest byte hqueue hline hbyte =>
        have hsafe := safeCall_of_no_line hstate (by simp [hparse])
        simp [turn_eq_of_error hstate hparse, hsafe]

/-! ### Offsets handed to the buffer -/

/-- The positions that `parseLine` looks at. -/
def lineOffsets (q : Bytes) : List Int :=
  let pos := Queue.findChar q cr 0
  if pos = -1 then [0]
  else if pos + 1 = q.length then [0] else [0, pos + 1]

/-- The positions that `parseRequestLine` hands to the buffer or reads at. -/
def requestLineOffsets (q : Bytes) : List Int :=
  let lineEnd := Queue.findChar q cr 0
  let firstSpace := Queue.findCharIn q space 0 lineEnd
  let secondSpace := Queue.findCharIn q space (firstSpace + 1) lineEnd
  let index := Queue.findCharIn q question (firstSpace + 1) lineEnd
  if firstSpace < 0 ∨
      convertStringToMethod (q.take firstSpace.toNat) = .unknow then
    [0, lineEnd]
  else if secondSpace < 0 then [0, lineEnd, firstSpace + 1]
  else [0, lineEnd, firstSpace + 1, lineEnd - 1, lineEnd - 1 - 2,
    lineEnd + 2] ++ if index < 0 then [] else [index + 1]

/-- The positions that `parseHeaderLine` hands to the buffer. -/
def headerLineOffsets (q : Bytes) : List Int :=
  let lineEnd := Queue.findChar q cr 0
  let index := Queue.findCharIn q colon 0 lineEnd
  if index < 0 then 0 :: lineEnd :: if lineEnd = 0 then [2] else []
  else [0, lineEnd, index + 1, lineEnd + 2]

/-- Every position handed to the buffer by one turn of the loop. -/
def callOffsets (c : HttpConn) : List Int :=
  match c.state with
  | .checkContent => [0, c.queue.length]
  | .checkRequestLine => lineOffsets c.queue ++
      if parseLine c.queue = .ok .lineOk then requestLineOffsets c.queue
      else []
  | .checkHeader => lineOffsets c.queue ++
      if parseLine c.queue = .ok .lineOk then headerLineOffsets c.queue
      else []

def InsideData (q : Bytes) (offset : Int) : Prop :=
  0 ≤ offset ∧ offset ≤ q.length

theorem lineOffsets_inside (q : Bytes) :
    ∀ offset ∈ lineOffsets q, InsideData q offset := by
  have hzero : InsideData q 0 := ⟨le_refl 0, by omega⟩
  by_cases hmem : cr ∈ q
  · obtain ⟨line, rest, rfl, hline⟩ := List.eq_append_cons_of_mem hmem
    have hnext : InsideData (line ++ cr :: rest) (line.length + 1) := by
      constructor
      · omega
      · simp only [List.length_append, List.length_cons]
        omega
    rw [lineOffsets, Queue.findChar_line hline]
    split
    · simpa using hzero
    · split
      · simpa using hzero
      · simpa using ⟨hzero, hnext⟩
  · rw [lineOffsets, Queue.findChar_eq_neg_one hmem, if_pos rfl]
    simpa using hzero

theorem requestLineOffsets_inside {line : Bytes} (hline : cr ∉ line)
    (rest : Bytes) :
    ∀ offset ∈ requestLineOffsets (line ++ cr :: lf :: rest),
      InsideData (line ++ cr :: lf :: rest) offset := by
  have hlen : ((line ++ cr :: lf :: rest).length : Int) =
      line.length + rest.length + 2 := by
    simp only [List.length_append, List.length_cons]
    omega
  rw [requestLineOffsets, Queue.findChar_line hline]
  generalize line ++ cr :: lf :: rest = q at hlen ⊢
  generalize hfirst : Queue.findCharIn q space 0 line.length = firstSpace
  generalize hsecond : Queue.findCharIn q space (firstSpace + 1)
    line.length = secondSpace
  generalize hindex : Queue.findCharIn q question (firstSpace + 1)
    line.length = index
  intro offset hoffset
  rw [InsideData]
  split at hoffset
  · simp only [List.mem_cons, List.not_mem_nil, or_false] at hoffset
    omega
  · rename_i hknown
    rw [not_or] at hknown
    have hfirstBounds := Queue.findCharIn_bounds hfirst hknown.1
    split at hoffset
    · simp only [List.mem_cons, List.not_mem_nil, or_false] at hoffset
      omega
    · rename_i hspaces
      have hsecondBounds := Queue.findCharIn_bounds hsecond hspaces
      -- the name of a known method is not empty
      have hname : firstSpace ≠ 0 := by
        rintro rfl
        exact hknown.2 convertStringToMethod_nil
      simp only [List.mem_append, List.mem_cons, List.not_mem_nil,
        or_false] at hoffset
      rcases hoffset with hoffset | hoffset
      · omega
      · split at hoffset
        · cases hoffset
        · rename_i hfound
          have hindexBounds := Queue.findCharIn_bounds hindex hfound
          simp only [List.mem_cons, List.not_mem_nil, or_false] at hoffset
          omega

theorem headerLineOffsets_inside {line : Bytes} (hline : cr ∉ line)
    (rest : Bytes) :
    ∀ offset ∈ headerLineOffsets (line ++ cr :: lf :: rest),
      InsideData (line ++ cr :: lf :: rest) offset := by
  have hlen : ((line ++ cr :: lf :: rest).length : Int) =
      line.length + rest.length + 2 := by
    simp only [List.length_append, List.length_cons]
    omega
  rw [headerLineOffsets, Queue.findChar_line hline]
  generalize line ++ cr :: lf :: rest = q at hlen ⊢
  generalize hindex : Queue.findCharIn q colon 0 line.length = index
  intro offset hoffset
  rw [InsideData]
  split at hoffset
  · simp only [List.mem_cons] at hoffset
    rcases hoffset with hoffset | hoffset | hoffset
    · omega
    · omega
    · split at hoffset
      · simp only [List.mem_singleton] at hoffset
        omega
      · cases hoffset
  · rename_i hfound
    have hbounds := Queue.findCharIn_bounds hindex hfound
    simp only [List.mem_cons, List.not_mem_nil, or_false] at hoffset
    omega

/-- No turn, safe or not, hands the buffer a position outside its data. -/
theorem callOffsets_inside (c : HttpConn) :
    ∀ offset ∈ callOffsets c, InsideData c.queue offset := by
  have hline := lineOffsets_inside c.queue
  have hok (offsets : Bytes → List Int)
      (hinside : ∀ line rest, cr ∉ line →
        ∀ offset ∈ offsets (line ++ cr :: lf :: rest),
          InsideData (line ++ cr :: lf :: rest) offset) :
      ∀ offset ∈ lineOffsets c.queue ++
        (if parseLine c.queue = .ok .lineOk then offsets c.queue else []),
          InsideData c.queue offset := by
    intro offset hoffset
    rw [List.mem_append] at hoffset
    rcases hoffset with hoffset | hoffset
    · exact hline offset hoffset
    · obtain ⟨view, hparse, hview⟩ := parseLine_view c.queue
      rw [hparse] at hoffset
      cases hview with
      | more _ => cases hoffset
      | error line rest byte hqueue hnot hbyte => cases hoffset
      | ok line rest hqueue hnot =>
          rw [if_pos rfl] at hoffset
          rw [hqueue] at hoffset ⊢
          exact hinside line rest hnot offset hoffset
  rw [callOffsets]
  cases c.state with
  | checkContent => simp [InsideData]
  | checkRequestLine =>
      exact hok requestLineOffsets fun line rest hnot =>
        requestLineOffsets_inside hnot rest
  | checkHeader =>
      exact hok headerLineOffsets fun line rest hnot =>
        headerLineOffsets_inside hnot rest

/-! ### Runs -/

/-- The states in which the loop makes its calls. -/
def callStates : Nat → HttpConn → List HttpConn
  | 0, _ => []
  | fuel + 1, c =>
      c :: match turn c with
        | (_, some _) => []
        | (next, none) => callStates fuel next

/-- The loop stops where one of its turns does. -/
theorem parseLoop_stops_iff (stop : LoopEnd) (hstop : stop ≠ .outOfFuel)
    (fuel : Nat) (c : HttpConn) (flag : Bool) :
    (parseLoop fuel c flag).2.2 = stop ↔
      ∃ state ∈ callStates fuel c, (turn state).2 = some stop := by
  induction fuel generalizing c flag with
  | zero => simp [parseLoop, callStates, Ne.symm hstop]
  | succ fuel ih =>
      rw [parseLoop, callStates]
      rcases hturn : turn c with ⟨next, _ | other⟩
      · simp [ih, hturn]
      · simp [hturn]

theorem parseLoop_raises_iff (fuel : Nat) (c : HttpConn) (flag : Bool) :
    (∃ cause, (parseLoop fuel c flag).2.2 = .raised cause) ↔
      ∃ state ∈ callStates fuel c, ¬ SafeCall state := by
  simp only [← turn_raises_iff]
  constructor
  · rintro ⟨cause, hcause⟩
    obtain ⟨state, hstate, hturn⟩ :=
      (parseLoop_stops_iff _ (by simp) fuel c flag).mp hcause
    exact ⟨state, hstate, cause, hturn⟩
  · rintro ⟨state, hstate, cause, hturn⟩
    exact ⟨cause, (parseLoop_stops_iff _ (by simp) fuel c flag).mpr
      ⟨state, hstate, hturn⟩⟩

/-- The states in which a call of `onMessage` makes its calls. -/
def messageStates (c : HttpConn) : List HttpConn :=
  callStates (c.queue.length + 2) c

theorem parseMessage_raises_iff (c : HttpConn) :
    (∃ cause, (parseMessage c).2 = .raise cause) ↔
      ∃ state ∈ messageStates c, ¬ SafeCall state := by
  rw [messageStates, ← parseLoop_raises_iff _ c false, parseMessage]
  rcases parseLoop (c.queue.length + 2) c false with ⟨next, flag, stop⟩
  cases stop with
  | more => cases flag <;> simp [loopReply]
  | _ => simp [loopReply]

namespace HttpInput

/-- The connections on which the loop makes its calls. -/
def callStates : Nat → HttpInput → List HttpInput
  | 0, _ => []
  | fuel + 1, c =>
      c :: match turn c with
        | (_, some _) => []
        | (next, none) => callStates fuel next

/-- The same for a call of `handleRead`. -/
def calls (c : HttpInput) (r : Reading) : List HttpInput :=
  match c.read r with
  | none => []
  | some (filled, n) =>
      if n > 0 then callStates (filled.buffer.dataLen.toNat + 2) filled
      else []

/-- The call of `handleRead` comes back, neither by an exception nor through a
write outside the buffer, and every offset it handed to the buffer lay inside
the data. -/
structure Returns (c : HttpInput) (r : Reading) : Prop where
  value : ∃ next reply, c.handleRead r = some (next, reply) ∧
    reply ≠ .stuck ∧ ∀ cause, reply ≠ .raise cause
  inside : ∀ state ∈ c.calls r, ∀ offset ∈ callOffsets state.view,
    InsideData state.view.queue offset

/-- The bytes that arrive find room, and each call that the loop then makes is
safe. -/
structure Safe (c : HttpInput) (r : Reading) : Prop where
  fits : r.Fits c.buffer
  calls : ∀ state ∈ c.calls r, SafeCall state.view

variable {c : HttpInput} {r : Reading}

theorem callStates_view (fuel : Nat) (hc : c.buffer.Valid) :
    (callStates fuel c).map view = Sone.callStates fuel c.view := by
  induction fuel generalizing c with
  | zero => rfl
  | succ fuel ih =>
      have hturn := turn_agrees hc
      rw [callStates, Sone.callStates, List.map_cons]
      rcases hmine : turn c with ⟨next, stop⟩
      rcases hother : Sone.turn c.view with ⟨next', stop'⟩
      rw [hmine, hother] at hturn
      obtain rfl : stop = stop' := hturn.value_eq
      obtain rfl : next.view = next' := hturn.view_eq
      cases stop with
      | some stop => rfl
      | none => exact congrArg (c.view :: ·) (ih hturn.advanced.valid)

theorem calls_view (hc : c.buffer.ReadInto) (hpossible : r.Possible c.buffer)
    {bytes : Bytes} (hresult : r.result = some bytes) (hsome : bytes ≠ [])
    (hroom : c.buffer.RoomFor bytes.length) :
    (c.calls r).map view = messageStates (c.view.deliver bytes) := by
  obtain ⟨filled, hread, hfilled, hview⟩ :=
    read_of_fits hc hpossible hresult hroom
  have hcount : (bytes.length : Int) > 0 := by
    have hpos := List.length_pos_iff.mpr hsome
    omega
  have hlength : (c.view.deliver bytes).queue.length =
      filled.buffer.dataLen.toNat := by
    rw [← hview, ← Buffer.data_length]
    rfl
  rw [calls, hread]
  dsimp only
  rw [if_pos hcount, callStates_view _ hfilled.valid, messageStates, hview,
    hlength]

theorem calls_of_nothing (hc : c.buffer.ReadInto)
    (hpossible : r.Possible c.buffer) (hresult : r.result.getD [] = []) :
    c.calls r = [] := by
  obtain ⟨filled, n, hread, hn, _⟩ := read_of_nothing hc hpossible hresult
  rw [calls, hread]
  exact if_neg hn

/-- A reading comes back exactly when it is safe. -/
theorem returns_iff_safe (hc : c.buffer.ReadInto)
    (hpossible : r.Possible c.buffer) : c.Returns r ↔ c.Safe r := by
  by_cases hfits : r.Fits c.buffer
  · by_cases hnothing : r.result.getD [] = []
    · have hcalls := calls_of_nothing hc hpossible hnothing
      obtain ⟨next, hread, _⟩ := handleRead_of_nothing hc hpossible hnothing
      refine iff_of_true ⟨⟨next, _, hread, by simp, by simp⟩, ?_⟩ ⟨hfits, ?_⟩
      · simp [hcalls]
      · simp [hcalls]
    · obtain ⟨bytes, hresult, hsome⟩ := r.exists_bytes hnothing
      have hroom := hfits bytes hresult
      have hcalls := calls_view hc hpossible hresult hsome hroom
      obtain ⟨next, hread, _⟩ :=
        handleRead_of_fits hc hpossible hresult hsome hroom
      have hraises := parseMessage_raises_iff (c.view.deliver bytes)
      rw [← hcalls] at hraises
      constructor
      · rintro ⟨⟨next', reply, hread', _, hvalue⟩, _⟩
        rw [hread] at hread'
        cases hread'
        refine ⟨hfits, fun state hstate => ?_⟩
        by_contra hunsafe
        obtain ⟨cause, hcause⟩ :=
          hraises.mpr ⟨_, List.mem_map_of_mem hstate, hunsafe⟩
        exact hvalue cause hcause
      · rintro ⟨_, hsafe⟩
        refine ⟨⟨next, _, hread, parseMessage_ne_stuck _, ?_⟩,
          fun state _ => callOffsets_inside state.view⟩
        intro cause hcause
        obtain ⟨_, hstate, hunsafe⟩ := hraises.mp ⟨cause, hcause⟩
        obtain ⟨state, hmem, rfl⟩ := List.mem_map.mp hstate
        exact hunsafe (hsafe state hmem)
  · refine iff_of_false ?_ fun hsafe => hfits hsafe.fits
    rintro ⟨⟨next, reply, hread, _⟩, _⟩
    rw [handleRead_eq_none hc hpossible hfits] at hread
    cases hread

/-- Over every run of readings, each call comes back, with every offset inside
the data, exactly when each reading is safe. -/
theorem parser_returns_iff_safe (readings : List Reading)
    (hpossible : PossibleRun .init readings) :
    Along step Returns .init readings ↔ Along step Safe .init readings :=
  Along.congr (fun _ _ _ => step_readInto)
    (fun _ _ => returns_iff_safe) Buffer.init_readInto hpossible

instance (c : HttpInput) (readings : List Reading) :
    Decidable (PossibleRun c readings) :=
  inferInstanceAs (Decidable (Along step (fun c r => r.Possible c.buffer) c
    readings))

/-- How a call of `handleRead` ended, by which exception if by one; `none` is a
write outside the buffer. -/
def outcome (c : HttpInput) (r : Reading) : Option (Option Raise) :=
  (c.handleRead r).map fun result =>
    match result.2 with
    | .raise cause => some cause
    | _ => none

theorem returns_of_outcome (hc : c.buffer.ReadInto)
    (hpossible : r.Possible c.buffer) (houtcome : c.outcome r = some none) :
    c.Returns r := by
  obtain ⟨⟨next, reply⟩, hread, hcause⟩ := Option.map_eq_some_iff.mp houtcome
  obtain ⟨_, _, hreply⟩ := handleRead_cases hc hpossible hread
  refine ⟨⟨next, reply, hread, ?_, ?_⟩,
    fun state _ => callOffsets_inside state.view⟩
  · rcases hreply with ⟨_, _, rfl⟩ | ⟨bytes, _, _, hparse⟩
    · simp
    · have hstuck := parseMessage_ne_stuck (c.view.deliver bytes)
      rwa [hparse] at hstuck
  · rintro cause rfl
    cases hcause

theorem not_returns_of_outcome {cause : Raise}
    (houtcome : c.outcome r = some (some cause)) : ¬ c.Returns r := by
  rintro ⟨⟨next, reply, hread, _, hvalue⟩, _⟩
  rw [outcome, hread] at houtcome
  cases reply with
  | raise other => exact hvalue other rfl
  | _ => cases houtcome

/-- A request line with an escape and a query, in two readings. -/
theorem parser_returns_iff_safe_twoReadings :
    Along step Safe .init
      [.of (lit "GET /a%41?b=%42 HT"), .of (lit "TP/1.1\r\n")] := by
  have hpossible : PossibleRun .init
      [.of (lit "GET /a%41?b=%42 HT"), .of (lit "TP/1.1\r\n")] := by
    decide +kernel
  have hfirst : HttpInput.init.outcome (.of (lit "GET /a%41?b=%42 HT")) =
      some none := by
    decide +kernel
  have hsecond : (HttpInput.init.step (.of (lit "GET /a%41?b=%42 HT"))).bind
      (fun c => c.outcome (.of (lit "TP/1.1\r\n"))) = some none := by
    decide +kernel
  refine (parser_returns_iff_safe _ hpossible).mp
    ⟨returns_of_outcome Buffer.init_readInto hpossible.1 hfirst, ?_⟩
  intro next hnext
  have hnextPossible := (hpossible.2 next hnext).1
  have hkept := step_readInto Buffer.init_readInto hpossible.1 hnext
  rw [hnext, Option.bind_some] at hsecond
  exact ⟨returns_of_outcome hkept hnextPossible hsecond, fun _ _ => trivial⟩

/-- An escape cut by the end of the path reaches the `nullptr` of `URLDecode`,
and a `?` behind the second space only that of `getDataToString`. -/
theorem cut_escape_and_late_question_raise :
    (PossibleRun .init [.of (lit "GET /%4 HTTP/1.1\r\n")] ∧
      ¬ Along step Returns .init [.of (lit "GET /%4 HTTP/1.1\r\n")]) ∧
    PossibleRun .init [.of (lit "GET / HTTP/1.1?\r\n")] ∧
      ¬ Along step Returns .init [.of (lit "GET / HTTP/1.1?\r\n")] := by
  have hcut : HttpInput.init.outcome (.of (lit "GET /%4 HTTP/1.1\r\n")) =
      some (some .nullString) := by
    decide +kernel
  have hlate : HttpInput.init.outcome (.of (lit "GET / HTTP/1.1?\r\n")) =
      some (some .nullString) := by
    decide +kernel
  refine ⟨⟨by decide +kernel, ?_⟩, by decide +kernel, ?_⟩
  · exact fun halong => not_returns_of_outcome hcut halong.1
  · exact fun halong => not_returns_of_outcome hlate halong.1

end HttpInput

end Sone

end LinuxTest
