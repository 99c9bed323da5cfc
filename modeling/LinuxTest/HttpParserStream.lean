/-
The loop of `onMessage` over a growing byte stream.  One turn depends on the
first line of the input only, so what has been decided stays decided when more
bytes arrive; the loop up to `CHECK_CONTENT` is a function of the bytes received
and not of how they were cut.
-/
import LinuxTest.HttpParserSpec

namespace LinuxTest

namespace Sone

/-! ### One turn -/

/-- What a turn does with the text of a complete line. -/
def readLine (state : ReqCheckState) (line : Bytes) (req : HttpRequest) :
    (ReqCheckState × HttpRequest) × Verdict :=
  match state with
  | .checkRequestLine =>
      onAccept (readRequestLine line req) (fun req => (state, req)) fun req =>
        ((.checkHeader, req), .accept)
  | .checkHeader =>
      if line = [] then ((.checkContent, req), .accept)
      else ((state, (readHeaderLine line req).1), (readHeaderLine line req).2)
  | .checkContent => ((state, req), .accept)

theorem readLine_requestLine {line : Bytes} {req next : HttpRequest}
    {state : ReqCheckState} (hread : readLine .checkRequestLine line req =
      ((state, next), .accept)) :
    state = .checkHeader ∧ readRequestLine line req = (next, .accept) := by
  rw [readLine] at hread
  rcases hline : readRequestLine line req with ⟨stored, verdict⟩
  rw [hline] at hread
  cases verdict with
  | accept =>
      cases hread
      exact ⟨rfl, rfl⟩
  | reject => cases hread
  | raise cause => cases hread

theorem readLine_header {line : Bytes} (hne : line ≠ [])
    {req next : HttpRequest} {state : ReqCheckState}
    (hread : readLine .checkHeader line req = ((state, next), .accept)) :
    state = .checkHeader ∧ readHeaderLine line req = (next, .accept) := by
  rw [readLine, if_neg hne] at hread
  simp only [Prod.mk.injEq] at hread
  obtain ⟨⟨hstate, hnext⟩, hverdict⟩ := hread
  exact ⟨hstate.symm, Prod.ext hnext hverdict⟩

theorem turn_eq_of_more {c : HttpConn} (hstate : c.state ≠ .checkContent)
    (hmore : parseLine c.queue = .ok .lineMore) :
    turn c = (c, some .more) := by
  cases hc : c.state with
  | checkContent => exact absurd hc hstate
  | checkRequestLine => simp only [turn, hc, lineTurn, hmore]
  | checkHeader => simp only [turn, hc, lineTurn, hmore]

theorem turn_eq_of_error {c : HttpConn} (hstate : c.state ≠ .checkContent)
    (herror : parseLine c.queue = .ok .lineError) :
    turn c = (c, some .malformed) := by
  cases hc : c.state with
  | checkContent => exact absurd hc hstate
  | checkRequestLine => simp only [turn, hc, lineTurn, herror]
  | checkHeader => simp only [turn, hc, lineTurn, herror]

/-- A turn on a complete line; the line is dropped when it is accepted. -/
theorem turn_eq_of_line {c : HttpConn} (hstate : c.state ≠ .checkContent)
    {line rest : Bytes} (hqueue : c.queue = line ++ cr :: lf :: rest)
    (hline : cr ∉ line) :
    turn c =
      (⟨if (readLine c.state line c.request).2 = .accept then rest
          else c.queue,
        (readLine c.state line c.request).1.1,
        (readLine c.state line c.request).1.2⟩,
        (readLine c.state line c.request).2.loopEnd) := by
  have hok : parseLine c.queue = .ok .lineOk := by
    rw [hqueue, parseLine_pair hline, if_pos rfl]
  cases hc : c.state with
  | checkContent => exact absurd hc hstate
  | checkRequestLine =>
      rcases hread : readRequestLine line c.request with ⟨req, verdict⟩
      cases verdict <;>
        simp [turn, hc, lineTurn, hok, readLine,
          parseRequestLine_eq c hqueue hline, hread, onAccept]
  | checkHeader =>
      by_cases hnil : line = []
      · subst hnil
        simp [turn, hc, lineTurn, hok, readLine,
          parseHeaderLine_blank c hqueue]
      · rcases hread : readHeaderLine line c.request with ⟨req, verdict⟩
        cases verdict <;>
          simp [turn, hc, lineTurn, hok, readLine,
            parseHeaderLine_eq c hqueue hline hnil, hnil, hread, onAccept]

theorem turn_eq_of_content {c : HttpConn} (hstate : c.state = .checkContent) :
    turn c =
      (⟨if (readContent c.queue c.request).2 = .accept then [] else c.queue,
        if (readContent c.queue c.request).2 = .accept then .checkRequestLine
          else .checkContent,
        (readContent c.queue c.request).1⟩,
        (readContent c.queue c.request).2.loopEnd) := by
  rcases hread : readContent c.queue c.request with ⟨req, verdict⟩
  cases verdict <;> simp [turn, hstate, parseContent_eq, hread, onAccept]

@[simp] theorem HttpConn.deliver_nil (c : HttpConn) : c.deliver [] = c := by
  simp [HttpConn.deliver]

theorem HttpConn.deliver_append (c : HttpConn) (first last : Bytes) :
    (c.deliver first).deliver last = c.deliver (first ++ last) := by
  simp [HttpConn.deliver]

/-- A turn that found a whole line, or a stray carriage return, does the same
when more bytes have arrived. -/
theorem turn_deliver {c : HttpConn} (hstate : c.state ≠ .checkContent)
    (hturn : (turn c).2 ≠ some .more) (chunk : Bytes) :
    turn (c.deliver chunk) = ((turn c).1.deliver chunk, (turn c).2) := by
  obtain ⟨view, hparse, hview⟩ := parseLine_view c.queue
  cases hview with
  | more _ =>
      rw [turn_eq_of_more hstate hparse] at hturn
      exact absurd rfl hturn
  | ok line rest hqueue hline =>
      have hlong : (c.deliver chunk).queue =
          line ++ cr :: lf :: (rest ++ chunk) := by
        simp [HttpConn.deliver, hqueue]
      rw [turn_eq_of_line hstate hqueue hline,
        turn_eq_of_line (c := c.deliver chunk) hstate hlong hline]
      by_cases hacc : (readLine c.state line c.request).2 = .accept
      · simp [HttpConn.deliver, hacc]
      · simp [HttpConn.deliver, hacc]
  | error line rest byte hqueue hline hbyte =>
      have hlong : (c.deliver chunk).queue =
          line ++ cr :: byte :: (rest ++ chunk) := by
        simp [HttpConn.deliver, hqueue]
      have hparseLong : parseLine (c.deliver chunk).queue =
          .ok .lineError := by
        rw [hlong, parseLine_pair hline, if_neg hbyte]
      rw [turn_eq_of_error hstate hparse,
        turn_eq_of_error (c := c.deliver chunk) hstate hparseLong]

theorem Verdict.loopEnd_eq_none {verdict : Verdict}
    (hverdict : verdict.loopEnd = none) : verdict = .accept := by
  cases verdict with
  | accept => rfl
  | reject => cases hverdict
  | raise cause => cases hverdict

/-- A turn that goes round again has taken and dropped a line. -/
theorem turn_takes {c next : HttpConn} (hstate : c.state ≠ .checkContent)
    (hturn : turn c = (next, none)) :
    ∃ line, c.queue = line ++ cr :: lf :: next.queue ∧ cr ∉ line ∧
      readLine c.state line c.request =
        ((next.state, next.request), .accept) := by
  obtain ⟨view, hparse, hview⟩ := parseLine_view c.queue
  cases hview with
  | more _ =>
      rw [turn_eq_of_more hstate hparse] at hturn
      cases hturn
  | ok line rest hqueue hline =>
      rw [turn_eq_of_line hstate hqueue hline] at hturn
      have hacc := Verdict.loopEnd_eq_none (congrArg Prod.snd hturn)
      obtain rfl := congrArg Prod.fst hturn
      refine ⟨line, ?_, hline, ?_⟩
      · simp only [if_pos hacc, hqueue]
      · rw [← hacc]
  | error line rest byte hqueue hline hbyte =>
      rw [turn_eq_of_error hstate hparse] at hturn
      cases hturn

theorem turn_shrinks {c next : HttpConn} (hstate : c.state ≠ .checkContent)
    (hturn : turn c = (next, none)) :
    next.queue.length < c.queue.length := by
  obtain ⟨line, hqueue, _⟩ := turn_takes hstate hturn
  rw [hqueue]
  simp only [List.length_append, List.length_cons]
  omega

theorem Verdict.loopEnd_ne_more (verdict : Verdict) :
    verdict.loopEnd ≠ some .more := by
  cases verdict <;> simp [Verdict.loopEnd]

/-- A turn that waits for more bytes leaves the connection as it is. -/
theorem turn_waits {c next : HttpConn} (hstate : c.state ≠ .checkContent)
    (hturn : turn c = (next, some .more)) :
    next = c ∧ parseLine c.queue = .ok .lineMore := by
  obtain ⟨view, hparse, hview⟩ := parseLine_view c.queue
  cases hview with
  | more _ =>
      rw [turn_eq_of_more hstate hparse] at hturn
      cases hturn
      exact ⟨rfl, hparse⟩
  | ok line rest hqueue hline =>
      rw [turn_eq_of_line hstate hqueue hline] at hturn
      exact absurd (congrArg Prod.snd hturn) (Verdict.loopEnd_ne_more _)
  | error line rest byte hqueue hline hbyte =>
      rw [turn_eq_of_error hstate hparse] at hturn
      cases hturn

/-! ### The head of a message -/

/-- The loop of `onMessage` up to `CHECK_CONTENT`: the connection where it
stops, the number of lines taken, and why it stopped; `none` is the move to
`CHECK_CONTENT`. -/
def headLoop : Nat → HttpConn → Nat → HttpConn × Nat × Option LoopEnd
  | 0, c, lines => (c, lines, some .outOfFuel)
  | fuel + 1, c, lines =>
      if c.state = .checkContent then (c, lines, none)
      else match turn c with
        | (next, some stop) => (next, lines, some stop)
        | (next, none) => headLoop fuel next (lines + 1)

theorem headLoop_content {c : HttpConn} (hstate : c.state = .checkContent)
    (fuel lines : Nat) : headLoop (fuel + 1) c lines = (c, lines, none) := by
  rw [headLoop, if_pos hstate]

theorem headLoop_stop {c next : HttpConn} (hstate : c.state ≠ .checkContent)
    {stop : LoopEnd} (hturn : turn c = (next, some stop)) (fuel lines : Nat) :
    headLoop (fuel + 1) c lines = (next, lines, some stop) := by
  rw [headLoop, if_neg hstate, hturn]

theorem headLoop_step {c next : HttpConn} (hstate : c.state ≠ .checkContent)
    (hturn : turn c = (next, none)) (fuel lines : Nat) :
    headLoop (fuel + 1) c lines = headLoop fuel next (lines + 1) := by
  rw [headLoop, if_neg hstate, hturn]

/-- Fuel beyond the length of the input changes nothing. -/
theorem headLoop_fuel {fuel other : Nat} {c : HttpConn} (lines : Nat)
    (hfuel : c.queue.length < fuel) (hother : c.queue.length < other) :
    headLoop fuel c lines = headLoop other c lines := by
  induction fuel generalizing other c lines with
  | zero => omega
  | succ fuel ih =>
      cases other with
      | zero => omega
      | succ other =>
          by_cases hstate : c.state = .checkContent
          · rw [headLoop_content hstate, headLoop_content hstate]
          · rcases hturn : turn c with ⟨next, _ | stop⟩
            · have hshrink := turn_shrinks hstate hturn
              rw [headLoop_step hstate hturn, headLoop_step hstate hturn]
              exact ih (lines + 1) (by omega) (by omega)
            · rw [headLoop_stop hstate hturn, headLoop_stop hstate hturn]

/-- Where the head loop waits, it has come to a turn that waits. -/
theorem headLoop_waits {fuel : Nat} {c : HttpConn} {lines : Nat}
    (hmore : (headLoop fuel c lines).2.2 = some .more) :
    (headLoop fuel c lines).1.queue.length ≤ c.queue.length ∧
      (headLoop fuel c lines).1.state ≠ .checkContent ∧
      turn (headLoop fuel c lines).1 =
        ((headLoop fuel c lines).1, some .more) := by
  induction fuel generalizing c lines with
  | zero => simp [headLoop] at hmore
  | succ fuel ih =>
      by_cases hstate : c.state = .checkContent
      · simp [headLoop_content hstate] at hmore
      · rcases hturn : turn c with ⟨next, _ | stop⟩
        · have hshrink := turn_shrinks hstate hturn
          rw [headLoop_step hstate hturn] at hmore ⊢
          obtain ⟨hle, hrest⟩ := ih hmore
          exact ⟨by omega, hrest⟩
        · rw [headLoop_stop hstate hturn] at hmore ⊢
          simp only [Option.some.injEq] at hmore
          subst hmore
          obtain ⟨rfl, _⟩ := turn_waits hstate hturn
          exact ⟨le_refl _, hstate, hturn⟩

/-- What the head loop has decided stays decided; if it waits for more, it goes
on with the next bytes as if they had been there from the start. -/
theorem headLoop_deliver {fuel : Nat} {c : HttpConn} (lines : Nat)
    (chunk : Bytes) (hfuel : c.queue.length < fuel) {long : Nat}
    (hlong : (c.deliver chunk).queue.length < long) :
    headLoop long (c.deliver chunk) lines =
      if (headLoop fuel c lines).2.2 = some .more then
        headLoop long ((headLoop fuel c lines).1.deliver chunk)
          (headLoop fuel c lines).2.1
      else ((headLoop fuel c lines).1.deliver chunk,
        (headLoop fuel c lines).2) := by
  induction fuel generalizing c lines long with
  | zero => omega
  | succ fuel ih =>
      obtain ⟨long, rfl⟩ : ∃ n, long = n + 1 := ⟨long - 1, by omega⟩
      by_cases hstate : c.state = .checkContent
      · rw [headLoop_content hstate,
          headLoop_content (c := c.deliver chunk) hstate]
        simp
      · rcases hturn : turn c with ⟨next, _ | stop⟩
        · have hshrink := turn_shrinks hstate hturn
          have hsame := turn_deliver hstate (by simp [hturn]) chunk
          simp only [hturn] at hsame
          simp only [HttpConn.deliver, List.length_append] at hlong
          have hshort : (next.deliver chunk).queue.length < long := by
            simp only [HttpConn.deliver, List.length_append]
            omega
          rw [headLoop_step (c := c.deliver chunk) hstate hsame,
            headLoop_step hstate hturn, ih (lines + 1) (by omega) hshort]
          by_cases hmore : (headLoop fuel next (lines + 1)).2.2 = some .more
          · have hle := (headLoop_waits hmore).1
            have hend : ((headLoop fuel next (lines + 1)).1.deliver
                chunk).queue.length < long := by
              simp only [HttpConn.deliver, List.length_append]
              omega
            rw [if_pos hmore, if_pos hmore]
            exact headLoop_fuel _ hend (by omega)
          · rw [if_neg hmore, if_neg hmore]
        · rw [headLoop_stop hstate hturn]
          by_cases hmore : stop = .more
          · subst hmore
            obtain ⟨rfl, _⟩ := turn_waits hstate hturn
            rw [if_pos rfl]
          · have hsame := turn_deliver hstate
              (by simpa [hturn] using hmore) chunk
            simp only [hturn] at hsame
            rw [headLoop_stop (c := c.deliver chunk) hstate hsame,
              if_neg (by simpa using hmore)]

theorem headLoop_lines (fuel : Nat) (c : HttpConn) (lines more : Nat) :
    headLoop fuel c (lines + more) =
      ((headLoop fuel c lines).1, (headLoop fuel c lines).2.1 + more,
        (headLoop fuel c lines).2.2) := by
  induction fuel generalizing c lines with
  | zero => rfl
  | succ fuel ih =>
      by_cases hstate : c.state = .checkContent
      · rw [headLoop_content hstate, headLoop_content hstate]
      · rcases hturn : turn c with ⟨next, _ | stop⟩
        · rw [headLoop_step hstate hturn, headLoop_step hstate hturn,
            Nat.add_right_comm, ih]
        · rw [headLoop_stop hstate hturn, headLoop_stop hstate hturn]

theorem turn_ne_outOfFuel (c : HttpConn) :
    (turn c).2 ≠ some .outOfFuel := by
  have hverdict (verdict : Verdict) : verdict.loopEnd ≠ some .outOfFuel := by
    cases verdict <;> simp [Verdict.loopEnd]
  by_cases hstate : c.state = .checkContent
  · rw [turn_eq_of_content hstate]
    exact hverdict _
  · obtain ⟨view, hparse, hview⟩ := parseLine_view c.queue
    cases hview with
    | more _ => simp [turn_eq_of_more hstate hparse]
    | ok line rest hqueue hline =>
        rw [turn_eq_of_line hstate hqueue hline]
        exact hverdict _
    | error line rest byte hqueue hline hbyte =>
        simp [turn_eq_of_error hstate hparse]

theorem headLoop_ne_outOfFuel {fuel : Nat} {c : HttpConn} (lines : Nat)
    (hfuel : c.queue.length < fuel) :
    (headLoop fuel c lines).2.2 ≠ some .outOfFuel := by
  induction fuel generalizing c lines with
  | zero => omega
  | succ fuel ih =>
      by_cases hstate : c.state = .checkContent
      · simp [headLoop_content hstate]
      · rcases hturn : turn c with ⟨next, _ | stop⟩
        · have hshrink := turn_shrinks hstate hturn
          rw [headLoop_step hstate hturn]
          exact ih (lines + 1) (by omega)
        · rw [headLoop_stop hstate hturn, ← congrArg Prod.snd hturn]
          exact turn_ne_outOfFuel c

/-! ### A call of `onMessage` -/

/-- The rest of a call that has come to `CHECK_CONTENT`. -/
def contentReply (c : HttpConn) : HttpConn × Reply :=
  match readContent c.queue c.request with
  | (req, .accept) => (⟨[], .checkRequestLine, req⟩, .respond req)
  | (req, .reject) => ({ c with request := req }.closing, .errorPage)
  | (req, .raise cause) => ({ c with request := req }, .raise cause)

/-- A call of `onMessage`, from the end of its head loop on. -/
def headReply : HttpConn × Nat × Option LoopEnd → HttpConn × Reply
  | (c, _, none) => contentReply c
  | (c, _, some .more) => (c, .wait)
  | (c, _, some .malformed) => (c.closing, .errorPage)
  | (c, _, some .rejected) => (c.closing, .errorPage)
  | (c, _, some (.raised cause)) => (c, .raise cause)
  | (c, _, some .outOfFuel) => (c, .stuck)

/-- The loop is its head loop and then, at most, one content. -/
theorem loopReply_parseLoop {fuel : Nat} {c : HttpConn} (lines : Nat)
    (hfuel : c.queue.length + 2 ≤ fuel) :
    loopReply (parseLoop fuel c false) =
      headReply (headLoop fuel c lines) := by
  induction fuel generalizing c lines with
  | zero => omega
  | succ fuel ih =>
      by_cases hstate : c.state = .checkContent
      · obtain ⟨fuel, rfl⟩ : ∃ n, fuel = n + 1 := ⟨fuel - 1, by omega⟩
        have hturn := turn_eq_of_content hstate
        rw [headLoop_content hstate, headReply, contentReply]
        rcases hread : readContent c.queue c.request with ⟨req, verdict⟩
        rw [hread] at hturn
        cases verdict with
        | accept =>
            -- the content took the whole input, so the next line test waits
            have hwait := turn_eq_of_more
              (c := ⟨[], .checkRequestLine, req⟩) (by simp)
              (parseLine_absent (by simp))
            simp only [if_true, Verdict.loopEnd] at hturn
            simp only [parseLoop, hturn, hwait, hstate, decide_true,
              Bool.or_true, loopReply, if_true]
        | reject =>
            simp only [Verdict.loopEnd] at hturn
            simp [parseLoop, hturn, loopReply, hstate]
        | raise cause =>
            simp only [Verdict.loopEnd] at hturn
            simp [parseLoop, hturn, loopReply, hstate]
      · rcases hturn : turn c with ⟨next, _ | stop⟩
        · have hshrink := turn_shrinks hstate hturn
          rw [headLoop_step hstate hturn, ← ih (lines + 1) (by omega)]
          simp only [parseLoop, hturn, hstate, decide_false, Bool.or_false]
        · rw [headLoop_stop hstate hturn]
          simp only [parseLoop, hturn]
          cases stop <;> rfl

theorem parseMessage_eq (c : HttpConn) :
    parseMessage c = headReply (headLoop (c.queue.length + 1) c 0) := by
  rw [parseMessage, loopReply_parseLoop 0 (le_refl _),
    headLoop_fuel 0 (Nat.lt_add_of_pos_right Nat.two_pos)
      (Nat.lt_add_one _)]

/-- The number of lines taken does not matter to the reply. -/
theorem headReply_lines (fuel : Nat) (c : HttpConn) (lines : Nat) :
    headReply (headLoop fuel c lines) = headReply (headLoop fuel c 0) := by
  have hlines := headLoop_lines fuel c 0 lines
  rw [Nat.zero_add] at hlines
  rw [hlines]
  rcases headLoop fuel c 0 with ⟨next, count, _ | stop⟩
  · rfl
  · cases stop <;> rfl

theorem contentReply_ne_wait (c : HttpConn) :
    (contentReply c).2 ≠ .wait := by
  rw [contentReply]
  rcases readContent c.queue c.request with ⟨req, verdict⟩
  cases verdict <;> simp

theorem headReply_wait {result : HttpConn × Nat × Option LoopEnd}
    {next : HttpConn} (hreply : headReply result = (next, .wait)) :
    result.2.2 = some .more ∧ result.1 = next := by
  rcases result with ⟨c, lines, _ | stop⟩
  · exact absurd (congrArg Prod.snd hreply) (contentReply_ne_wait c)
  · cases stop <;> simp [headReply] at hreply
    exact ⟨rfl, hreply⟩

/-- A call that waits only puts off the parse. -/
theorem parseMessage_deliver {c next : HttpConn}
    (hwait : parseMessage c = (next, .wait)) (chunk : Bytes) :
    parseMessage (next.deliver chunk) = parseMessage (c.deliver chunk) := by
  rw [parseMessage_eq] at hwait
  obtain ⟨hmore, rfl⟩ := headReply_wait hwait
  have hle := (headLoop_waits hmore).1
  have hlong : ((headLoop (c.queue.length + 1) c 0).1.deliver
      chunk).queue.length < (c.deliver chunk).queue.length + 1 := by
    simp only [HttpConn.deliver, List.length_append]
    omega
  have hresume := headLoop_deliver 0 chunk
    (Nat.lt_add_one c.queue.length)
    (Nat.lt_add_one (c.deliver chunk).queue.length)
  rw [if_pos hmore] at hresume
  rw [parseMessage_eq (c.deliver chunk), parseMessage_eq,
    headLoop_fuel 0 (Nat.lt_add_one _) hlong,
    ← headReply_lines _ _ (headLoop (c.queue.length + 1) c 0).2.1]
  exact congrArg headReply hresume.symm

theorem parseMessage_ne_stuck (c : HttpConn) :
    (parseMessage c).2 ≠ .stuck := by
  have hfuel := headLoop_ne_outOfFuel (c := c) 0 (Nat.lt_add_one _)
  rw [parseMessage_eq]
  rcases hhead : headLoop (c.queue.length + 1) c 0 with
    ⟨next, lines, _ | stop⟩
  · rw [headReply, contentReply]
    rcases readContent next.queue next.request with ⟨req, verdict⟩
    cases verdict <;> simp
  · cases stop <;> simp [headReply, hhead] at hfuel ⊢

end Sone

end LinuxTest
