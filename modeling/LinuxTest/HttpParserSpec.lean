/-
The parse functions as functions of the text of one line.  Offsets into the
buffer disappear here: a request line is cut at its spaces and at the first
`?`, a header line at its first colon.
-/
import LinuxTest.HttpParser

namespace LinuxTest

namespace Sone

/-! ### The text of a request line -/

/-- The version named by the end of a request line. -/
def lineVersion (text : Bytes) : Option HttpVersion :=
  if text[text.length - 1]? = some 49 then some .http11
  else if text[text.length - 1]? = some 48 ∧
      text[text.length - 3]? = some 49 then some .http10
  else none

/-- What `parseRequestLine` does with a target and the text behind it. -/
def readTarget (target version : Bytes) (req : HttpRequest) :
    HttpRequest × Verdict :=
  match cut question target with
  | some (path, query) =>
      orRaise (urlDecode path) req fun url =>
      orRaise (urlDecode query) { req with url := url } fun decoded =>
      parsePairs (query.splitOn ampersand)
        { req with url := url, queryString := decoded }
  | none => match cut question version with
    | none =>
        orRaise (urlDecode target) req fun url =>
        ({ req with url := url }, .accept)
    | some (before, _) =>
        orRaise (urlDecode (target ++ space :: before)) req fun url =>
        ({ req with url := url }, .raise .nullString)

/-- `parseRequestLine` on the text of the line. -/
def readRequestLine (line : Bytes) (req : HttpRequest) :
    HttpRequest × Verdict :=
  match cut space line with
  | none => (req, .reject)
  | some (name, rest) =>
      if convertStringToMethod name = .unknow then (req, .reject)
      else
        let req := { req with method := convertStringToMethod name }
        match cut space rest with
        | none => (req, .reject)
        | some (target, version) =>
            onAccept (readTarget target version req) id fun req =>
            match lineVersion line with
            | none => (req, .reject)
            | some version => ({ req with version := version }, .accept)

/-- `parseHeaderLine` on the text of a line that is not empty. -/
def readHeaderLine (line : Bytes) (req : HttpRequest) :
    HttpRequest × Verdict :=
  match cut colon line with
  | none => (req, .reject)
  | some (key, val) =>
      if convertStringToHeader key = .unknow then (req, .reject)
      else (req.setHeader (convertHeaderToString (convertStringToHeader key))
        (if val.head? = some space then val.tail else val), .accept)

section Raising

variable {V T S : Type}

theorem orRaise_ok (value : V) (stored : T) (next : V → T × Verdict) :
    orRaise (.ok value) stored next = next value := by
  simp only [orRaise]

theorem orRaise_error (cause : Raise) (stored : T)
    (next : V → T × Verdict) :
    orRaise (.error cause) stored next = (stored, .raise cause) := by
  simp only [orRaise]

theorem onAccept_accept (stored : T) (other : T → S)
    (next : T → S × Verdict) :
    onAccept (stored, .accept) other next = next stored := by
  simp only [onAccept]

theorem onAccept_of_ne {result : T × Verdict} (other : T → S)
    (next : T → S × Verdict) (hresult : result.2 ≠ .accept) :
    onAccept result other next = (other result.1, result.2) := by
  obtain ⟨stored, verdict⟩ := result
  cases verdict with
  | accept => exact absurd rfl hresult
  | reject => simp only [onAccept]
  | raise cause => simp only [onAccept]

end Raising

theorem convertStringToMethod_nil :
    convertStringToMethod [] = .unknow := by
  decide

/-- The `k`-th byte from the end of a line is inside the data. -/
theorem byteAt_fromEnd (text rest : Bytes) (k : Nat) (hpos : 1 ≤ k)
    (hk : k ≤ text.length) :
    ∃ byte, text[text.length - k]? = some byte ∧
      Queue.byteAt (text ++ rest) ((text.length : Int) - k) = .ok byte := by
  have hlt : text.length - k < text.length := by omega
  have hindex : ((text.length : Int) - k).toNat = text.length - k := by
    omega
  refine ⟨text.get ⟨text.length - k, hlt⟩, by simp, ?_⟩
  rw [Queue.byteAt, if_neg (by omega), hindex,
    List.getElem?_append_left hlt, List.getElem?_eq_getElem hlt]
  rfl

theorem parseVersion_eq (line rest : Bytes) (hlen : 3 ≤ line.length) :
    parseVersion (line ++ rest) line.length = .ok (lineVersion line) := by
  obtain ⟨last, hlastEq, hlast⟩ :=
    byteAt_fromEnd line rest 1 (le_refl 1) (by omega)
  obtain ⟨major, hmajorEq, hmajor⟩ :=
    byteAt_fromEnd line rest 3 (by omega) hlen
  have hthree : (line.length : Int) - 1 - 2 = line.length - (3 : Nat) := by
    omega
  rw [parseVersion, show (line.length : Int) - 1 = line.length - (1 : Nat)
    from rfl, hlast]
  simp only [Nat.cast_one, hthree, hmajor, lineVersion, hlastEq, hmajorEq,
    Option.some.injEq, Except.bind, Except.map]
  by_cases hone : last = 49
  · simp [hone]
  · by_cases hzero : last = 48
    · simp [hzero]
    · simp [hone, hzero]

theorem question_ne_space : question ≠ space := by
  decide

theorem parseTarget_eq {q : Bytes} (name target version after : Bytes)
    (hq : q = name ++ space :: (target ++ space :: version) ++ after)
    {firstSpace secondSpace lineEnd : Int}
    (hfirst : firstSpace = name.length)
    (hsecond : secondSpace = name.length + 1 + target.length)
    (hend : lineEnd = name.length + 1 + target.length + 1 + version.length)
    (req : HttpRequest) :
    parseTarget q firstSpace secondSpace lineEnd req =
      readTarget target version req := by
  have hlen : (q.length : Int) = lineEnd + after.length := by
    simp only [hq, hend, List.length_append, List.length_cons]
    omega
  rw [parseTarget, readTarget]
  cases htarget : cut question target with
  | some parts =>
      obtain ⟨path, query⟩ := parts
      obtain ⟨rfl, hpath⟩ := cut_eq_some_iff.mp htarget
      rw [List.length_append, List.length_cons] at hsecond hend
      have hindex :
          Queue.findCharIn q question (firstSpace + 1) lineEnd =
            (name ++ [space]).length + path.length :=
        Queue.findCharIn_found (name ++ [space]) path
          (query ++ space :: version) after (by simp [hq]) (by simp [hfirst])
          (by simp only [List.length_append, List.length_cons,
                List.length_nil]
              omega) hpath
      rw [List.length_append, List.length_singleton] at hindex
      rw [hindex, if_neg (by omega), Queue.getDataToString_text
        (name ++ [space]) path
        (question :: query ++ space :: version ++ after) (by simp [hq])
        (by omega) (by simp [hfirst])]
      rw [orRaise_ok]
      congr 1
      funext url
      rw [Queue.getDataToString_text
        (name ++ space :: path ++ [question]) query
        (space :: version ++ after) (by simp [hq]) (by omega)
        (by simp only [List.length_append, List.length_cons,
              List.length_nil]
            omega), orRaise_ok]
  | none =>
      have hnot := cut_eq_none_iff.mp htarget
      cases hversion : cut question version with
      | none =>
          have hindex :
              Queue.findCharIn q question (firstSpace + 1) lineEnd = -1 :=
            Queue.findCharIn_absent (name ++ [space])
              (target ++ space :: version) after (by simp [hq])
              (by simp [hfirst])
              (by simp only [List.length_append, List.length_cons,
                    List.length_nil]
                  omega)
              (by simp [hnot, cut_eq_none_iff.mp hversion,
                    question_ne_space])
          rw [hindex, if_pos (by decide), Queue.getDataToString_text
            (name ++ [space]) target
            (space :: version ++ after) (by simp [hq]) (by omega)
            (by simp [hfirst]), orRaise_ok]
      | some parts =>
          obtain ⟨before, rest⟩ := parts
          obtain ⟨rfl, hbefore⟩ := cut_eq_some_iff.mp hversion
          rw [List.length_append, List.length_cons] at hend
          have hindex :
              Queue.findCharIn q question (firstSpace + 1) lineEnd =
                (name ++ [space]).length +
                  (target ++ space :: before).length :=
            Queue.findCharIn_found (name ++ [space])
              (target ++ space :: before) rest after (by simp [hq])
              (by simp [hfirst])
              (by simp only [List.length_append, List.length_cons,
                    List.length_nil]
                  omega) (by simp [hnot, hbefore, question_ne_space])
          rw [List.length_append, List.length_singleton, List.length_append,
            List.length_cons] at hindex
          rw [hindex, if_neg (by omega), Queue.getDataToString_text
            (name ++ [space]) (target ++ space :: before)
            (question :: rest ++ after) (by simp [hq])
            (by simp only [List.length_append, List.length_cons]
                omega) (by simp [hfirst])]
          rw [orRaise_ok]
          congr 1
          funext url
          -- the `?` lies behind the second space, so the length of the query
          -- comes out negative
          rw [Queue.getDataToString_neg (by omega) (by omega) (by omega),
            orRaise_error]

/-- On a complete line, `parseRequestLine` reads the text of the line and, when
it accepts, drops the line. -/
theorem parseRequestLine_eq (c : HttpConn) {line rest : Bytes}
    (hqueue : c.queue = line ++ cr :: lf :: rest) (hline : cr ∉ line) :
    parseRequestLine c =
      onAccept (readRequestLine line c.request)
        (fun req => { c with request := req })
        fun req => (⟨rest, .checkHeader, req⟩, .accept) := by
  have hend : Queue.findChar c.queue cr 0 = line.length := by
    rw [hqueue, Queue.findChar_line hline]
  simp only [parseRequestLine, readRequestLine, hend]
  cases hfirst : cut space line with
  | none =>
      have hspace : Queue.findCharIn c.queue space 0 line.length = -1 :=
        Queue.findCharIn_absent [] line (cr :: lf :: rest)
          (by simpa using hqueue) (by simp) (by simp)
          (cut_eq_none_iff.mp hfirst)
      rw [hspace, if_pos (by decide), onAccept_of_ne _ _ (by simp)]
  | some parts =>
      obtain ⟨name, tail⟩ := parts
      obtain ⟨rfl, hname⟩ := cut_eq_some_iff.mp hfirst
      have hspace : Queue.findCharIn c.queue space 0
          (name ++ space :: tail).length = ([] : Bytes).length + name.length :=
        Queue.findCharIn_found [] name tail (cr :: lf :: rest)
          (by simpa using hqueue) (by simp)
          (by simp only [List.length_append, List.length_cons,
                List.length_nil]
              omega) hname
      rw [List.length_nil, Nat.cast_zero, Int.zero_add] at hspace
      rw [hspace, if_neg (by omega), Queue.getDataToString_text [] name
        (space :: tail ++ cr :: lf :: rest) (by simpa using hqueue) rfl
        (by simp), orRaise_ok]
      by_cases hunknow : convertStringToMethod name = .unknow
      · simp only [if_pos hunknow]
        rw [onAccept_of_ne _ _ (by simp)]
      · have hnonempty : 1 ≤ name.length := by
          rcases name with _ | ⟨head, more⟩
          · exact absurd convertStringToMethod_nil hunknow
          · simp
        simp only [if_neg hunknow]
        cases hsecond : cut space tail with
        | none =>
            have hspace : Queue.findCharIn c.queue space (name.length + 1)
                (name ++ space :: tail).length = -1 :=
              Queue.findCharIn_absent (name ++ [space]) tail
                (cr :: lf :: rest) (by simp [hqueue]) (by simp)
                (by simp only [List.length_append, List.length_cons,
                      List.length_nil]
                    omega) (cut_eq_none_iff.mp hsecond)
            rw [hspace, if_pos (by decide), onAccept_of_ne _ _ (by simp)]
        | some parts =>
            obtain ⟨target, version⟩ := parts
            obtain ⟨rfl, htarget⟩ := cut_eq_some_iff.mp hsecond
            have hspace : Queue.findCharIn c.queue space (name.length + 1)
                (name ++ space :: (target ++ space :: version)).length =
                  (name ++ [space]).length + target.length :=
              Queue.findCharIn_found (name ++ [space]) target version
                (cr :: lf :: rest) (by simp [hqueue]) (by simp)
                (by simp only [List.length_append, List.length_cons,
                      List.length_nil]
                    omega) htarget
            have hfront : ((name ++ [space]).length : Int) =
                name.length + 1 := by simp
            have hthree : 3 ≤
                (name ++ space :: (target ++ space :: version)).length := by
              simp only [List.length_append, List.length_cons]
              omega
            rw [hfront] at hspace
            rw [hspace, if_neg (by omega), parseTarget_eq name target version
              (cr :: lf :: rest) hqueue rfl (by simp)
              (by simp only [List.length_append, List.length_cons]
                  omega), hqueue, parseVersion_eq _ _ hthree]
            simp only []
            generalize readTarget target version _ = result
            obtain ⟨req, verdict⟩ := result
            cases verdict with
            | reject => rfl
            | raise cause => rfl
            | accept =>
                rw [onAccept_accept, onAccept_accept, orRaise_ok]
                cases lineVersion (name ++ space :: (target ++
                    space :: version)) with
                | none => rfl
                | some _ =>
                    simp only []
                    rw [Queue.moveLow_text (name ++ space ::
                      (target ++ space :: version) ++ [cr, lf]) rest
                      (by simp)
                      (by simp only [List.length_append, List.length_cons,
                            List.length_nil]
                          omega), onAccept_accept]

/-! ### The text of a header line -/

theorem parseHeaderLine_blank (c : HttpConn) {rest : Bytes}
    (hqueue : c.queue = cr :: lf :: rest) :
    parseHeaderLine c =
      ({ c with queue := rest, state := .checkContent }, .accept) := by
  have hend : Queue.findChar c.queue cr 0 = 0 := by
    have hnil : cr ∉ ([] : Bytes) := by simp
    simpa [hqueue] using Queue.findChar_line hnil (lf :: rest)
  have hcolon : Queue.findCharIn c.queue colon 0 0 = -1 :=
    Queue.findCharIn_absent [] [] c.queue rfl rfl rfl (by simp)
  simp only [parseHeaderLine, hend, hcolon]
  have hmove : Queue.moveLow c.queue 2 = (rest, true) :=
    Queue.moveLow_text [cr, lf] rest hqueue rfl
  rw [if_pos (by decide), if_pos trivial, hmove]

theorem parseHeaderLine_eq (c : HttpConn) {line rest : Bytes}
    (hqueue : c.queue = line ++ cr :: lf :: rest) (hline : cr ∉ line)
    (hne : line ≠ []) :
    parseHeaderLine c =
      onAccept (readHeaderLine line c.request)
        (fun req => { c with request := req })
        fun req => ({ c with queue := rest, request := req }, .accept) := by
  have hend : Queue.findChar c.queue cr 0 = line.length := by
    rw [hqueue, Queue.findChar_line hline]
  simp only [parseHeaderLine, readHeaderLine, hend]
  cases hcut : cut colon line with
  | none =>
      have hcolon : Queue.findCharIn c.queue colon 0 line.length = -1 :=
        Queue.findCharIn_absent [] line (cr :: lf :: rest)
          (by simpa using hqueue) (by simp) (by simp)
          (cut_eq_none_iff.mp hcut)
      have hpos : ¬ (line.length : Int) = 0 := by simpa using hne
      rw [hcolon, if_pos (by decide), if_neg hpos,
        onAccept_of_ne _ _ (by simp)]
  | some parts =>
      obtain ⟨key, val⟩ := parts
      obtain ⟨rfl, hkey⟩ := cut_eq_some_iff.mp hcut
      have hcolon : Queue.findCharIn c.queue colon 0
          (key ++ colon :: val).length = ([] : Bytes).length + key.length :=
        Queue.findCharIn_found [] key val (cr :: lf :: rest)
          (by simpa using hqueue) (by simp)
          (by simp only [List.length_append, List.length_cons,
                List.length_nil]
              omega) hkey
      rw [List.length_nil, Nat.cast_zero, Int.zero_add] at hcolon
      rw [hcolon, if_neg (by omega), Queue.getDataToString_text [] key
        (colon :: val ++ cr :: lf :: rest) (by simpa using hqueue) rfl
        (by simp), orRaise_ok]
      by_cases hunknow : convertStringToHeader key = .unknow
      · simp only [if_pos hunknow]
        rw [onAccept_of_ne _ _ (by simp)]
      · simp only [if_neg hunknow]
        rw [Queue.getDataToString_text (key ++ [colon]) val
          (cr :: lf :: rest) (by simp [hqueue])
          (by simp only [List.length_append, List.length_cons]
              omega) (by simp), orRaise_ok, onAccept_accept,
          Queue.moveLow_text (key ++ colon :: val ++ [cr, lf]) rest
          (by simp [hqueue])
          (by simp only [List.length_append, List.length_cons,
                List.length_nil]
              omega)]

/-- `parseContent` on the bytes of the content. -/
def readContent (content : Bytes) (req : HttpRequest) :
    HttpRequest × Verdict :=
  if { req with content := content }.isForm then
    parsePairs (content.splitOn ampersand) { req with content := content }
  else ({ req with content := content }, .accept)

/-- The content does not decide whether there is a form. -/
theorem HttpRequest.isForm_content (req : HttpRequest) (content : Bytes) :
    ({ req with content := content } : HttpRequest).isForm = req.isForm := by
  have hheader (name : Bytes) :
      ({ req with content := content } : HttpRequest).getHeader name =
        req.getHeader name := rfl
  rw [HttpRequest.isForm, HttpRequest.isForm, hheader]

theorem parseContent_eq (c : HttpConn) :
    parseContent c =
      onAccept (readContent c.queue c.request)
        (fun req => { c with request := req })
        fun req => (⟨[], .checkRequestLine, req⟩, .accept) := by
  have hall : Queue.getDataToString c.queue c.queue.length 0 =
      .ok c.queue :=
    Queue.getDataToString_text [] c.queue [] (by simp) rfl rfl
  have hmove : Queue.moveLow c.queue c.queue.length = ([], true) :=
    Queue.moveLow_text c.queue [] (by simp) rfl
  rw [parseContent, hall, orRaise_ok, hmove]
  rfl

/-! ### The line test -/

/-- What `parseLine` can see: no carriage return with a byte behind it, a
complete line, or a stray carriage return. -/
inductive LineView (q : Bytes) : HttpLineState → Prop where
  | more (hmore : cr ∉ q.dropLast) : LineView q .lineMore
  | ok (line rest : Bytes) (hq : q = line ++ cr :: lf :: rest)
      (hline : cr ∉ line) : LineView q .lineOk
  | error (line rest : Bytes) (byte : UInt8)
      (hq : q = line ++ cr :: byte :: rest) (hline : cr ∉ line)
      (hbyte : byte ≠ lf) : LineView q .lineError

theorem parseLine_pair {line : Bytes} (hline : cr ∉ line) (byte : UInt8)
    (rest : Bytes) :
    parseLine (line ++ cr :: byte :: rest) =
      .ok (if byte = lf then .lineOk else .lineError) := by
  have hpos := Queue.findChar_line hline (byte :: rest)
  have hbyte : Queue.byteAt (line ++ cr :: byte :: rest) (line.length + 1) =
      .ok byte := by
    have hindex : ((line.length : Int) + 1).toNat = line.length + 1 := by
      omega
    rw [Queue.byteAt, if_neg (by omega), hindex,
      List.getElem?_append_right (by omega)]
    simp
  simp only [parseLine, hpos, hbyte]
  rw [if_neg (by omega), if_neg (by
    simp only [List.length_append, List.length_cons]
    omega)]
  rfl

theorem parseLine_last {line : Bytes} (hline : cr ∉ line) :
    parseLine (line ++ [cr]) = .ok .lineMore := by
  have hpos := Queue.findChar_line hline []
  simp only [parseLine, hpos]
  rw [if_neg (by omega), if_pos (by simp)]

theorem parseLine_absent {q : Bytes} (habsent : cr ∉ q) :
    parseLine q = .ok .lineMore := by
  simp only [parseLine, Queue.findChar_eq_neg_one habsent]
  rfl

/-- `parseLine` always returns, and what it returns is what it saw. -/
theorem parseLine_view (q : Bytes) :
    ∃ state, parseLine q = .ok state ∧ LineView q state := by
  by_cases hmem : cr ∈ q
  · obtain ⟨line, rest, rfl, hline⟩ := List.eq_append_cons_of_mem hmem
    cases rest with
    | nil =>
        exact ⟨_, parseLine_last hline, .more (by simpa using hline)⟩
    | cons byte rest =>
        by_cases hbyte : byte = lf
        · subst hbyte
          exact ⟨_, parseLine_pair hline lf rest, .ok line rest rfl hline⟩
        · refine ⟨_, parseLine_pair hline byte rest, ?_⟩
          rw [if_neg hbyte]
          exact .error line rest byte rfl hline hbyte
  · have hmore : cr ∉ q.dropLast := fun h => hmem (List.mem_of_mem_dropLast h)
    exact ⟨_, parseLine_absent hmem, .more hmore⟩

end Sone

end LinuxTest
