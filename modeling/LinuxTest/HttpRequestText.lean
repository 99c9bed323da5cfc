/-
What an accepted request says, as data of its own.  A request line and a header
line are read without looking at the request object; accepting one writes what
it says over what the object held before.
-/
import LinuxTest.HttpParserStream

namespace LinuxTest

namespace Sone

/-! ### Parameters -/

/-- One `key=value` piece, both sides decoded. -/
def decodePair (piece : Bytes) : Option (Bytes × Bytes) :=
  (cut equals piece).bind fun parts =>
    (urlDecode parts.1).toOption.bind fun key =>
      (urlDecode parts.2).toOption.map fun val => (key, val)

def decodePairs : List Bytes → Option (List (Bytes × Bytes))
  | [] => some []
  | piece :: rest => (decodePair piece).bind fun pair =>
      (decodePairs rest).map (pair :: ·)

/-- The request with the parameters set, in this order. -/
def HttpRequest.setParams (req : HttpRequest)
    (pairs : List (Bytes × Bytes)) : HttpRequest :=
  pairs.foldl (fun req pair => req.setParam pair.1 pair.2) req

theorem orRaise_accept_iff {V T : Type} {value : Except Raise V} {stored : T}
    {next : V → T × Verdict} {result : T} :
    orRaise value stored next = (result, .accept) ↔
      ∃ v, value = .ok v ∧ next v = (result, .accept) := by
  cases value with
  | error cause => simp [orRaise]
  | ok v => simp [orRaise]

theorem onAccept_accept_iff {T S : Type} {result : T × Verdict}
    {other : T → S} {next : T → S × Verdict} {last : S} :
    onAccept result other next = (last, .accept) ↔
      ∃ stored, result = (stored, .accept) ∧
        next stored = (last, .accept) := by
  obtain ⟨stored, verdict⟩ := result
  cases verdict <;> simp [onAccept]

theorem toOption_eq_some_iff {V : Type} {value : Except Raise V} {v : V} :
    value.toOption = some v ↔ value = .ok v := by
  cases value <;> simp [Except.toOption]

theorem parsePairs_accept_iff (pieces : List Bytes) (req next : HttpRequest) :
    parsePairs pieces req = (next, .accept) ↔
      ∃ pairs, decodePairs pieces = some pairs ∧
        next = req.setParams pairs := by
  induction pieces generalizing req with
  | nil => simp [parsePairs, decodePairs, HttpRequest.setParams, eq_comm]
  | cons piece rest ih =>
      rw [parsePairs]
      simp only [decodePairs, decodePair]
      cases cut equals piece with
      | none => simp
      | some parts =>
          obtain ⟨key, val⟩ := parts
          simp only [orRaise_accept_iff, ih, Option.bind_some,
            Option.bind_eq_some_iff, Option.map_eq_some_iff,
            toOption_eq_some_iff]
          constructor
          · rintro ⟨dkey, hkey, dval, hval, pairs, hpairs, rfl⟩
            exact ⟨(dkey, dval) :: pairs,
              ⟨(dkey, dval), ⟨dkey, hkey, dval, hval, rfl⟩, pairs, hpairs,
                rfl⟩, rfl⟩
          · rintro ⟨_, ⟨_, ⟨dkey, hkey, dval, hval, rfl⟩, pairs, hpairs,
              rfl⟩, rfl⟩
            exact ⟨dkey, hkey, dval, hval, pairs, hpairs, rfl⟩

/-! ### Request lines -/

/-- What an accepted request line says.  Without a `?` it says nothing about
the query. -/
structure RequestLine where
  method : HttpMethod
  url : Bytes
  query : Option Bytes
  pairs : List (Bytes × Bytes)
  version : HttpVersion
deriving DecidableEq

/-- The request object after the line. -/
def RequestLine.store (line : RequestLine) (req : HttpRequest) :
    HttpRequest :=
  { ({ req with
      method := line.method
      url := line.url
      queryString := line.query.getD req.queryString } :
        HttpRequest).setParams line.pairs with version := line.version }

/-- The URL, query string and parameters of a target. -/
def targetText (target version : Bytes) :
    Option (Bytes × Option Bytes × List (Bytes × Bytes)) :=
  match cut question target with
  | some (path, query) =>
      (urlDecode path).toOption.bind fun url =>
        (urlDecode query).toOption.bind fun decoded =>
          (decodePairs (query.splitOn ampersand)).map fun pairs =>
            (url, some decoded, pairs)
  | none =>
      if question ∈ version then none
      else (urlDecode target).toOption.map fun url => (url, none, [])

def requestLineText (line : Bytes) : Option RequestLine :=
  (cut space line).bind fun first =>
    (cut space first.2).bind fun second =>
      if convertStringToMethod first.1 = .unknow then none
      else (targetText second.1 second.2).bind fun target =>
        (lineVersion line).map fun version =>
          ⟨convertStringToMethod first.1, target.1, target.2.1, target.2.2,
            version⟩

theorem readTarget_accept_iff (target version : Bytes)
    (req next : HttpRequest) :
    readTarget target version req = (next, .accept) ↔
      ∃ url query pairs,
        targetText target version = some (url, query, pairs) ∧
        next = ({ req with
          url := url
          queryString := query.getD req.queryString } :
            HttpRequest).setParams pairs := by
  rw [readTarget, targetText]
  cases cut question target with
  | some parts =>
      obtain ⟨path, rest⟩ := parts
      simp only [orRaise_accept_iff, parsePairs_accept_iff,
        Option.bind_eq_some_iff, Option.map_eq_some_iff,
        toOption_eq_some_iff, Prod.mk.injEq]
      constructor
      · rintro ⟨url, hurl, decoded, hdecoded, pairs, hpairs, rfl⟩
        exact ⟨url, some decoded, pairs, ⟨url, hurl, decoded, hdecoded,
          pairs, hpairs, rfl, rfl, rfl⟩, rfl⟩
      · rintro ⟨_, _, _, ⟨url, hurl, decoded, hdecoded, pairs, hpairs, rfl,
          rfl, rfl⟩, rfl⟩
        exact ⟨url, hurl, decoded, hdecoded, pairs, hpairs, rfl⟩
  | none =>
      cases hversion : cut question version with
      | none =>
          have hnot := cut_eq_none_iff.mp hversion
          simp only [orRaise_accept_iff, if_neg hnot, Option.map_eq_some_iff,
            toOption_eq_some_iff, Prod.mk.injEq, and_true]
          constructor
          · rintro ⟨url, hurl, rfl⟩
            exact ⟨url, none, [], ⟨url, hurl, rfl, rfl, rfl⟩, rfl⟩
          · rintro ⟨_, _, _, ⟨url, hurl, rfl, rfl, rfl⟩, rfl⟩
            exact ⟨url, hurl, rfl⟩
      | some parts =>
          have hmem : question ∈ version := by
            simp [(cut_eq_some_iff.mp hversion).1]
          simp only [orRaise_accept_iff, if_pos hmem]
          simp

/-- `parseRequestLine` accepts the lines that say something, and stores what
they say. -/
theorem readRequestLine_accept_iff (line : Bytes) (req next : HttpRequest) :
    readRequestLine line req = (next, .accept) ↔
      ∃ text, requestLineText line = some text ∧ next = text.store req := by
  rw [readRequestLine, requestLineText]
  cases cut space line with
  | none => simp
  | some first =>
      obtain ⟨name, rest⟩ := first
      by_cases hunknow : convertStringToMethod name = .unknow
      · simp [hunknow]
      · simp only [hunknow, if_false, Option.bind_some]
        cases cut space rest with
        | none => simp
        | some second =>
            obtain ⟨target, version⟩ := second
            simp only [onAccept_accept_iff, readTarget_accept_iff,
              Option.bind_some, Option.bind_eq_some_iff]
            cases lineVersion line with
            | none => simp
            | some kind =>
                simp only [Prod.mk.injEq, and_true, Option.map_some,
                  Option.some.injEq]
                constructor
                · rintro ⟨_, ⟨url, query, pairs, htarget, rfl⟩, rfl⟩
                  exact ⟨_, ⟨_, htarget, rfl⟩, rfl⟩
                · rintro ⟨_, ⟨⟨url, query, pairs⟩, htarget, rfl⟩, rfl⟩
                  exact ⟨_, ⟨url, query, pairs, htarget, rfl⟩, rfl⟩

/-! ### Header lines -/

/-- The header and the value that an accepted header line gives. -/
def headerLineText (line : Bytes) : Option (HttpHeader × Bytes) :=
  (cut colon line).bind fun parts =>
    if convertStringToHeader parts.1 = .unknow then none
    else some (convertStringToHeader parts.1,
      if parts.2.head? = some space then parts.2.tail else parts.2)

theorem readHeaderLine_accept_iff (line : Bytes) (req next : HttpRequest) :
    readHeaderLine line req = (next, .accept) ↔
      ∃ header val, headerLineText line = some (header, val) ∧
        next = req.setHeader (convertHeaderToString header) val := by
  rw [readHeaderLine, headerLineText]
  cases cut colon line with
  | none => simp
  | some parts =>
      obtain ⟨key, val⟩ := parts
      by_cases hunknow : convertStringToHeader key = .unknow
      · simp [hunknow]
      · simp only [hunknow, if_false, Option.bind_some, Option.some.injEq,
          Prod.mk.injEq, and_true]
        constructor
        · rintro rfl
          exact ⟨_, _, ⟨rfl, rfl⟩, rfl⟩
        · rintro ⟨_, _, ⟨rfl, rfl⟩, rfl⟩
          rfl

theorem colon_notMem_convertHeaderToString (header : HttpHeader) :
    colon ∉ convertHeaderToString header := by
  revert header
  apply forall_header
  decide +kernel

/-- A header of the table, written under its own name, is read back. -/
theorem headerLineText_own {header : HttpHeader} (hknown : header ≠ .unknow)
    (val : Bytes) :
    headerLineText (convertHeaderToString header ++ colon :: space :: val) =
      some (header, val) := by
  have hconvert : convertStringToHeader (convertHeaderToString header) =
      header := by
    rw [convertStringToHeader, findHeader_own hknown, Option.getD_some]
  rw [headerLineText, cut_append (colon_notMem_convertHeaderToString header),
    Option.bind_some, hconvert, if_neg hknown, List.head?_cons,
    if_pos rfl, List.tail_cons]

theorem headerLineText_known {line val : Bytes} {header : HttpHeader}
    (htext : headerLineText line = some (header, val)) :
    header ≠ .unknow := by
  rw [headerLineText, Option.bind_eq_some_iff] at htext
  obtain ⟨parts, _, hparts⟩ := htext
  by_cases hunknow : convertStringToHeader parts.1 = .unknow
  · simp [hunknow] at hparts
  · simp only [if_neg hunknow, Option.some.injEq, Prod.mk.injEq] at hparts
    exact hparts.1 ▸ hunknow

theorem lineVersion_known {line : Bytes} {version : HttpVersion}
    (hversion : lineVersion line = some version) : version ≠ .unknow := by
  rw [lineVersion] at hversion
  split at hversion
  · cases hversion
    decide
  · split at hversion
    · cases hversion
      decide
    · cases hversion

/-- The version that a text names. -/
def namedVersion (text : Bytes) : Option HttpVersion :=
  if text = lit "HTTP/1.1" then some .http11
  else if text = lit "HTTP/1.0" then some .http10
  else none

theorem namedVersion_eq_some_iff {text : Bytes} {version : HttpVersion} :
    namedVersion text = some version ↔
      (text = lit "HTTP/1.1" ∧ version = .http11) ∨
        (text = lit "HTTP/1.0" ∧ version = .http10) := by
  have hne : lit "HTTP/1.0" ≠ lit "HTTP/1.1" := by decide
  rw [namedVersion]
  by_cases hone : text = lit "HTTP/1.1"
  · simp [hone, hne.symm, eq_comm]
  · by_cases hzero : text = lit "HTTP/1.0"
    · simp [hzero, hne, eq_comm]
    · simp [hone, hzero]

/-- A line that ends in the name of a version is taken to name it. -/
theorem lineVersion_append (front : Bytes) {text : Bytes}
    {version : HttpVersion} (htext : namedVersion text = some version) :
    lineVersion (front ++ text) = some version := by
  rcases namedVersion_eq_some_iff.mp htext with ⟨rfl, rfl⟩ | ⟨rfl, rfl⟩
  · simp [lineVersion, lit]
  · simp [lineVersion, lit]

theorem requestLineText_lineVersion {line : Bytes} {text : RequestLine}
    (htext : requestLineText line = some text) :
    lineVersion line = some text.version := by
  simp only [requestLineText, Option.bind_eq_some_iff] at htext
  obtain ⟨first, _, second, _, htext⟩ := htext
  split at htext
  · cases htext
  · simp only [Option.bind_eq_some_iff, Option.map_eq_some_iff] at htext
    obtain ⟨target, _, version, hversion, rfl⟩ := htext
    exact hversion

theorem requestLineText_version {line : Bytes} {text : RequestLine}
    (htext : requestLineText line = some text) :
    text.version ≠ .unknow :=
  lineVersion_known (requestLineText_lineVersion htext)

/-! ### Fields that a write leaves alone -/

theorem HttpRequest.setHeader_frame (req : HttpRequest) (key val : Bytes) :
    req.setHeader key val =
      { req with headers := (req.setHeader key val).headers } := by
  rw [HttpRequest.setHeader]
  split <;> rfl

/-- Setting parameters assigns to the map and to nothing else. -/
theorem HttpRequest.setParams_eq (req : HttpRequest)
    (pairs : List (Bytes × Bytes)) :
    req.setParams pairs =
      { req with params := req.params.insertAll pairs } := by
  induction pairs generalizing req with
  | nil => rfl
  | cons pair rest ih =>
      rw [setParams, List.foldl_cons, ← setParams, ih]
      rfl

end Sone

end LinuxTest
