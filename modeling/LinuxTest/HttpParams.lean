/-
Request parameters.  The query of a request line and the body of a form are read
by two copies of one loop; both store what the pieces of the text say.
-/
import LinuxTest.HttpRequestText
import LinuxTest.HttpUrlDecode

namespace LinuxTest

namespace Sone

/-! ### What a text of parameters says -/

/-- The part of a piece before its first `=`. -/
def pieceKey (piece : Bytes) : Bytes :=
  piece.takeWhile (· ≠ equals)

/-- The part of a piece after its first `=`. -/
def pieceValue (piece : Bytes) : Bytes :=
  (piece.dropWhile (· ≠ equals)).tail

/-- `URLDecode` of a text on which it returns. -/
def decoded (text : Bytes) : Bytes :=
  (urlDecode text).toOption.getD []

/-- The key of a piece is `key`, ignoring the case of ASCII letters. -/
def names (key piece : Bytes) : Bool :=
  (decoded (pieceKey piece)).map toLower = key.map toLower

/-- The value that the last piece naming `key` gives it; none gives it the
empty string. -/
def givenParam (text key : Bytes) : Bytes :=
  match (text.splitOn ampersand).reverse.find? (names key) with
  | none => []
  | some piece => decoded (pieceValue piece)

/-- Every piece between `&` has a `=`. -/
def AllPairs (text : Bytes) : Prop :=
  ∀ piece ∈ text.splitOn ampersand, equals ∈ piece

instance (text : Bytes) : Decidable (AllPairs text) :=
  inferInstanceAs (Decidable (∀ piece ∈ text.splitOn ampersand,
    equals ∈ piece))

theorem cut_equals {piece : Bytes} (hpiece : equals ∈ piece) :
    cut equals piece = some (pieceKey piece, pieceValue piece) := by
  obtain ⟨key, value, rfl, hkey⟩ := List.eq_append_cons_of_mem hpiece
  have hall : ∀ byte ∈ key, decide (byte ≠ equals) = true := by
    intro byte hbyte
    have hne : byte ≠ equals := fun heq => hkey (heq ▸ hbyte)
    simpa using hne
  rw [cut_append hkey, pieceKey, pieceValue,
    List.takeWhile_append_of_pos hall, List.dropWhile_append_of_pos hall]
  simp

/-- A text no longer than the `int` index of `URLDecode` can run, with whole
escapes, is decoded to a text without NUL. -/
theorem urlDecode_wellFormed {text : Bytes} (htext : wellFormed text)
    (hlength : text.length < 2 ^ 31) :
    urlDecode text = .ok (decoded text) ∧ 0 ∉ decoded text := by
  obtain ⟨s, hencodes⟩ := (wellFormed_iff_encodes text).mp htext
  have hdecode := urlDecode_encodes hencodes hlength
  have hdecoded : decoded text = cString s := by
    rw [decoded, hdecode]
    rfl
  rw [hdecoded]
  exact ⟨hdecode, zero_notMem_cString s⟩

/-- The two sides of `piece` can be decoded. -/
structure ReadablePiece (piece : Bytes) : Prop where
  key : urlDecode (pieceKey piece) = .ok (decoded (pieceKey piece))
  value : urlDecode (pieceValue piece) = .ok (decoded (pieceValue piece))
  zero_notMem : 0 ∉ decoded (pieceKey piece)

theorem length_le_of_mem_splitOn {sep : UInt8} {text piece : Bytes}
    (hpiece : piece ∈ text.splitOn sep) : piece.length ≤ text.length := by
  have hall : ∀ pieces : List Bytes, ∀ piece ∈ pieces,
      piece.length ≤ ([sep].intercalate pieces).length := by
    intro pieces
    induction pieces with
    | nil => simp
    | cons first rest ih =>
        rcases rest with _ | ⟨second, more⟩
        · simp
        · simp only [List.intercalate_cons_cons, List.length_append]
          intro piece hmem
          rcases List.mem_cons.mp hmem with rfl | hrest
          · omega
          · have := ih piece hrest
            omega
  simpa [List.intercalate_splitOn] using hall (text.splitOn sep) piece hpiece

theorem readablePiece_of_mem {text piece : Bytes} (htext : wellFormed text)
    (hlength : text.length < 2 ^ 31)
    (hmem : piece ∈ text.splitOn ampersand) (hequals : equals ∈ piece) :
    ReadablePiece piece := by
  have hshort := length_le_of_mem_splitOn hmem
  have hwhole := wellFormed_of_mem_splitOn (by decide) (by decide) htext hmem
  obtain ⟨hpiece, _⟩ := cut_eq_some_iff.mp (cut_equals hequals)
  rw [hpiece, wellFormed_append_cons (by decide) (by decide),
    Bool.and_eq_true] at hwhole
  rw [hpiece, List.length_append, List.length_cons] at hshort
  obtain ⟨hkey, hzero⟩ := urlDecode_wellFormed hwhole.1 (by omega)
  obtain ⟨hvalue, _⟩ := urlDecode_wellFormed hwhole.2 (by omega)
  exact ⟨hkey, hvalue, hzero⟩

/-! ### The loop -/

/-- When every piece has a `=`, the loop stores the two sides of each. -/
theorem parsePairs_stores {pieces : List Bytes}
    (hpieces : ∀ piece ∈ pieces, equals ∈ piece ∧ ReadablePiece piece)
    (req : HttpRequest) :
    parsePairs pieces req = (req.setParams (pieces.map fun piece =>
      (decoded (pieceKey piece), decoded (pieceValue piece))), .accept) := by
  induction pieces generalizing req with
  | nil => rfl
  | cons piece rest ih =>
      rw [List.forall_mem_cons] at hpieces
      obtain ⟨⟨hequals, hkey, hvalue, _⟩, hrest⟩ := hpieces
      rw [parsePairs, cut_equals hequals]
      simp only [hkey, hvalue, orRaise_ok]
      rw [ih hrest]
      rfl

/-- When some piece has none, the loop returns false at the first such. -/
theorem parsePairs_rejects {pieces : List Bytes}
    (hpieces : ∀ piece ∈ pieces, equals ∈ piece → ReadablePiece piece)
    (hlacks : ∃ piece ∈ pieces, equals ∉ piece) (req : HttpRequest) :
    (parsePairs pieces req).2 = .reject := by
  induction pieces generalizing req with
  | nil => simp at hlacks
  | cons piece rest ih =>
      rw [List.forall_mem_cons] at hpieces
      rw [parsePairs]
      by_cases hequals : equals ∈ piece
      · obtain ⟨hkey, hvalue, _⟩ := hpieces.1 hequals
        rw [cut_equals hequals]
        simp only [hkey, hvalue, orRaise_ok]
        apply ih hpieces.2
        rcases hlacks with ⟨lacking, hmem, hnot⟩
        rcases List.mem_cons.mp hmem with rfl | hmem
        · exact absurd hequals hnot
        · exact ⟨lacking, hmem, hnot⟩
      · rw [cut_eq_none_iff.mpr hequals]

theorem caseKey_eq_iff {first last : Bytes} (hfirst : 0 ∉ first)
    (hlast : 0 ∉ last) :
    caseKey first = caseKey last ↔ first.map toLower = last.map toLower := by
  have hkey (text : Bytes) (htext : 0 ∉ text) :
      caseKey text = (text.map toLower).map UInt8.toNat := by
    rw [caseKey, cString_eq_self htext, List.map_map]
    rfl
  rw [hkey first hfirst, hkey last hlast]
  exact (List.map_injective_iff.mpr fun _ _ => UInt8.toNat_inj.mp).eq_iff

/-- Reading a parameter back gives what the last piece naming it says. -/
theorem getParam_setParams {req : HttpRequest} (hfresh : req.params = .empty)
    {text : Bytes} (htext : ∀ piece ∈ text.splitOn ampersand,
      ReadablePiece piece) {key : Bytes} (hkey : 0 ∉ key) :
    (req.setParams ((text.splitOn ampersand).map fun piece =>
      (decoded (pieceKey piece), decoded (pieceValue piece)))).getParam key =
      givenParam text key := by
  rw [HttpRequest.setParams_eq, HttpRequest.getParam, readMap]
  simp only [hfresh]
  have hgiven : ∀ piece ∈ text.splitOn ampersand,
      caseKey (decoded (pieceKey piece)) = caseKey key ↔
        names key piece = true := by
    intro piece hpiece
    rw [caseKey_eq_iff (htext piece hpiece).zero_notMem hkey]
    simp [names]
  rw [OrderedMap.find?_insertAll, OrderedMap.find?_empty, Option.or_none,
    OrderedMap.lastGiven_map hgiven, givenParam]
  cases (text.splitOn ampersand).reverse.find? (names key) with
  | none => rfl
  | some piece => rfl

/-! ### The two copies -/

/-- A query as a browser writes it. -/
structure QueryText (q : Bytes) : Prop where
  space_notMem : space ∉ q
  cr_notMem : cr ∉ q
  lf_notMem : lf ∉ q
  escapes : wellFormed q

/-- A path in front of a query; `URLDecode` throws at a cut escape. -/
structure PathText (path : Bytes) : Prop where
  space_notMem : space ∉ path
  question_notMem : question ∉ path
  cr_notMem : cr ∉ path
  escapes : ¬ CutEscape path

def getLine (path q version : Bytes) : Bytes :=
  lit "GET" ++ space :: (path ++ question :: q ++ space :: version)

theorem readRequestLine_getLine {path q version url query : Bytes}
    {kind : HttpVersion} (hpath : PathText path) (hq : QueryText q)
    (hversion : namedVersion version = some kind)
    (hurl : urlDecode path = .ok url) (hquery : urlDecode q = .ok query)
    (req : HttpRequest) :
    readRequestLine (getLine path q version) req =
      onAccept (parsePairs (q.splitOn ampersand) { req with
          method := .get, url := url, queryString := query })
        id fun req => ({ req with version := kind }, .accept) := by
  have htarget : space ∉ path ++ question :: q := by
    simp [hpath.space_notMem, hq.space_notMem, question_ne_space.symm]
  have hmethod : convertStringToMethod (lit "GET") = .get := by decide
  have hfront : getLine path q version =
      (lit "GET" ++ space :: (path ++ question :: q ++ [space])) ++
        version := by
    simp [getLine]
  rw [readRequestLine, getLine, cut_append (by decide)]
  simp only [hmethod, reduceCtorEq, if_false]
  rw [cut_append htarget, ← getLine, hfront, lineVersion_append _ hversion]
  simp only [readTarget]
  rw [cut_append hpath.question_notMem]
  simp only [hurl, hquery, orRaise_ok]

/-- The loop accepts a text when every piece has a `=`, and then every
parameter reads as the text says; otherwise it returns false. -/
theorem parsePairs_text {q : Bytes} (hq : wellFormed q)
    (hlength : q.length < 2 ^ 31) (req : HttpRequest)
    (hfresh : req.params = .empty) :
    (AllPairs q → ∃ next, parsePairs (q.splitOn ampersand) req =
      (next, .accept) ∧ ∀ key, 0 ∉ key → next.getParam key =
        givenParam q key) ∧
    (¬ AllPairs q → (parsePairs (q.splitOn ampersand) req).2 = .reject) := by
  have hreadable : ∀ piece ∈ q.splitOn ampersand, equals ∈ piece →
      ReadablePiece piece :=
    fun piece hmem => readablePiece_of_mem hq hlength hmem
  constructor
  · intro hall
    have hpieces : ∀ piece ∈ q.splitOn ampersand,
        equals ∈ piece ∧ ReadablePiece piece :=
      fun piece hmem => ⟨hall piece hmem, hreadable piece hmem
        (hall piece hmem)⟩
    refine ⟨_, parsePairs_stores hpieces req, fun key hkey => ?_⟩
    exact getParam_setParams hfresh (fun piece hmem => (hpieces piece hmem).2)
      hkey
  · intro hnot
    rw [AllPairs] at hnot
    push Not at hnot
    exact parsePairs_rejects hreadable hnot req

/-- What only goes on after `true` and then returns `true` keeps the verdict. -/
theorem onAccept_verdict {T S : Type} (result : T × Verdict) (other : T → S)
    (next : T → S) :
    (onAccept result other fun stored => (next stored, .accept)).2 =
      result.2 := by
  obtain ⟨stored, verdict⟩ := result
  cases verdict <;> rfl

theorem readContent_form {req : HttpRequest} (hform : req.isForm)
    (content : Bytes) :
    readContent content req = parsePairs (content.splitOn ampersand)
      { req with content := content } := by
  rw [readContent, HttpRequest.isForm_content, if_pos hform]

theorem Buffer.Valid.length_lt {b : Buffer} (hb : b.Valid) :
    b.data.length < 2 ^ 31 := by
  have hlength := hb.dataLen_eq
  have := hb.low_nonneg
  have := hb.high_lt
  omega

/-- One text, as the query of a request line and as the body of a form: both
copies of the loop accept it when every piece has a `=`, reject it otherwise,
and give every parameter the same value. -/
theorem query_and_form_agree {q path version rest : Bytes}
    (hq : QueryText q) (hpath : PathText path)
    (hversion : (namedVersion version).isSome) {input : Buffer}
    (hinput : input.Valid)
    (hline : input.data = getLine path q version ++ cr :: lf :: rest)
    {get post : HttpConn} (hget : get.request = .init)
    (hgetQueue : get.queue = input.data) (hpost : post.request.isForm)
    (hpostFresh : post.request.params = .empty) (hpostQueue : post.queue = q) :
    (parseRequestLine get).2 = (parseContent post).2 ∧
      ((parseRequestLine get).2 = .accept ↔ AllPairs q) ∧
      (AllPairs q → ∀ key, 0 ∉ key →
        (parseRequestLine get).1.request.getParam key = givenParam q key ∧
        (parseContent post).1.request.getParam key = givenParam q key) := by
  obtain ⟨kind, hkind⟩ := Option.isSome_iff_exists.mp hversion
  have hlength := hinput.length_lt
  simp only [hline, getLine, List.length_append, List.length_cons] at hlength
  have hcr : cr ∉ getLine path q version := by
    rcases namedVersion_eq_some_iff.mp hkind with ⟨rfl, _⟩ | ⟨rfl, _⟩ <;>
      simp [getLine, hpath.cr_notMem, hq.cr_notMem] <;> decide
  obtain ⟨url, hurl⟩ : ∃ url, urlDecode path = .ok url := by
    apply urlDecode_of_decodable
    have hshort : path.length < 2 ^ 31 := by omega
    exact not_not.mp fun hnot =>
      hpath.escapes ((not_decodable_iff hshort).mp hnot)
  have hshort : q.length < 2 ^ 31 := by omega
  obtain ⟨hquery, _⟩ := urlDecode_wellFormed hq.escapes hshort
  have hgetFresh : get.request.params = .empty := by
    rw [hget]
    rfl
  rw [parseRequestLine_eq get (hgetQueue.trans hline) hcr,
    readRequestLine_getLine hpath hq hkind hurl hquery, parseContent_eq,
    hpostQueue, readContent_form hpost]
  obtain ⟨hgetStores, hgetRejects⟩ :=
    parsePairs_text hq.escapes hshort { get.request with
      method := .get, url := url, queryString := decoded q } hgetFresh
  obtain ⟨hpostStores, hpostRejects⟩ :=
    parsePairs_text hq.escapes hshort { post.request with content := q }
      hpostFresh
  simp only [onAccept_verdict]
  by_cases hall : AllPairs q
  · obtain ⟨getNext, hgetNext, hgetParam⟩ := hgetStores hall
    obtain ⟨postNext, hpostNext, hpostParam⟩ := hpostStores hall
    simp only [hgetNext, hpostNext, onAccept_accept, hall, true_and,
      forall_const]
    exact fun key hkey => ⟨hgetParam key hkey, hpostParam key hkey⟩
  · simp [hgetRejects hall, hpostRejects hall, hall]

/-- A connection in front of a request line, with a request just made. -/
def lineConn (text : Bytes) : HttpConn := ⟨text, .checkRequestLine, .init⟩

/-- A connection in front of the body of a form. -/
def formConn (body : Bytes) : HttpConn :=
  ⟨body, .checkContent, { HttpRequest.init.setHeader (lit "Content-Type")
    formType with method := .post }⟩

theorem HttpRequest.setHeader_params (req : HttpRequest) (key val : Bytes) :
    (req.setHeader key val).params = req.params := by
  rw [HttpRequest.setHeader_frame]

theorem formConn_fresh (body : Bytes) :
    (formConn body).request.params = .empty := by
  simp only [formConn, HttpRequest.setHeader_params]
  rfl

theorem query_and_form_agree_repeated_key :
    (parseRequestLine (lineConn (lit "GET /a?x=1&X=%32 HTTP/1.1\r\n"))).2 =
        .accept ∧
      (parseContent (formConn (lit "x=1&X=%32"))).1.request.getParam
        (lit "x") = givenParam (lit "x=1&X=%32") (lit "x") := by
  have hq : QueryText (lit "x=1&X=%32") :=
    ⟨by decide, by decide, by decide, by decide +kernel⟩
  have hpath : PathText (lit "/a") := by
    refine ⟨by decide, by decide, by decide, ?_⟩
    rw [← escapesComplete_eq_false_iff]
    decide +kernel
  have hlength : (lit "GET /a?x=1&X=%32 HTTP/1.1\r\n").length = 27 := by
    decide
  have hhigh : Buffer.init.high = 0 := rfl
  have hsize : Buffer.init.size = 4096 := rfl
  have hcapacity : Buffer.init.capacity = 4096 := rfl
  obtain ⟨input, _, hextends⟩ := Buffer.append_extends Buffer.init_valid
    (fun _ => 0) (lit "GET /a?x=1&X=%32 HTTP/1.1\r\n") (by omega)
    (Or.inr ⟨by omega, Or.inl (by omega)⟩)
  have hdata : input.data = lit "GET /a?x=1&X=%32 HTTP/1.1\r\n" :=
    hextends.data_eq
  have hline : lit "GET /a?x=1&X=%32 HTTP/1.1\r\n" =
      getLine (lit "/a") (lit "x=1&X=%32") (lit "HTTP/1.1") ++ [cr, lf] := by
    decide
  have hget : (lineConn (lit "GET /a?x=1&X=%32 HTTP/1.1\r\n")).request =
      .init := rfl
  have hpost : (formConn (lit "x=1&X=%32")).request.isForm := by
    decide +kernel
  obtain ⟨_, haccept, hparam⟩ := query_and_form_agree hq hpath (by decide)
    (hextends.valid Buffer.init_valid (by omega)) (hdata.trans hline) hget
    hdata.symm hpost (formConn_fresh _) rfl
  have hall : AllPairs (lit "x=1&X=%32") := by decide
  exact ⟨haccept.mpr hall, (hparam hall (lit "x") (by decide)).2⟩

/-- A cut escape in the path keeps the query from being read, where the form
is. -/
theorem cut_path_escape_stops_query :
    (parseRequestLine (lineConn (lit "GET /%?a=b HTTP/1.1\r\n"))).2 =
        .raise .nullString ∧
      (parseContent (formConn (lit "a=b"))).2 = .accept ∧
      AllPairs (lit "a=b") := by
  decide +kernel

end Sone

end LinuxTest
