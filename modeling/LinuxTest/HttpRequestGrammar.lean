/-
The grammar of a request line against what `parseRequestLine` tests.  The code
looks at positions: the first two spaces, the first `?`, the last byte and the
third from the end.
-/
import LinuxTest.HttpParams

namespace LinuxTest

namespace Sone

/-- The first two spaces of a line and what stands around them. -/
structure SplitLine (line name target version : Bytes) : Prop where
  line_eq : line = name ++ space :: (target ++ space :: version)
  name_space : space ∉ name
  target_space : space ∉ target

/-- One of the seven methods, ignoring the case of ASCII letters. -/
def KnownMethod (name : Bytes) : Prop :=
  ∃ entry ∈ methods, entry.1.map toLower = name.map toLower

/-- Every piece of the query of a target has a `=`. -/
def PairedTarget (target : Bytes) : Prop :=
  ∀ path query, cut question target = some (path, query) → AllPairs query

/-- `METHOD SP target SP version`. -/
structure Grammatical (line name target version : Bytes)
    (kind : HttpVersion) : Prop
    extends SplitLine line name target version where
  version_space : space ∉ version
  method : KnownMethod name
  named : namedVersion version = some kind
  escapes : wellFormed target
  paired : PairedTarget target

/-- What the code tests: the method up to a NUL, the ends of escapes, a `?`
that is not behind the second space, the pieces of the query, and the last
bytes of the line. -/
structure Passes (line name target version : Bytes) : Prop
    extends SplitLine line name target version where
  method : convertStringToMethod name ≠ .unknow
  safe : SafeTarget target version
  paired : PairedTarget target
  ending : (lineVersion line).isSome

/-- The line passes the tests although its method name has a NUL, an escape of
its target has no two digits, or the text behind the second space is no known
version. -/
def Loose (line : Bytes) : Prop :=
  ∃ name target version, Passes line name target version ∧
    (0 ∈ name ∨ wellFormed target = false ∨ namedVersion version = none)

/-- The parts of a target that are decoded: its path, its query, and the two
sides of each piece of the query. -/
def decodedParts (target : Bytes) : List Bytes :=
  match cut question target with
  | none => [target]
  | some (path, query) =>
      path :: query :: (query.splitOn ampersand).flatMap fun piece =>
        [pieceKey piece, pieceValue piece]

/-- A text of `2 ^ 31` bytes or more, whose first bytes, as many as an `int`
keeps of its length, end inside an escape. -/
def CutByInt (text : Bytes) : Prop :=
  2 ^ 31 ≤ text.length ∧ CutEscape (text.take (asInt text.length).toNat)

/-- The line is grammatical, but some part of its target is that long. -/
def Overlong (line : Bytes) : Prop :=
  ∃ name target version kind, Grammatical line name target version kind ∧
    ∃ part ∈ decodedParts target, CutByInt part

/-- The call accepts exactly the grammatical lines, and then stores the version
that the line names. -/
def FollowsGrammar (c : HttpConn) (line : Bytes) : Prop :=
  ((parseRequestLine c).2 = .accept ↔
    ∃ name target version kind, Grammatical line name target version kind) ∧
  ∀ name target version kind, Grammatical line name target version kind →
    (parseRequestLine c).2 = .accept →
    (parseRequestLine c).1.request.version = kind

section Split

variable {line name target version : Bytes}

theorem SplitLine.cut_line (hsplit : SplitLine line name target version) :
    cut space line = some (name, target ++ space :: version) := by
  rw [hsplit.line_eq, cut_append hsplit.name_space]

theorem SplitLine.cut_rest (hsplit : SplitLine line name target version) :
    cut space (target ++ space :: version) = some (target, version) :=
  cut_append hsplit.target_space version

/-- A line has its first two spaces at one place only. -/
theorem SplitLine.unique {name' target' version' : Bytes}
    (hsplit : SplitLine line name target version)
    (hother : SplitLine line name' target' version') :
    name = name' ∧ target = target' ∧ version = version' := by
  obtain ⟨hname, hrest⟩ := append_sep_inj hsplit.name_space hother.name_space
    (hsplit.line_eq.symm.trans hother.line_eq)
  obtain ⟨htarget, hversion⟩ :=
    append_sep_inj hsplit.target_space hother.target_space hrest
  exact ⟨hname, htarget, hversion⟩

end Split

/-! ### The tests of the code -/

/-- Decoding and going on accepts when the text can be decoded and what follows
accepts. -/
theorem orRaise_urlDecode_accept_iff {T : Type} (text : Bytes) (stored : T)
    (next : Bytes → T × Verdict) (later : Prop)
    (hnext : ∀ decoded, (next decoded).2 = .accept ↔ later) :
    (orRaise (urlDecode text) stored next).2 = .accept ↔
      Decodable text ∧ later := by
  by_cases htext : Decodable text
  · obtain ⟨decoded, hdecoded⟩ := urlDecode_of_decodable htext
    rw [hdecoded, orRaise_ok, hnext]
    simp [htext]
  · rw [urlDecode_of_not_decodable htext, orRaise_error]
    simp [htext]

theorem parsePairs_verdict_iff (pieces : List Bytes) (req : HttpRequest) :
    (parsePairs pieces req).2 = .accept ↔
      SafePairs pieces ∧ ∀ piece ∈ pieces, equals ∈ piece := by
  induction pieces generalizing req with
  | nil => simp [parsePairs, SafePairs]
  | cons piece rest ih =>
      rw [parsePairs, SafePairs, List.forall_mem_cons]
      by_cases hequals : equals ∈ piece
      · rw [cut_equals hequals]
        simp only []
        rw [orRaise_urlDecode_accept_iff _ _ _ _ fun _ =>
          orRaise_urlDecode_accept_iff _ _ _ _ fun _ => ih _]
        simp [hequals, and_assoc]
      · rw [cut_eq_none_iff.mpr hequals]
        simp [hequals]

theorem readTarget_verdict_iff (target version : Bytes) (req : HttpRequest) :
    (readTarget target version req).2 = .accept ↔
      SafeTarget target version ∧ PairedTarget target := by
  rw [readTarget, SafeTarget, PairedTarget]
  cases cut question target with
  | some parts =>
      obtain ⟨path, query⟩ := parts
      simp only []
      rw [orRaise_urlDecode_accept_iff _ _ _ _ fun _ =>
        orRaise_urlDecode_accept_iff _ _ _ _ fun _ =>
          parsePairs_verdict_iff _ _]
      simp [AllPairs, and_assoc]
  | none =>
      cases hversion : cut question version with
      | none =>
          simp only []
          rw [orRaise_urlDecode_accept_iff _ _ _ True (by simp)]
          simp [cut_eq_none_iff.mp hversion]
      | some parts =>
          obtain ⟨before, rest⟩ := parts
          have hmem : question ∈ version := by
            simp [(cut_eq_some_iff.mp hversion).1]
          simp only []
          rw [orRaise_urlDecode_accept_iff _ _ _ False (by simp)]
          simp [hmem]

theorem SplitLine.verdict_iff {line name target version : Bytes}
    (hsplit : SplitLine line name target version) (req : HttpRequest) :
    (readRequestLine line req).2 = .accept ↔
      Passes line name target version := by
  have htarget := readTarget_verdict_iff target version
    { req with method := convertStringToMethod name }
  rw [readRequestLine, hsplit.cut_line]
  by_cases hunknow : convertStringToMethod name = .unknow
  · simp only [hunknow, if_true, reduceCtorEq, false_iff]
    exact fun hpasses => hpasses.method hunknow
  · simp only [hunknow, if_false, hsplit.cut_rest]
    generalize hread : readTarget target version
      { req with method := convertStringToMethod name } = result at htarget
    have hpasses : Passes line name target version ↔
        result.2 = .accept ∧ (lineVersion line).isSome := by
      rw [htarget]
      exact ⟨fun h => ⟨⟨h.safe, h.paired⟩, h.ending⟩,
        fun h => ⟨hsplit, hunknow, h.1.1, h.1.2, h.2⟩⟩
    rw [hpasses]
    obtain ⟨stored, verdict⟩ := result
    cases verdict with
    | accept => cases lineVersion line <;> simp [onAccept]
    | reject => simp [onAccept]
    | raise cause => simp [onAccept]

/-- A line with fewer than two spaces is rejected. -/
theorem exists_split_of_accept {line : Bytes} {req : HttpRequest}
    (haccept : (readRequestLine line req).2 = .accept) :
    ∃ name target version, SplitLine line name target version := by
  rw [readRequestLine] at haccept
  cases hline : cut space line with
  | none => simp [hline] at haccept
  | some parts =>
      obtain ⟨name, rest⟩ := parts
      cases hrest : cut space rest with
      | none =>
          simp only [hline, hrest] at haccept
          split at haccept <;> cases haccept
      | some parts =>
          obtain ⟨target, version⟩ := parts
          obtain ⟨hlineEq, hname⟩ := cut_eq_some_iff.mp hline
          obtain ⟨rfl, htarget⟩ := cut_eq_some_iff.mp hrest
          exact ⟨name, target, version, hlineEq, hname, htarget⟩

/-! ### The grammar -/

theorem toLower_eq_zero_iff (byte : UInt8) : toLower byte = 0 ↔ byte = 0 := by
  simp only [toLower]
  split
  · case isTrue hupper =>
      have hne : byte ≠ 0 := by
        rintro rfl
        exact absurd hupper.1 (by decide)
      simp only [hne, iff_false]
      intro hzero
      have hnat := congrArg UInt8.toNat hzero
      rw [UInt8.le_iff_toNat_le, UInt8.le_iff_toNat_le] at hupper
      simp only [UInt8.toNat_add, UInt8.reduceToNat] at hnat hupper
      omega
  · exact Iff.rfl

/-- A name in the table has no NUL, and one without is found up to case. -/
theorem knownMethod_iff (name : Bytes) :
    KnownMethod name ↔ convertStringToMethod name ≠ .unknow ∧ 0 ∉ name := by
  have htable : ∀ entry ∈ methods, 0 ∉ entry.1 ∧ entry.2 ≠ .unknow := by
    decide
  constructor
  · rintro ⟨entry, hentry, hlower⟩
    have hzero : 0 ∉ name := by
      intro hmem
      have hlowered : 0 ∈ entry.1.map toLower := by
        rw [hlower]
        exact List.mem_map.mpr ⟨0, hmem, by decide⟩
      obtain ⟨byte, hbyte, hbyteZero⟩ := List.mem_map.mp hlowered
      rw [toLower_eq_zero_iff] at hbyteZero
      exact (htable entry hentry).1 (hbyteZero ▸ hbyte)
    refine ⟨?_, hzero⟩
    have hrank : caseKey entry.1 = caseKey name :=
      (caseKey_eq_iff (htable entry hentry).1 hzero).mpr hlower
    rw [convertStringToMethod]
    cases hfind : methods.find? fun entry => caseKey entry.1 = caseKey name with
    | none =>
        rw [List.find?_eq_none] at hfind
        exact absurd hrank (by simpa using hfind entry hentry)
    | some found =>
        exact (htable found (List.mem_of_find?_eq_some hfind)).2
  · rintro ⟨hknown, hzero⟩
    rw [convertStringToMethod] at hknown
    cases hfind : methods.find? fun entry => caseKey entry.1 = caseKey name with
    | none => simp [hfind] at hknown
    | some found =>
        have hmem := List.mem_of_find?_eq_some hfind
        have hrank : caseKey found.1 = caseKey name := by
          simpa using List.find?_some hfind
        exact ⟨found, hmem,
          (caseKey_eq_iff (htable found hmem).1 hzero).mp hrank⟩

theorem space_notMem_of_named {version : Bytes} {kind : HttpVersion}
    (hnamed : namedVersion version = some kind) : space ∉ version := by
  rcases namedVersion_eq_some_iff.mp hnamed with ⟨rfl, _⟩ | ⟨rfl, _⟩
  · decide
  · decide

theorem SplitLine.lineVersion_eq {line name target version : Bytes}
    {kind : HttpVersion} (hsplit : SplitLine line name target version)
    (hnamed : namedVersion version = some kind) :
    lineVersion line = some kind := by
  have hfront : line = (name ++ space :: (target ++ [space])) ++ version := by
    simp [hsplit.line_eq]
  rw [hfront, lineVersion_append _ hnamed]

/-- A grammatical line whose parts can be decoded passes. -/
theorem Grammatical.passes {line name target version : Bytes}
    {kind : HttpVersion} (hline : Grammatical line name target version kind)
    (hsafe : SafeTarget target version) :
    Passes line name target version :=
  ⟨hline.toSplitLine, ((knownMethod_iff name).mp hline.method).1, hsafe,
    hline.paired, by simp [hline.toSplitLine.lineVersion_eq hline.named]⟩

theorem escapesComplete_of_wellFormed {text : Bytes} (htext : wellFormed text) :
    escapesComplete text = true := by
  fun_induction wellFormed text with
  | case1 => rfl
  | case2 first last rest ih =>
      simp only [Bool.and_eq_true] at htext
      rw [escapesComplete_escape]
      exact ih htext.2
  | case3 rest hrest => cases htext
  | case4 c rest hc ih =>
      rw [escapesComplete_literal hc]
      exact ih htext

/-- The escapes of a text can only be cut by its length. -/
theorem decodable_iff_of_wellFormed {text : Bytes} (htext : wellFormed text) :
    Decodable text ↔ ¬ CutByInt text := by
  obtain hshort | hlong := Nat.lt_or_ge text.length (2 ^ 31)
  · refine iff_of_true ?_ fun hcut => absurd hcut.1 (Nat.not_le.mpr hshort)
    rw [Decodable, intBound_of_lt hshort, List.take_length]
    exact escapesComplete_of_wellFormed htext
  · rw [Decodable, intBound, if_neg (Nat.not_lt.mpr hlong), CutByInt,
      and_iff_right hlong, ← escapesComplete_eq_false_iff,
      Bool.not_eq_false]

theorem wellFormed_sides {piece : Bytes} (hpiece : wellFormed piece)
    (hequals : equals ∈ piece) :
    wellFormed (pieceKey piece) ∧ wellFormed (pieceValue piece) := by
  obtain ⟨heq, _⟩ := cut_eq_some_iff.mp (cut_equals hequals)
  rwa [heq, wellFormed_append_cons (by decide) (by decide),
    Bool.and_eq_true] at hpiece

theorem Grammatical.wellFormed_part {line name target version part : Bytes}
    {kind : HttpVersion} (hline : Grammatical line name target version kind)
    (hpart : part ∈ decodedParts target) : wellFormed part := by
  have hescapes := hline.escapes
  have hpaired := hline.paired
  rw [decodedParts] at hpart
  cases hcut : cut question target with
  | none =>
      rw [hcut] at hpart
      rwa [List.mem_singleton.mp hpart]
  | some parts =>
      obtain ⟨path, query⟩ := parts
      obtain ⟨rfl, _⟩ := cut_eq_some_iff.mp hcut
      rw [wellFormed_append_cons (by decide) (by decide),
        Bool.and_eq_true] at hescapes
      simp only [hcut, List.mem_cons, List.mem_flatMap] at hpart
      obtain rfl | rfl | ⟨piece, hpiece, hside⟩ := hpart
      · exact hescapes.1
      · exact hescapes.2
      · have hwhole := wellFormed_of_mem_splitOn (by decide) (by decide)
          hescapes.2 hpiece
        obtain ⟨hkey, hvalue⟩ :=
          wellFormed_sides hwhole (hpaired path query hcut piece hpiece)
        simp only [List.not_mem_nil, or_false] at hside
        rcases hside with rfl | rfl
        · exact hkey
        · exact hvalue

theorem safePairs_iff {pieces : List Bytes}
    (hpieces : ∀ piece ∈ pieces, equals ∈ piece) :
    SafePairs pieces ↔ ∀ part ∈ pieces.flatMap fun piece =>
      [pieceKey piece, pieceValue piece], Decodable part := by
  induction pieces with
  | nil => simp [SafePairs]
  | cons piece rest ih =>
      rw [List.forall_mem_cons] at hpieces
      rw [SafePairs, cut_equals hpieces.1]
      simp only [ih hpieces.2, List.flatMap_cons, List.forall_mem_append]
      simp [and_assoc]

/-- A grammatical target is decoded where no part is cut by its length. -/
theorem Grammatical.safeTarget_iff {line name target version : Bytes}
    {kind : HttpVersion} (hline : Grammatical line name target version kind) :
    SafeTarget target version ↔
      ¬ ∃ part ∈ decodedParts target, CutByInt part := by
  have hparts : (¬ ∃ part ∈ decodedParts target, CutByInt part) ↔
      ∀ part ∈ decodedParts target, Decodable part := by
    simp only [not_exists, not_and]
    exact forall₂_congr fun part hpart =>
      (decodable_iff_of_wellFormed (hline.wellFormed_part hpart)).symm
  rw [hparts, SafeTarget, decodedParts]
  cases hcut : cut question target with
  | none =>
      have hversion : question ∉ version := by
        rcases namedVersion_eq_some_iff.mp hline.named with ⟨rfl, _⟩ | ⟨rfl, _⟩
        · decide
        · decide
      simp [hversion]
  | some parts =>
      obtain ⟨path, query⟩ := parts
      simp only [List.forall_mem_cons]
      rw [safePairs_iff (hline.paired path query hcut)]

/-- A line that passes and is not loose is grammatical. -/
theorem Passes.grammatical {line name target version : Bytes}
    (hpasses : Passes line name target version) (htight : ¬ Loose line) :
    ∃ kind, Grammatical line name target version kind := by
  have hclean : ¬ (0 ∈ name ∨ wellFormed target = false ∨
      namedVersion version = none) :=
    fun hloose => htight ⟨name, target, version, hpasses, hloose⟩
  push Not at hclean
  obtain ⟨hzero, hescapes, hnamed⟩ := hclean
  obtain ⟨kind, hkind⟩ := Option.ne_none_iff_exists'.mp hnamed
  exact ⟨kind, hpasses.toSplitLine, space_notMem_of_named hkind,
    (knownMethod_iff name).mpr ⟨hpasses.method, hzero⟩, hkind,
    by simpa using hescapes, hpasses.paired⟩

/-- An accepted line leaves the version that its end gives. -/
theorem readRequestLine_version {line : Bytes} {req : HttpRequest}
    (haccept : (readRequestLine line req).2 = .accept) :
    lineVersion line = some (readRequestLine line req).1.version := by
  have hresult : readRequestLine line req =
      ((readRequestLine line req).1, .accept) := Prod.ext rfl haccept
  obtain ⟨text, htext, hstore⟩ :=
    (readRequestLine_accept_iff line req _).mp hresult
  rw [requestLineText_lineVersion htext, hstore]
  rfl

/-- Which lines the code takes as the grammar does. -/
theorem parseRequestLine_followsGrammar_iff (c : HttpConn) {line rest : Bytes}
    (hqueue : c.queue = line ++ cr :: lf :: rest) (hline : cr ∉ line) :
    FollowsGrammar c line ↔ ¬ Loose line ∧ ¬ Overlong line := by
  have hverdict : (parseRequestLine c).2 =
      (readRequestLine line c.request).2 := by
    rw [parseRequestLine_eq c hqueue hline, onAccept_verdict]
  rw [FollowsGrammar, hverdict]
  constructor
  · rintro ⟨haccept, _⟩
    constructor
    · rintro ⟨name, target, version, hpasses, hloose⟩
      obtain ⟨name', target', version', kind, hgrammar⟩ :=
        haccept.mp ((hpasses.toSplitLine.verdict_iff _).mpr hpasses)
      obtain ⟨rfl, rfl, rfl⟩ :=
        hpasses.toSplitLine.unique hgrammar.toSplitLine
      rcases hloose with hzero | hescapes | hnamed
      · exact ((knownMethod_iff name).mp hgrammar.method).2 hzero
      · exact absurd hgrammar.escapes (by simp [hescapes])
      · exact absurd hgrammar.named (by simp [hnamed])
    · rintro ⟨name, target, version, kind, hgrammar, hcut⟩
      have hpasses := (hgrammar.toSplitLine.verdict_iff _).mp
        (haccept.mpr ⟨name, target, version, kind, hgrammar⟩)
      exact hgrammar.safeTarget_iff.mp hpasses.safe hcut
  · rintro ⟨htight, hshort⟩
    refine ⟨⟨?_, ?_⟩, ?_⟩
    · intro haccept
      obtain ⟨name, target, version, hsplit⟩ := exists_split_of_accept haccept
      obtain ⟨kind, hgrammar⟩ :=
        ((hsplit.verdict_iff _).mp haccept).grammatical htight
      exact ⟨name, target, version, kind, hgrammar⟩
    · rintro ⟨name, target, version, kind, hgrammar⟩
      have hsafe : SafeTarget target version :=
        hgrammar.safeTarget_iff.mpr fun hcut =>
          hshort ⟨name, target, version, kind, hgrammar, hcut⟩
      exact (hgrammar.toSplitLine.verdict_iff _).mpr (hgrammar.passes hsafe)
    · intro name target version kind hgrammar haccept
      have hstored := readRequestLine_version haccept
      rw [hgrammar.toSplitLine.lineVersion_eq hgrammar.named] at hstored
      have hresult : readRequestLine line c.request =
          ((readRequestLine line c.request).1, .accept) :=
        Prod.ext rfl haccept
      rw [parseRequestLine_eq c hqueue hline, hresult, onAccept_accept]
      exact (Option.some.inj hstored).symm

theorem plain_get_followsGrammar :
    FollowsGrammar (lineConn (lit "GET / HTTP/1.1\r\n"))
      (lit "GET / HTTP/1.1") := by
  have hqueue : (lineConn (lit "GET / HTTP/1.1\r\n")).queue =
      lit "GET / HTTP/1.1" ++ [cr, lf] := by decide
  have hsplit : SplitLine (lit "GET / HTTP/1.1") (lit "GET") (lit "/")
      (lit "HTTP/1.1") := ⟨by decide, by decide, by decide⟩
  rw [parseRequestLine_followsGrammar_iff _ hqueue (by decide)]
  constructor
  · rintro ⟨name, target, version, hpasses, hloose⟩
    obtain ⟨rfl, rfl, rfl⟩ := hsplit.unique hpasses.toSplitLine
    revert hloose
    decide +kernel
  · rintro ⟨name, target, version, kind, hgrammar, part, hpart, hlong, _⟩
    obtain ⟨_, rfl, rfl⟩ := hsplit.unique hgrammar.toSplitLine
    have hquestion : cut question (lit "/") = none := by decide
    rw [decodedParts, hquestion, List.mem_singleton] at hpart
    have hone : (lit "/").length = 1 := by decide
    rw [hpart, hone] at hlong
    omega

/-- `HTTP/2.1` ends in `1` and is taken for `HTTP/1.1`. -/
theorem other_version_is_accepted :
    (parseRequestLine (lineConn (lit "GET / HTTP/2.1\r\n"))).2 = .accept ∧
      (∀ name target version kind,
        ¬ Grammatical (lit "GET / HTTP/2.1") name target version kind) ∧
      ¬ FollowsGrammar (lineConn (lit "GET / HTTP/2.1\r\n"))
        (lit "GET / HTTP/2.1") := by
  have haccept : (parseRequestLine
      (lineConn (lit "GET / HTTP/2.1\r\n"))).2 = .accept := by
    decide +kernel
  have hnone : ∀ name target version kind,
      ¬ Grammatical (lit "GET / HTTP/2.1") name target version kind := by
    intro name target version kind hgrammar
    have hsplit : SplitLine (lit "GET / HTTP/2.1") (lit "GET") (lit "/")
        (lit "HTTP/2.1") := ⟨by decide, by decide, by decide⟩
    obtain ⟨_, _, rfl⟩ := hsplit.unique hgrammar.toSplitLine
    exact absurd hgrammar.named (by
      have hunnamed : namedVersion (lit "HTTP/2.1") = none := by decide
      simp [hunnamed])
  refine ⟨haccept, hnone, ?_⟩
  rintro ⟨hfollows, _⟩
  obtain ⟨name, target, version, kind, hgrammar⟩ := hfollows.mp haccept
  exact hnone name target version kind hgrammar

end Sone

end LinuxTest
