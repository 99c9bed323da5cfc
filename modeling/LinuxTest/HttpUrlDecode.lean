/-
`URLDecode` against percent-encoding: it undoes every encoding up to the first
NUL, and throws at a cut escape.
-/
import LinuxTest.HttpParserSafety
import LinuxTest.PercentEncoding

namespace LinuxTest

namespace Sone

theorem intBound_of_lt {n : Nat} (hn : n < 2 ^ 31) : intBound n = n :=
  if_pos hn

/-- The table gives a digit its value; `'0'` gets it without an entry. -/
theorem hexMap_of_hexValue {c : UInt8} {value : Nat}
    (hvalue : hexValue c = some value) : hexMap c = value := by
  simp only [hexValue, hexMap, UInt8.le_iff_toNat_le, UInt8.reduceToNat]
    at hvalue ⊢
  by_cases hdecimal : 48 ≤ c.toNat ∧ c.toNat ≤ 57
  · rw [if_pos hdecimal, Option.some.injEq] at hvalue
    by_cases hzero : c.toNat = 48
    · rw [if_neg (by omega), if_neg (by omega), if_neg (by omega)]
      omega
    · rw [if_pos (by omega), hvalue]
  · rw [if_neg hdecimal] at hvalue
    rw [if_neg (by omega)]
    by_cases hlower : 97 ≤ c.toNat ∧ c.toNat ≤ 102
    · rw [if_pos hlower, Option.some.injEq] at hvalue
      rw [if_pos hlower, hvalue]
    · rw [if_neg hlower] at hvalue ⊢
      by_cases hupper : 65 ≤ c.toNat ∧ c.toNat ≤ 70
      · rw [if_pos hupper, Option.some.injEq] at hvalue
        rw [if_pos hupper, hvalue]
      · rw [if_neg hupper] at hvalue
        cases hvalue

/-- The loop undoes an encoding, token by token. -/
theorem urlDecodeLoop_encodes {e s : Bytes} (hencodes : Encodes e s) :
    urlDecodeLoop e = .ok s := by
  induction hencodes with
  | nil => rfl
  | literal byte hbyte _ ih =>
      rw [urlDecodeLoop_plain hbyte, ih]
      rfl
  | escape byte first last hfirst hlast hbyte _ ih =>
      have hvalue : UInt8.ofNat (hexMap first * 16 + hexMap last) = byte := by
        rw [hexMap_of_hexValue hfirst, hexMap_of_hexValue hlast, ← hbyte,
          UInt8.ofNat_toNat]
      change urlDecodeLoop (percent :: first :: last :: _) = _
      rw [urlDecodeLoop_escape, ih, hvalue]
      rfl

theorem urlDecode_encodes {e s : Bytes} (hencodes : Encodes e s)
    (hlength : e.length < 2 ^ 31) : urlDecode e = .ok (cString s) := by
  rw [urlDecode, intBound_of_lt hlength, List.take_length,
    urlDecodeLoop_encodes hencodes]
  rfl

theorem escapesComplete_literal {c : UInt8} (hc : c ≠ escapeSign)
    (rest : Bytes) : escapesComplete (c :: rest) = escapesComplete rest := by
  have hpercent : c ≠ percent := hc
  rw [escapesComplete.eq_def]
  simp only [if_neg hpercent]

theorem escapesComplete_escape (high low : UInt8) (rest : Bytes) :
    escapesComplete (escapeSign :: high :: low :: rest) =
      escapesComplete rest := by
  change escapesComplete (percent :: high :: low :: rest) = _
  rw [escapesComplete.eq_def]
  simp only [if_true]

/-- The escapes are incomplete where the reader meets a cut one. -/
theorem escapesComplete_eq_false_iff (text : Bytes) :
    escapesComplete text = false ↔ CutEscape text := by
  constructor
  · intro hcut
    fun_induction escapesComplete text with
    | case1 => cases hcut
    | case2 high low rest ih =>
        obtain ⟨behind, hboundary, hshort⟩ := ih hcut
        exact ⟨behind, .escape hboundary, hshort⟩
    | case3 rest hrest =>
        refine ⟨rest, .here _, ?_⟩
        rcases rest with _ | ⟨high, _ | ⟨low, more⟩⟩
        · exact Nat.zero_lt_two
        · exact Nat.one_lt_two
        · exact (hrest high low more rfl).elim
    | case4 c rest hc ih =>
        obtain ⟨behind, hboundary, hshort⟩ := ih hcut
        exact ⟨behind, .literal hc hboundary, hshort⟩
  · rintro ⟨behind, hboundary, hshort⟩
    generalize hsuffix : escapeSign :: behind = suffix at hboundary
    induction hboundary with
    | here =>
        subst hsuffix
        rcases behind with _ | ⟨high, _ | ⟨low, more⟩⟩
        · rfl
        · rfl
        · simp only [List.length_cons] at hshort
          omega
    | literal hbyte _ ih => rw [escapesComplete_literal hbyte, ih hsuffix]
    | escape _ ih => rw [escapesComplete_escape, ih hsuffix]

theorem urlDecode_error_iff (text : Bytes) :
    urlDecode text = .error .nullString ↔ ¬ Decodable text := by
  constructor
  · intro herror hdecodable
    obtain ⟨decoded, hok⟩ := urlDecode_of_decodable hdecodable
    rw [hok] at herror
    cases herror
  · exact urlDecode_of_not_decodable

/-- Below the range of an `int` the loop runs over the whole text. -/
theorem not_decodable_iff {text : Bytes} (hlength : text.length < 2 ^ 31) :
    ¬ Decodable text ↔ CutEscape text := by
  rw [Decodable, intBound_of_lt hlength, List.take_length,
    Bool.not_eq_true, escapesComplete_eq_false_iff]

/-- `URLDecode` gives back what was encoded, up to its first NUL; of the texts
over which its `int` index can run, it throws on those with a cut escape. -/
theorem urlDecode_spec :
    (∀ s e : Bytes, Encodes e s → e.length < 2 ^ 31 →
      urlDecode e = .ok (cString s)) ∧
    ∀ text : Bytes, text.length < 2 ^ 31 - 1 →
      (urlDecode text = .error .nullString ↔ CutEscape text) := by
  constructor
  · intro s e hencodes hlength
    exact urlDecode_encodes hencodes hlength
  · intro text hlength
    rw [urlDecode_error_iff, not_decodable_iff (by omega)]

theorem urlDecode_spec_nul_and_cut :
    urlDecode (lit "a%2f%00b") = .ok (lit "a/") ∧
      urlDecode (lit "ab%4") = .error .nullString := by
  have hencodes : Encodes (lit "a%2f%00b") [97, 47, 0, 98] :=
    .literal 97 (by decide) (.escape 47 50 102 rfl rfl rfl
      (.escape 0 48 48 rfl rfl rfl (.literal 98 (by decide) .nil)))
  have hcut : CutEscape (lit "ab%4") :=
    ⟨[52], .literal (by decide) (.literal (by decide) (.here _)),
      Nat.one_lt_two⟩
  have hlong : (lit "a%2f%00b").length < 2 ^ 31 := by
    rw [lit, List.length_map]
    decide
  have hshort : (lit "ab%4").length < 2 ^ 31 - 1 := by
    rw [lit, List.length_map]
    decide
  exact ⟨urlDecode_spec.1 _ _ hencodes hlong,
    (urlDecode_spec.2 _ hshort).mpr hcut⟩

theorem cutEscape_replicate_append (n : Nat) :
    CutEscape (List.replicate n 97 ++ [escapeSign]) := by
  refine ⟨[], ?_, Nat.zero_lt_two⟩
  induction n with
  | zero => exact .here _
  | succ n ih =>
      rw [List.replicate_succ, List.cons_append]
      exact .literal (by decide) ih

/-- Behind `2 ^ 31` bytes a cut escape is not met: the bound of the loop is
negative, and `URLDecode` returns the empty string. -/
theorem urlDecode_returns_on_long_cut_escape :
    CutEscape (List.replicate (2 ^ 31) 97 ++ [escapeSign]) ∧
      urlDecode (List.replicate (2 ^ 31) 97 ++ [escapeSign]) = .ok [] := by
  refine ⟨cutEscape_replicate_append (2 ^ 31), ?_⟩
  have hbound : intBound (2 ^ 31 + 1) = 0 := by
    rw [intBound, if_neg (by omega)]
    have hneg : asInt ((2 ^ 31 + 1 : Nat) : Int) ≤ 0 := by
      rw [asInt, Int.bmod_def]
      split <;> omega
    omega
  rw [urlDecode, List.length_append, List.length_replicate,
    List.length_singleton, hbound, List.take_zero]
  rfl

end Sone

end LinuxTest
