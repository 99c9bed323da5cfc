/-
Percent-encoding of byte strings: the value of a hexadecimal digit of either
case, the encodings of a byte string, and the places where a reader of a text
stands between two tokens.
-/
import LinuxTest.ByteString

namespace LinuxTest

/-- The sign that starts an escape. -/
def escapeSign : UInt8 := 37

/-- The value of a hexadecimal digit. -/
def hexValue (c : UInt8) : Option Nat :=
  if 48 ≤ c ∧ c ≤ 57 then some (c.toNat - 48)
  else if 97 ≤ c ∧ c ≤ 102 then some (c.toNat - 87)
  else if 65 ≤ c ∧ c ≤ 70 then some (c.toNat - 55)
  else none

/-- Each byte is written as itself, if it is not the sign, or as the sign and
two digits. -/
inductive Encodes : Bytes → Bytes → Prop where
  | nil : Encodes [] []
  | literal (byte : UInt8) {e s : Bytes} (hbyte : byte ≠ escapeSign)
      (hrest : Encodes e s) : Encodes (byte :: e) (byte :: s)
  | escape (byte first last : UInt8) {high low : Nat} {e s : Bytes}
      (hfirst : hexValue first = some high) (hlast : hexValue last = some low)
      (hbyte : byte.toNat = high * 16 + low) (hrest : Encodes e s) :
      Encodes (escapeSign :: first :: last :: e) (byte :: s)

/-- Every escape has its two digits. -/
def wellFormed : Bytes → Bool
  | [] => true
  | c :: rest =>
      if c = escapeSign then
        match rest with
        | first :: last :: rest =>
            (hexValue first).isSome && (hexValue last).isSome &&
              wellFormed rest
        | _ => false
      else wellFormed rest

/-- `Boundary text suffix`: a reader of `text` that takes an escape or a
literal byte at a time comes to stand in front of `suffix`. -/
inductive Boundary : Bytes → Bytes → Prop where
  | here (text : Bytes) : Boundary text text
  | literal {byte : UInt8} {rest suffix : Bytes} (hbyte : byte ≠ escapeSign)
      (hrest : Boundary rest suffix) : Boundary (byte :: rest) suffix
  | escape {first last : UInt8} {rest suffix : Bytes}
      (hrest : Boundary rest suffix) :
      Boundary (escapeSign :: first :: last :: rest) suffix

/-- The reader meets a sign with fewer than two bytes behind it. -/
def CutEscape (text : Bytes) : Prop :=
  ∃ behind : Bytes, Boundary text (escapeSign :: behind) ∧ behind.length < 2

theorem hexValue_lt {c : UInt8} {value : Nat}
    (hvalue : hexValue c = some value) : value < 16 := by
  simp only [hexValue, UInt8.le_iff_toNat_le, UInt8.reduceToNat] at hvalue
  split at hvalue
  · cases hvalue
    omega
  · split at hvalue
    · cases hvalue
      omega
    · split at hvalue
      · cases hvalue
        omega
      · cases hvalue

theorem wellFormed_literal {c : UInt8} (hc : c ≠ escapeSign) (rest : Bytes) :
    wellFormed (c :: rest) = wellFormed rest := by
  rw [wellFormed.eq_def]
  simp only [if_neg hc]

theorem wellFormed_escape (first last : UInt8) (rest : Bytes) :
    wellFormed (escapeSign :: first :: last :: rest) =
      ((hexValue first).isSome && (hexValue last).isSome &&
        wellFormed rest) := by
  rw [wellFormed.eq_def]
  simp only [if_true]

/-- The well-formed texts are the encodings. -/
theorem wellFormed_iff_encodes (text : Bytes) :
    wellFormed text ↔ ∃ s, Encodes text s := by
  constructor
  · intro htext
    fun_induction wellFormed text with
    | case1 => exact ⟨[], .nil⟩
    | case2 first last rest ih =>
        simp only [Bool.and_eq_true, Option.isSome_iff_exists] at htext
        obtain ⟨⟨⟨high, hhigh⟩, low, hlow⟩, hrest⟩ := htext
        obtain ⟨s, hs⟩ := ih hrest
        have hbound : high * 16 + low < 256 := by
          have := hexValue_lt hhigh
          have := hexValue_lt hlow
          omega
        exact ⟨_, .escape (UInt8.ofNat (high * 16 + low)) first last hhigh
          hlow (by simpa using hbound) hs⟩
    | case3 => cases htext
    | case4 c rest hc ih =>
        obtain ⟨s, hs⟩ := ih htext
        exact ⟨c :: s, .literal c hc hs⟩
  · rintro ⟨s, hs⟩
    induction hs with
    | nil => rfl
    | literal byte hbyte _ ih => rw [wellFormed_literal hbyte, ih]
    | escape byte first last hfirst hlast _ _ ih =>
        simp [wellFormed_escape, hfirst, hlast, ih]

/-- A byte that is neither the sign nor a digit ends no escape early: what
stands on its two sides is well-formed by itself. -/
theorem wellFormed_append_cons {sep : UInt8} (hsign : sep ≠ escapeSign)
    (hdigit : hexValue sep = none) (before after : Bytes) :
    wellFormed (before ++ sep :: after) =
      (wellFormed before && wellFormed after) := by
  fun_induction wellFormed before with
  | case1 => simp [wellFormed_literal hsign]
  | case2 first last rest ih =>
      simp only [List.cons_append, wellFormed_escape, ih, Bool.and_assoc]
  | case3 rest hshort =>
      -- the separator falls on a place where a digit is needed
      rcases rest with _ | ⟨first, _ | ⟨last, more⟩⟩
      · rcases after with _ | ⟨last, more⟩
        · rfl
        · simp [wellFormed_escape, hdigit]
      · simp [wellFormed_escape, hdigit]
      · exact (hshort first last more rfl).elim
  | case4 c rest hc ih =>
      rw [List.cons_append, wellFormed_literal hc, ih]

/-- The pieces between such separators are well-formed by themselves. -/
theorem wellFormed_of_mem_splitOn {sep : UInt8} (hsign : sep ≠ escapeSign)
    (hdigit : hexValue sep = none) {text : Bytes} (htext : wellFormed text)
    {piece : Bytes} (hpiece : piece ∈ text.splitOn sep) :
    wellFormed piece := by
  have hall : ∀ pieces : List Bytes,
      wellFormed ([sep].intercalate pieces) → ∀ piece ∈ pieces,
        wellFormed piece := by
    intro pieces
    induction pieces with
    | nil => simp
    | cons first rest ih =>
        rcases rest with _ | ⟨second, more⟩
        · simp
        · intro hjoined
          rw [List.intercalate_cons_cons, List.append_assoc,
            List.singleton_append, wellFormed_append_cons hsign hdigit,
            Bool.and_eq_true] at hjoined
          exact List.forall_mem_cons.mpr ⟨hjoined.1, ih hjoined.2⟩
  apply hall (text.splitOn sep) _ piece hpiece
  rw [List.intercalate_splitOn]
  exact htext

end LinuxTest
