/-
Byte strings: literals, the cut at the first occurrence of a byte, and the
order of `strcasecmp`.
-/
import Mathlib.Data.List.Basic
import Mathlib.Data.List.TakeWhile
import Mathlib.Tactic.Common

namespace LinuxTest

universe u

variable {V : Type u} [DecidableEq V]

abbrev Bytes := List UInt8

/-- The bytes of an ASCII literal. -/
def lit (s : String) : Bytes :=
  s.toList.map fun c => UInt8.ofNat c.toNat

/-- The parts before and after the first `sep`. -/
def cut (sep : V) : List V → Option (List V × List V)
  | [] => none
  | head :: rest =>
      if head = sep then some ([], rest)
      else (cut sep rest).map fun parts => (head :: parts.1, parts.2)

theorem cut_eq_none_iff {sep : V} {text : List V} :
    cut sep text = none ↔ sep ∉ text := by
  induction text with
  | nil => simp [cut]
  | cons head rest ih =>
      by_cases hhead : head = sep
      · simp [cut, hhead]
      · simp [cut, hhead, ih, Ne.symm hhead]

theorem cut_eq_some_iff {sep : V} {text before after : List V} :
    cut sep text = some (before, after) ↔
      text = before ++ sep :: after ∧ sep ∉ before := by
  induction text generalizing before with
  | nil => simp [cut]
  | cons head rest ih =>
      by_cases hhead : head = sep
      · subst hhead
        cases before with
        | nil => simp [cut, eq_comm]
        | cons first more =>
            simp only [cut, ↓reduceIte, Option.some.injEq, Prod.mk.injEq,
              List.cons_append, List.cons.injEq, List.mem_cons, not_or]
            constructor
            · rintro ⟨hnil, _⟩
              cases hnil
            · rintro ⟨⟨hfirst, _⟩, hne, _⟩
              exact absurd hfirst hne
      · cases before with
        | nil =>
            simp only [cut, hhead, ↓reduceIte, Option.map_eq_some_iff,
              Prod.mk.injEq, List.nil_append, List.cons.injEq, false_and]
            constructor
            · rintro ⟨_, _, hnil, _⟩
              cases hnil
            · rintro ⟨⟨⟩, _⟩
        | cons first more =>
            simp only [cut, hhead, ↓reduceIte, Option.map_eq_some_iff,
              Prod.mk.injEq, List.cons_append, List.cons.injEq, List.mem_cons,
              not_or, Prod.exists]
            constructor
            · rintro ⟨a, b, hcut, ⟨rfl, rfl⟩, rfl⟩
              obtain ⟨hrest, hnot⟩ := ih.mp hcut
              exact ⟨⟨rfl, hrest⟩, Ne.symm hhead, hnot⟩
            · rintro ⟨⟨rfl, hrest⟩, _, hnot⟩
              exact ⟨more, after, ih.mpr ⟨hrest, hnot⟩, ⟨rfl, rfl⟩, rfl⟩

theorem cut_append {sep : V} {before : List V} (hbefore : sep ∉ before)
    (after : List V) :
    cut sep (before ++ sep :: after) = some (before, after) :=
  cut_eq_some_iff.mpr ⟨rfl, hbefore⟩

/-- A text is cut at its first `sep` in one way only. -/
theorem append_sep_inj {sep : V} {before other after rest : List V}
    (hbefore : sep ∉ before) (hother : sep ∉ other)
    (heq : before ++ sep :: after = other ++ sep :: rest) :
    before = other ∧ after = rest := by
  have hcut := cut_append hbefore after
  rw [heq, cut_append hother rest] at hcut
  cases hcut
  exact ⟨rfl, rfl⟩

/-- The position of the first `sep` is the length of the part before it. -/
theorem idxOf_append_cons {sep : V} {before : List V} (hbefore : sep ∉ before)
    (after : List V) : (before ++ sep :: after).idxOf sep = before.length := by
  rw [List.idxOf_append_of_notMem hbefore, List.idxOf_cons_self,
    Nat.add_zero]

def isDigit (byte : UInt8) : Bool :=
  48 ≤ byte ∧ byte ≤ 57

/-- `tolower` in the C locale. -/
def toLower (byte : UInt8) : UInt8 :=
  if 65 ≤ byte ∧ byte ≤ 90 then byte + 32 else byte

/-- The part of a string before its first NUL, which is what `c_str()` shows to
a C function. -/
def cString (text : Bytes) : Bytes :=
  text.takeWhile (· ≠ 0)

theorem zero_notMem_cString (text : Bytes) : 0 ∉ cString text := by
  intro hmem
  simpa using List.mem_takeWhile_imp hmem

theorem cString_eq_self {text : Bytes} (htext : 0 ∉ text) :
    cString text = text := by
  rw [cString, List.takeWhile_eq_self_iff]
  intro byte hbyte
  have hne : byte ≠ 0 := fun hzero => htext (hzero ▸ hbyte)
  simpa using hne

/-- `strcasecmp(a, b) < 0` compares these lexicographically. -/
def caseKey (text : Bytes) : List Nat :=
  (cString text).map fun byte => (toLower byte).toNat

end LinuxTest
