/-
The two integer conversions the C++ sources rely on: to a 32-bit `int` and to
a 64-bit `size_t`.  Values are kept as `Int` and `Nat`; a conversion is applied
exactly where the source performs one.
-/
import Mathlib.Tactic.Ring
import Mathlib.Tactic.Linarith

namespace LinuxTest

/-- Conversion to a 32-bit signed `int` (two's complement wrap-around). -/
def asInt (value : Int) : Int :=
  value.bmod (2 ^ 32)

/-- Conversion to a 64-bit unsigned `size_t`. -/
def asSize (value : Int) : Nat :=
  (value % 2 ^ 64).toNat

/-- `(int)n` for a `size_t` used as the bound of a loop that counts from zero:
a negative bound lets the loop do nothing. -/
def intBound (n : Nat) : Nat :=
  if n < 2 ^ 31 then n else (asInt n).toNat

/-- `i++` on an `int` that is not negative; the last one has no successor. -/
def incr (i : Nat) : Option Nat :=
  if i + 1 < 2 ^ 31 then some (i + 1) else none

theorem incr_of_lt {i : Nat} (h : i + 1 < 2 ^ 31) : incr i = some (i + 1) :=
  if_pos h

theorem incr_of_ge {i : Nat} (h : 2 ^ 31 ≤ i + 1) : incr i = none :=
  if_neg (Nat.not_lt.mpr h)

theorem incr_eq_some {i next : Nat} (h : incr i = some next) :
    next = i + 1 ∧ i + 1 < 2 ^ 31 := by
  rw [incr] at h
  split at h
  · rename_i hlt
    exact ⟨(Option.some.inj h).symm, hlt⟩
  · cases h

theorem asInt_of_range {value : Int} (hlow : -2 ^ 31 ≤ value)
    (hhigh : value < 2 ^ 31) : asInt value = value := by
  rw [asInt, Int.bmod_def]
  split <;> omega

theorem asInt_lt (value : Int) : asInt value < 2 ^ 31 := by
  rw [asInt, Int.bmod_def]
  split <;> omega

theorem asInt_of_lt (value : Int) (hlow : 0 ≤ value)
    (hhigh : value < 2 ^ 31) : asInt value = value :=
  asInt_of_range (by omega) hhigh

theorem asSize_of_nonneg (value : Int) (hlow : 0 ≤ value)
    (hhigh : value < 2 ^ 64) : (asSize value : Int) = value := by
  rw [asSize]
  omega

@[simp] theorem asSize_natCast {n : Nat} (hn : n < 2 ^ 64) :
    asSize (n : Int) = n := by
  rw [asSize]
  omega

/-- A negative value becomes a huge `size_t`. -/
theorem asSize_of_neg (value : Int) (hlow : -2 ^ 63 ≤ value)
    (hneg : value < 0) : (asSize value : Int) = 2 ^ 64 + value := by
  rw [asSize]
  omega

end LinuxTest
