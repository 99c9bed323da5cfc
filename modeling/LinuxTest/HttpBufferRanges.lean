/-
The range checks of `moveLow` and `getDataToString` over all of `size_t`.  Both
compute in 64 bits without a carry: the sum in `moveLow` and the difference in
`getDataToString` can wrap around.
-/
import LinuxTest.HttpQueue

namespace LinuxTest

namespace Sone

namespace Buffer

variable {b : Buffer} {n pos : Nat}

/-- `moveLow` takes `n` bytes from the front if there are that many, and
nothing otherwise. -/
def MoveLowExact (b : Buffer) (n : Nat) : Prop :=
  b.moveLow n =
    if (n : Int) ≤ b.high - b.low then ({ b with low := b.low + n }, true)
    else (b, false)

/-- `getDataToString` gives the `n` bytes at `pos` if they are all in the
data. -/
def GetDataExact (b : Buffer) (n pos : Nat) : Prop :=
  b.getDataToString n pos =
    if (pos : Int) + n ≤ b.high - b.low then
      some (cells b.mem (b.low + pos) n)
    else none

/-- A 64-bit sum of two that wraps around. -/
theorem asSize_of_ge (value : Int) (hlow : 2 ^ 64 ≤ value)
    (hhigh : value < 2 ^ 65) : (asSize value : Int) = value - 2 ^ 64 := by
  rw [asSize]
  omega

theorem moveLowExact_of_lt (hlow : 0 ≤ b.low) (hle : b.low ≤ b.high)
    (hhigh : b.high < 2 ^ 31) (hsum : n + b.low < 2 ^ 64) :
    b.MoveLowExact n := by
  have hleft := asSize_of_nonneg (n + b.low) (by omega) hsum
  have hright := asSize_of_nonneg b.high (by omega) (by omega)
  rw [MoveLowExact, moveLow]
  by_cases hfits : (n : Int) ≤ b.high - b.low
  · rw [if_neg (by omega), if_pos hfits,
      asInt_of_lt (b.low + n) (by omega) (by omega)]
  · rw [if_pos (by omega), if_neg hfits]

/-- A sum that wraps around comes out below `low`. -/
theorem moveLow_of_wrap (hlow : 0 ≤ b.low) (hle : b.low ≤ b.high)
    (hhigh : b.high < 2 ^ 31) (hn : n < 2 ^ 64)
    (hsum : 2 ^ 64 ≤ n + b.low) :
    b.moveLow n = ({ b with low := asInt (b.low + n) }, true) := by
  have hleft := asSize_of_ge (n + b.low) hsum (by omega)
  have hright := asSize_of_nonneg b.high (by omega) (by omega)
  exact if_neg (by omega)

theorem moveLowExact_iff (hlow : 0 ≤ b.low) (hle : b.low ≤ b.high)
    (hhigh : b.high < 2 ^ 31) (hn : n < 2 ^ 64) :
    b.MoveLowExact n ↔ n + b.low < 2 ^ 64 := by
  refine ⟨fun hexact => ?_, moveLowExact_of_lt hlow hle hhigh⟩
  by_contra hsum
  have hmove := moveLow_of_wrap hlow hle hhigh hn (by omega)
  rw [MoveLowExact, hmove, if_neg (by omega)] at hexact
  cases congrArg Prod.snd hexact

theorem getDataExact_of_le (hhigh : b.high < 2 ^ 31) (hlow : 0 ≤ b.low)
    (hpos : (pos : Int) ≤ b.dataLen) : b.GetDataExact n pos := by
  have hdata : b.dataLen = b.high - b.low := rfl
  have hroom := asSize_of_nonneg (b.dataLen - pos) (by omega) (by omega)
  rw [GetDataExact, getDataToString]
  by_cases hfits : (pos : Int) + n ≤ b.high - b.low
  · rw [if_neg (by omega), if_pos hfits]
  · rw [if_pos (by omega), if_neg hfits]

/-- Behind the data the difference is a huge `size_t`. -/
theorem getDataExact_iff_of_gt (hlow : 0 ≤ b.low) (hle : b.low ≤ b.high)
    (hhigh : b.high < 2 ^ 31) (hpos : pos < 2 ^ 64)
    (hbehind : b.dataLen < pos) :
    b.GetDataExact n pos ↔ 2 ^ 64 + b.dataLen < n + pos := by
  have hdata : b.dataLen = b.high - b.low := rfl
  have hroom : (asSize (b.dataLen - pos) : Int) =
      2 ^ 64 + (b.dataLen - pos) := by
    rw [asSize]
    omega
  rw [GetDataExact, getDataToString,
    if_neg (c := (pos : Int) + n ≤ b.high - b.low) (by omega)]
  by_cases hover : n > asSize (b.dataLen - pos)
  · rw [if_pos hover]
    exact iff_of_true rfl (by omega)
  · rw [if_neg hover]
    refine iff_of_false ?_ (by omega)
    intro hsome
    cases hsome

theorem getDataExact_iff (hlow : 0 ≤ b.low) (hle : b.low ≤ b.high)
    (hhigh : b.high < 2 ^ 31) (hpos : pos < 2 ^ 64) :
    b.GetDataExact n pos ↔
      (pos : Int) ≤ b.dataLen ∨ 2 ^ 64 + b.dataLen < n + pos := by
  by_cases hinside : (pos : Int) ≤ b.dataLen
  · exact iff_of_true (getDataExact_of_le hhigh hlow hinside)
      (Or.inl hinside)
  · rw [getDataExact_iff_of_gt hlow hle hhigh hpos (by omega)]
    exact (or_iff_right hinside).symm

/-- `moveLow` is exact where its sum does not wrap around; `getDataToString` is
at a `pos` in the data, and behind it for an `n` that not even the difference
that has wrapped around lets through. -/
theorem ranges_exact_iff (hlow : 0 ≤ b.low) (hle : b.low ≤ b.high)
    (hhigh : b.high < 2 ^ 31) (hn : n < 2 ^ 64) (hpos : pos < 2 ^ 64) :
    (b.MoveLowExact n ↔ n + b.low < 2 ^ 64) ∧
    (b.GetDataExact n pos ↔
      (pos : Int) ≤ b.dataLen ∨ 2 ^ 64 + b.dataLen < n + pos) :=
  ⟨moveLowExact_iff hlow hle hhigh hn, getDataExact_iff hlow hle hhigh hpos⟩

/-- With one byte left of two, `moveLow` takes the -1 of a failed `write`, and
`getDataToString` a byte from behind the data. -/
theorem not_ranges_exact :
    ¬ ({ init with low := 1, high := 2 } : Buffer).MoveLowExact (2 ^ 64 - 1) ∧
    ¬ ({ init with low := 1, high := 2 } : Buffer).GetDataExact 1 2 := by
  constructor
  · rw [moveLowExact_iff (by decide) (by decide) (by decide) (by decide)]
    decide
  · rw [getDataExact_iff (by decide) (by decide) (by decide) (by decide)]
    decide

/-- The same buffer lets its one byte be read, and taken. -/
theorem ranges_exact_one :
    ({ init with low := 1, high := 2 } : Buffer).MoveLowExact 1 ∧
    ({ init with low := 1, high := 2 } : Buffer).GetDataExact 1 0 := by
  have hiff := @ranges_exact_iff { init with low := 1, high := 2 } 1 0
    (by decide) (by decide) (by decide) (by decide) (by decide)
  exact ⟨hiff.1.mpr (by decide), hiff.2.mpr (by decide)⟩

end Buffer

end Sone

end LinuxTest
