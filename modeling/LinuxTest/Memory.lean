/-
A flat memory indexed by integer offsets from the start of one allocation, the
block of cells at an offset, and the overwriting of such a block.
-/
import Mathlib.Data.List.Basic
import Mathlib.Tactic.Common

namespace LinuxTest

universe u

variable {V : Type u}

/-- The `n` cells that start at offset `pos`. -/
def cells (mem : Int → V) (pos : Int) (n : Nat) : List V :=
  (List.range n).map fun k : Nat => mem (pos + k)

/-- `mem` with the given values stored from offset `pos` on. -/
def overwrite (mem : Int → V) (pos : Int) (values : List V) : Int → V :=
  fun i => if pos ≤ i then (values[(i - pos).toNat]?).getD (mem i) else mem i

@[simp] theorem cells_length (mem : Int → V) (pos : Int) (n : Nat) :
    (cells mem pos n).length = n := by
  simp [cells]

theorem cells_nil (mem : Int → V) (pos : Int) : cells mem pos 0 = [] := rfl

theorem overwrite_nil (mem : Int → V) (pos : Int) :
    overwrite mem pos [] = mem := by
  funext i
  simp [overwrite]

theorem cells_congr {mem other : Int → V} {pos : Int} {n : Nat}
    (hsame : ∀ i, pos ≤ i → i < pos + n → mem i = other i) :
    cells mem pos n = cells other pos n := by
  apply List.map_congr_left
  intro k hk
  rw [List.mem_range] at hk
  exact hsame (pos + k) (by omega) (by omega)

theorem cells_add (mem : Int → V) (pos : Int) (m n : Nat) :
    cells mem pos (m + n) = cells mem pos m ++ cells mem (pos + m) n := by
  simp only [cells, List.range_add, List.map_append, List.map_map]
  congr 1
  apply List.map_congr_left
  intro k _
  rw [Function.comp_apply, Int.natCast_add, Int.add_assoc]

theorem cells_drop (mem : Int → V) (pos : Int) {n k : Nat} (hk : k ≤ n) :
    (cells mem pos n).drop k = cells mem (pos + k) (n - k) := by
  obtain ⟨rest, rfl⟩ := Nat.exists_eq_add_of_le hk
  rw [cells_add, Nat.add_sub_cancel_left]
  exact List.drop_left' (cells_length mem pos k)

theorem cells_take (mem : Int → V) (pos : Int) {n k : Nat} (hk : k ≤ n) :
    (cells mem pos n).take k = cells mem pos k := by
  obtain ⟨rest, rfl⟩ := Nat.exists_eq_add_of_le hk
  rw [cells_add]
  exact List.take_left' (cells_length mem pos k)

/-- Stored values read back. -/
theorem cells_overwrite (mem : Int → V) (pos : Int) (values : List V) :
    cells (overwrite mem pos values) pos values.length = values := by
  apply List.ext_getElem
  · simp
  · intro k hk hvalues
    have hoffset : (pos + k - pos).toNat = k := by omega
    have hle : pos ≤ pos + k := by omega
    simp only [cells, overwrite, List.getElem_map, List.getElem_range,
      if_pos hle, hoffset, List.getElem?_eq_getElem hvalues,
      Option.getD_some]

theorem overwrite_before (mem : Int → V) {pos i : Int} (values : List V)
    (hi : i < pos) : overwrite mem pos values i = mem i := by
  simp [overwrite, Int.not_le.mpr hi]

/-- A block in front of the stored values is unchanged, so the two blocks
together read as the old cells followed by the new values. -/
theorem cells_overwrite_append (mem : Int → V) (pos : Int) (n : Nat)
    (values : List V) :
    cells (overwrite mem (pos + n) values) pos (n + values.length) =
      cells mem pos n ++ values := by
  rw [cells_add, cells_overwrite]
  congr 1
  apply cells_congr
  intro i _ hi
  exact overwrite_before mem values hi

end LinuxTest
