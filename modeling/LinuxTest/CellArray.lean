/-
Allocated arrays.  A cell is `none` until something is assigned to it, and
again once it is moved from; reading such a cell, or any cell outside the
array, has no result.
-/
import Mathlib.Data.List.Induction
import Mathlib.Tactic.Common

namespace LinuxTest

universe u

variable {T : Type u}

abbrev Cells (T : Type u) := List (Option T)

namespace Cells

def allocate (n : Nat) : Cells T :=
  List.replicate n none

def read (cells : Cells T) (i : Nat) : Option T :=
  cells[i]?.join

def write (cells : Cells T) (i : Nat) (x : T) : Option (Cells T) :=
  if i < cells.length then some (cells.set i (some x)) else none

/-- `std::fill` of the first `n` cells. -/
def fill (cells : Cells T) (n : Nat) (x : T) : Option (Cells T) :=
  if n ≤ cells.length then
    some (List.replicate n (some x) ++ cells.drop n)
  else none

/-- Move one element; what is left behind has no known value. -/
def move (cells : Cells T) (target source : Nat) : Option (Cells T) := do
  let x ← read cells source
  write (cells.set source none) target x

/-- Move so many elements from `source` on to `target` on, in order. -/
def shiftDown : Nat → Cells T → Nat → Nat → Option (Cells T)
  | 0, cells, _, _ => some cells
  | rounds + 1, cells, target, source => do
      let cells ← move cells target source
      shiftDown rounds cells (target + 1) (source + 1)

/-- Copy so many elements, `p` backwards, each from the cell before. -/
def shiftUp : Nat → Cells T → Nat → Option (Cells T)
  | 0, cells, _ => some cells
  | rounds + 1, cells, p => do
      let x ← read cells (p - 1)
      let cells ← write cells p x
      shiftUp rounds cells (p - 1)

/-- Copy so many elements, from `source` on in one array to `target` on in
another. -/
def copy : Nat → Cells T → Nat → Cells T → Nat → Option (Cells T)
  | 0, _, _, temp, _ => some temp
  | rounds + 1, cells, source, temp, target => do
      let x ← read cells source
      let temp ← write temp target x
      copy rounds cells (source + 1) temp (target + 1)

/-- The elements of the list stand in the cells from `p` on. -/
def Segment (cells : Cells T) : Nat → List T → Prop
  | _, [] => True
  | p, x :: xs => read cells p = some x ∧ Segment cells (p + 1) xs

theorem read_append {front back : Cells T} {x : T} {i : Nat}
    (hi : front.length = i) : read (front ++ some x :: back) i = some x := by
  subst hi
  rw [read, List.getElem?_append_right (Nat.le_refl _), Nat.sub_self]
  rfl

theorem write_append {front back : Cells T} {cell : Option T} {x : T} {i : Nat}
    (hi : front.length = i) :
    write (front ++ cell :: back) i x = some (front ++ some x :: back) := by
  subst hi
  rw [write, if_pos (by simp), List.set_append_right _ _ (Nat.le_refl _),
    Nat.sub_self]
  rfl

theorem write_outside {cells : Cells T} {i : Nat} (hi : cells.length ≤ i)
    (x : T) : write cells i x = none :=
  if_neg (Nat.not_lt.mpr hi)

theorem shiftUp_outside {cells : Cells T} {p : Nat} (hp : cells.length ≤ p)
    (rounds : Nat) : shiftUp (rounds + 1) cells p = none := by
  rw [shiftUp]
  cases cells.read (p - 1) with
  | none => rfl
  | some x =>
      rw [Option.bind_eq_bind, Option.bind_some, write_outside hp]
      rfl

/-- One move over a gap of at least one cell. -/
theorem move_append {front gap back : Cells T} {cell : Option T} {x : T}
    {target source : Nat} (htarget : front.length = target)
    (hsource : target + gap.length + 1 = source) :
    move (front ++ cell :: gap ++ some x :: back) target source =
      some ((front ++ [some x]) ++ (gap ++ [none]) ++ back) := by
  have hlength : (front ++ cell :: gap).length = source := by
    rw [List.length_append, List.length_cons]
    omega
  rw [move, read_append hlength, Option.bind_eq_bind, Option.bind_some,
    List.set_append_right _ _ (Nat.le_of_eq hlength), hlength, Nat.sub_self,
    List.set_cons_zero, List.append_assoc, List.cons_append,
    write_append htarget]
  simp

/-- The elements behind a gap move to its front, and the gap behind them. -/
theorem shiftDown_append {xs : List T} {front gap back : Cells T}
    {target source : Nat} (hgap : gap ≠ []) (htarget : front.length = target)
    (hsource : target + gap.length = source) :
    ∃ left, left.length = gap.length ∧
      shiftDown xs.length (front ++ gap ++ xs.map some ++ back) target source =
        some (front ++ xs.map some ++ left ++ back) := by
  induction xs generalizing front gap target source with
  | nil => exact ⟨gap, rfl, by simp [shiftDown]⟩
  | cons x xs ih =>
      cases gap with
      | nil => exact absurd rfl hgap
      | cons cell gap =>
          have hmove := @move_append _ front gap (xs.map some ++ back) cell x
            target source htarget hsource
          obtain ⟨left, hleft, hrest⟩ := @ih (front ++ [some x])
            (gap ++ [none]) (target + 1) (source + 1) (by simp)
            (by simp [htarget]) (by
              rw [List.length_cons] at hsource
              rw [List.length_append, List.length_singleton]
              omega)
          refine ⟨left, by simpa using hleft, ?_⟩
          rw [List.length_cons, shiftDown, List.map_cons, List.append_assoc,
            List.cons_append, hmove, Option.bind_eq_bind, Option.bind_some,
            ← List.append_assoc, hrest]
          simp

/-- The elements before `p` are copied one cell on, the last one first. -/
theorem shiftUp_append {xs : List T} {front back : Cells T} {cell : Option T}
    {p : Nat} (hp : front.length + xs.length = p) :
    ∃ left, shiftUp xs.length (front ++ xs.map some ++ cell :: back) p =
      some (front ++ left :: xs.map some ++ back) := by
  induction xs using List.reverseRecOn generalizing back cell p with
  | nil => exact ⟨cell, by simp [shiftUp]⟩
  | append_singleton xs x ih =>
      rw [List.length_append, List.length_singleton] at hp
      obtain ⟨left, hrest⟩ := @ih (some x :: back) (some x) (p - 1) (by omega)
      refine ⟨left, ?_⟩
      have hlast : (front ++ xs.map some).length = p - 1 := by
        rw [List.length_append, List.length_map]
        omega
      have hcell : (front ++ xs.map some ++ [some x]).length = p := by
        rw [List.length_append, hlast, List.length_singleton]
        omega
      have hread : read (front ++ xs.map some ++ some x :: cell :: back)
          (p - 1) = some x := read_append hlast
      have hwrite : write (front ++ xs.map some ++ some x :: cell :: back) p x =
          some (front ++ xs.map some ++ some x :: some x :: back) := by
        have hat := @write_append _ _ back cell x _ hcell
        simpa using hat
      rw [List.length_append, List.length_singleton, shiftUp, List.map_append]
      rw [List.map_singleton, ← List.append_assoc, List.append_assoc _ [_],
        List.singleton_append, hread, Option.bind_eq_bind, Option.bind_some,
        hwrite, Option.bind_eq_bind, Option.bind_some, hrest]
      simp

theorem segment_append {front back : Cells T} {xs : List T} {p : Nat}
    (hp : front.length = p) : Segment (front ++ xs.map some ++ back) p xs := by
  induction xs generalizing front p with
  | nil => trivial
  | cons x xs ih =>
      have hrest := @ih (front ++ [some x]) (p + 1) (by simp [hp])
      rw [List.map_cons]
      refine ⟨?_, by simpa using hrest⟩
      rw [List.append_assoc, List.cons_append]
      exact read_append hp

theorem Segment.append {cells : Cells T} {xs ys : List T} {p : Nat}
    (h : Segment cells p (xs ++ ys)) :
    Segment cells p xs ∧ Segment cells (p + xs.length) ys := by
  induction xs generalizing p with
  | nil => exact ⟨trivial, h⟩
  | cons x xs ih =>
      obtain ⟨hxs, hys⟩ := ih h.2
      refine ⟨⟨h.1, hxs⟩, ?_⟩
      rw [List.length_cons, Nat.add_comm xs.length, ← Nat.add_assoc]
      exact hys

theorem Segment.read {cells : Cells T} {xs : List T} {p i : Nat}
    (h : Segment cells p xs) (hi : i < xs.length) :
    read cells (p + i) = some xs[i] := by
  induction xs generalizing p i with
  | nil => cases hi
  | cons x xs ih =>
      cases i with
      | zero => exact h.1
      | succ i =>
          rw [← Nat.add_assoc, Nat.add_right_comm]
          exact ih h.2 (Nat.lt_of_succ_lt_succ hi)

theorem copy_segment {cells before gap back : Cells T} {xs : List T}
    {source target : Nat} (h : Segment cells source xs)
    (htarget : before.length = target) (hgap : gap.length = xs.length) :
    copy xs.length cells source (before ++ gap ++ back) target =
      some (before ++ xs.map some ++ back) := by
  induction xs generalizing before gap source target with
  | nil =>
      rw [List.length_eq_zero_iff.mp hgap]
      rfl
  | cons x xs ih =>
      cases gap with
      | nil => cases hgap
      | cons cell gap =>
          have hwrite : write (before ++ cell :: gap ++ back) target x =
              some (before ++ some x :: gap ++ back) := by
            rw [List.append_assoc, List.cons_append, write_append htarget,
              List.append_assoc, List.cons_append]
          have hrest := @ih (before ++ [some x]) gap (source + 1) (target + 1)
            h.2 (by simp [htarget]) (Nat.succ.inj hgap)
          rw [List.length_cons, copy, h.1, Option.bind_eq_bind,
            Option.bind_some, hwrite, Option.bind_eq_bind, Option.bind_some]
          simpa using hrest

end Cells

end LinuxTest
