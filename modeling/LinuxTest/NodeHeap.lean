/-
A heap of nodes that are created and deleted one at a time.  Following a null
pointer or one to a deleted node has no result.  A deleted address is not given
out again, so every use after a deletion shows.
-/
import Mathlib.Data.List.Perm.Subperm
import Mathlib.Data.List.Range
import Mathlib.Logic.Function.Basic

namespace LinuxTest

universe u

/-- The nodes that are allocated; addresses from `fresh` on were never used. -/
structure NodeHeap (C : Type u) where
  cells : Nat → Option C
  fresh : Nat
  unused : ∀ n, fresh ≤ n → cells n = none

namespace NodeHeap

variable {C : Type u}

def empty : NodeHeap C where
  cells := fun _ => none
  fresh := 0
  unused := fun _ _ => rfl

/-- `new`: the node is at the address `fresh` of the old heap. -/
def alloc (h : NodeHeap C) (c : C) : NodeHeap C where
  cells := Function.update h.cells h.fresh (some c)
  fresh := h.fresh + 1
  unused := by
    intro n hn
    rw [Function.update_of_ne (by omega)]
    exact h.unused n (by omega)

/-- Change the node at an address, if there is one. -/
def change (h : NodeHeap C) (n : Nat) (f : C → C) : NodeHeap C where
  cells := Function.update h.cells n ((h.cells n).map f)
  fresh := h.fresh
  unused := by
    intro m hm
    by_cases heq : m = n
    · rw [heq, Function.update_self, ← heq, h.unused m hm]
      rfl
    · rw [Function.update_of_ne heq]
      exact h.unused m hm

def remove (h : NodeHeap C) (n : Nat) : NodeHeap C where
  cells := Function.update h.cells n none
  fresh := h.fresh
  unused := by
    intro m hm
    by_cases heq : m = n
    · rw [heq, Function.update_self]
    · rw [Function.update_of_ne heq]
      exact h.unused m hm

/-- The addresses of the allocated nodes. -/
def live (h : NodeHeap C) : List Nat :=
  (List.range h.fresh).filter fun n => (h.cells n).isSome

/-! ### What a program does through a pointer -/

/-- `*p`. -/
def deref (h : NodeHeap C) (p : Option Nat) : Option C :=
  p.bind h.cells

/-- `p->field = value`. -/
def assign (h : NodeHeap C) (p : Option Nat) (f : C → C) :
    Option (NodeHeap C) :=
  p.bind fun n => (h.cells n).map fun _ => h.change n f

/-- `delete p`, which ignores a null pointer. -/
def delete (h : NodeHeap C) : Option Nat → Option (NodeHeap C)
  | none => some h
  | some n => (h.cells n).map fun _ => h.remove n

variable {h : NodeHeap C} {n m : Nat} {c : C} {f : C → C}

@[simp] theorem deref_none (h : NodeHeap C) : h.deref none = none := rfl

@[simp] theorem deref_some (h : NodeHeap C) (n : Nat) :
    h.deref (some n) = h.cells n := rfl

@[simp] theorem assign_none (h : NodeHeap C) (f : C → C) :
    h.assign none f = none := rfl

theorem assign_some (hc : h.cells n = some c) :
    h.assign (some n) f = some (h.change n f) := by
  simp [assign, hc]

@[simp] theorem delete_none (h : NodeHeap C) : h.delete none = some h := rfl

theorem delete_some (hc : h.cells n = some c) :
    h.delete (some n) = some (h.remove n) := by
  simp [delete, hc]

@[simp] theorem alloc_cells_self (h : NodeHeap C) (c : C) :
    (h.alloc c).cells h.fresh = some c :=
  Function.update_self _ _ _

theorem alloc_cells_of_ne (hne : n ≠ h.fresh) :
    (h.alloc c).cells n = h.cells n :=
  Function.update_of_ne hne _ _

@[simp] theorem change_cells_self (h : NodeHeap C) (n : Nat) (f : C → C) :
    (h.change n f).cells n = (h.cells n).map f :=
  Function.update_self _ _ _

theorem change_cells_of_ne (hne : m ≠ n) :
    (h.change n f).cells m = h.cells m :=
  Function.update_of_ne hne _ _

@[simp] theorem remove_cells_self (h : NodeHeap C) (n : Nat) :
    (h.remove n).cells n = none :=
  Function.update_self _ _ _

theorem remove_cells_of_ne (hne : m ≠ n) :
    (h.remove n).cells m = h.cells m :=
  Function.update_of_ne hne _ _

theorem change_remove (hne : m ≠ n) (h : NodeHeap C) (f : C → C) :
    (h.remove n).change m f = (h.change m f).remove n := by
  simp only [change, remove, Function.update_of_ne hne, mk.injEq, and_true]
  exact (Function.update_comm hne _ _ _).symm

/-- Changes that do not get in each other's way may be made in any order. -/
theorem change_comm {g : C → C} (hcomm : ∀ c, f (g c) = g (f c))
    (h : NodeHeap C) (n m : Nat) :
    (h.change n f).change m g = (h.change m g).change n f := by
  by_cases hne : n = m
  · subst hne
    simp [change, Function.comp_def, hcomm]
  · simp only [change, Function.update_of_ne hne,
      Function.update_of_ne (Ne.symm hne), mk.injEq, and_true]
    exact Function.update_comm hne _ _ _

theorem lt_fresh (hc : h.cells n = some c) : n < h.fresh := by
  by_contra hge
  rw [h.unused n (by omega)] at hc
  cases hc

/-! ### Which nodes there are -/

/-- The allocated nodes are the given ones. -/
def Holds (h : NodeHeap C) (nodes : List Nat) : Prop :=
  ∀ n, (∃ c, h.cells n = some c) ↔ n ∈ nodes

variable {nodes others : List Nat}

theorem Holds.congr (hholds : h.Holds nodes)
    (hsame : ∀ n, n ∈ nodes ↔ n ∈ others) : h.Holds others :=
  fun n => (hholds n).trans (hsame n)

theorem holds_empty : (empty : NodeHeap C).Holds [] := by
  intro n
  simp [empty]

theorem Holds.eq_none (hholds : h.Holds []) (n : Nat) : h.cells n = none := by
  cases hc : h.cells n with
  | none => rfl
  | some c => exact absurd ((hholds n).mp ⟨c, hc⟩) List.not_mem_nil

theorem Holds.live_eq_nil (hholds : h.Holds []) : h.live = [] := by
  refine List.filter_eq_nil_iff.mpr fun n _ => ?_
  rw [hholds.eq_none n]
  exact Bool.false_ne_true

theorem Holds.live_perm (hholds : h.Holds nodes) (hnodup : nodes.Nodup) :
    h.live.Perm nodes := by
  have hlive : h.live.Nodup := List.nodup_range.filter _
  refine (List.perm_ext_iff_of_nodup hlive hnodup).mpr fun n => ?_
  rw [live, List.mem_filter, List.mem_range, ← hholds n,
    ← Option.isSome_iff_exists]
  exact and_iff_right_of_imp fun hsome => by
    obtain ⟨c, hc⟩ := Option.isSome_iff_exists.mp hsome
    exact lt_fresh hc

theorem Holds.fresh_not_mem (hholds : h.Holds nodes) : h.fresh ∉ nodes := by
  intro hmem
  obtain ⟨c, hc⟩ := (hholds h.fresh).mpr hmem
  exact Nat.lt_irrefl _ (lt_fresh hc)

theorem Holds.alloc (hholds : h.Holds nodes) (c : C) :
    (h.alloc c).Holds (h.fresh :: nodes) := by
  intro n
  by_cases hn : n = h.fresh
  · simp [hn]
  · rw [alloc_cells_of_ne hn, hholds n, List.mem_cons]
    simp [hn]

theorem Holds.change (hholds : h.Holds nodes) (n : Nat) (f : C → C) :
    (h.change n f).Holds nodes := by
  intro m
  by_cases hm : m = n
  · rw [hm, change_cells_self, ← hholds n]
    simp
  · rw [change_cells_of_ne hm]
    exact hholds m

theorem Holds.remove {front back : List Nat}
    (hholds : h.Holds (front ++ n :: back))
    (hnodup : (front ++ n :: back).Nodup) :
    (h.remove n).Holds (front ++ back) := by
  intro m
  have hout : n ∉ front ++ back :=
    (List.nodup_cons.mp (List.perm_middle.nodup_iff.mp hnodup)).1
  by_cases hm : m = n
  · rw [hm, remove_cells_self]
    simpa using hout
  · rw [remove_cells_of_ne hm, hholds m]
    simp [hm]

theorem Holds.remove_head {back : List Nat} (hholds : h.Holds (n :: back))
    (hnodup : (n :: back).Nodup) : (h.remove n).Holds back :=
  @Holds.remove C h n [] back hholds hnodup

theorem Holds.deref (hholds : h.Holds nodes) (hn : n ∈ nodes) :
    ∃ c, h.deref (some n) = some c ∧ h.cells n = some c := by
  obtain ⟨c, hc⟩ := (hholds n).mpr hn
  exact ⟨c, hc, hc⟩

theorem Holds.assign (hholds : h.Holds nodes) (hn : n ∈ nodes) (f : C → C) :
    h.assign (some n) f = some (h.change n f) := by
  obtain ⟨c, hc⟩ := (hholds n).mpr hn
  exact assign_some hc

theorem Holds.delete (hholds : h.Holds nodes) (hn : n ∈ nodes) :
    h.delete (some n) = some (h.remove n) := by
  obtain ⟨c, hc⟩ := (hholds n).mpr hn
  exact delete_some hc

/-- No more nodes are allocated than addresses were given out. -/
theorem Holds.length_le (hholds : h.Holds nodes) (hnodup : nodes.Nodup) :
    nodes.length ≤ h.fresh := by
  have hsub : nodes ⊆ List.range h.fresh := by
    intro n hn
    obtain ⟨c, hc⟩ := (hholds n).mpr hn
    exact List.mem_range.mpr (lt_fresh hc)
  simpa using (hnodup.subperm hsub).length_le

end NodeHeap

end LinuxTest
