/-
Binary trees on a heap.  A tree lists the addresses of its nodes with their
values; what else is allocated is kept beside it, so that a change in one
subtree is seen to leave the others alone.
-/
import Mathlib.Data.Tree.Basic
import LinuxTest.NodeHeap

namespace LinuxTest

universe u

structure TreeCell (V : Type u) where
  value : V
  left : Option Nat
  right : Option Nat

namespace NodeHeap

variable {V : Type u}

/-- The pointer to a tree. -/
def top : BinaryTree (Nat × V) → Option Nat
  | .nil => none
  | .node item _ _ => some item.1

def nodes : BinaryTree (Nat × V) → List Nat
  | .nil => []
  | .node item l r => item.1 :: (nodes l ++ nodes r)

/-- The nodes of the tree are linked. -/
def Stands (h : NodeHeap (TreeCell V)) : BinaryTree (Nat × V) → Prop
  | .nil => True
  | .node item l r =>
      h.cells item.1 = some ⟨item.2, top l, top r⟩ ∧ Stands h l ∧ Stands h r

variable {h h' : NodeHeap (TreeCell V)} {t l r l' r' : BinaryTree (Nat × V)}
  {rest lost : List Nat} {n a : Nat} {v w : V}

@[simp] theorem top_nil : top (.nil : BinaryTree (Nat × V)) = none := rfl

@[simp] theorem top_node (item : Nat × V) (l r : BinaryTree (Nat × V)) :
    top (.node item l r) = some item.1 := rfl

@[simp] theorem nodes_nil : nodes (.nil : BinaryTree (Nat × V)) = [] := rfl

@[simp] theorem nodes_node (item : Nat × V) (l r : BinaryTree (Nat × V)) :
    nodes (.node item l r) = item.1 :: (nodes l ++ nodes r) := rfl

theorem top_eq_none_iff : top t = none ↔ t = .nil := by
  cases t with
  | nil => simp
  | node item l r => simp

theorem length_nodes (t : BinaryTree (Nat × V)) :
    (nodes t).length = t.numNodes := by
  induction t with
  | nil => rfl
  | node item l r ihl ihr => simp [ihl, ihr]

/-- A tree only depends on its own nodes. -/
theorem Stands.frame (hstands : h.Stands t)
    (hsame : ∀ m ∈ nodes t, h'.cells m = h.cells m) : h'.Stands t := by
  induction t with
  | nil => trivial
  | node item l r ihl ihr =>
      obtain ⟨hcell, hl, hr⟩ := hstands
      refine ⟨(hsame item.1 List.mem_cons_self).trans hcell, ihl hl ?_,
        ihr hr ?_⟩
      · exact fun m hm => hsame m (by simp [hm])
      · exact fun m hm => hsame m (by simp [hm])

/-- The tree stands, and beside its nodes exactly the rest is allocated. -/
structure Owns (h : NodeHeap (TreeCell V)) (t : BinaryTree (Nat × V))
    (rest : List Nat) : Prop where
  stands : h.Stands t
  distinct : (nodes t ++ rest).Nodup
  holds : h.Holds (nodes t ++ rest)

/-- What the heaps have in common. -/
def Kept (h h' : NodeHeap (TreeCell V)) (rest : List Nat) : Prop :=
  ∀ m ∈ rest, h'.cells m = h.cells m

theorem Owns.perm {others : List Nat} (howns : h.Owns t rest)
    (hperm : rest.Perm others) : h.Owns t others where
  stands := howns.stands
  distinct := (hperm.append_left (nodes t)).nodup_iff.mp howns.distinct
  holds := howns.holds.congr fun _ => (hperm.append_left (nodes t)).mem_iff

theorem Owns.not_mem (howns : h.Owns t rest) (hn : n ∈ rest) : n ∉ nodes t :=
  fun hm => (List.nodup_append.mp howns.distinct).2.2 n hm n hn rfl

theorem owns_empty : (empty : NodeHeap (TreeCell V)).Owns .nil [] :=
  ⟨trivial, List.nodup_nil, holds_empty⟩

theorem Owns.numNodes_le (howns : h.Owns t rest) : t.numNodes ≤ h.fresh := by
  have hlength := howns.holds.length_le howns.distinct
  rw [List.length_append, length_nodes] at hlength
  omega

/-! ### Subtrees -/

theorem nodes_left_perm (l r : BinaryTree (Nat × V)) (a : Nat)
    (rest : List Nat) :
    (a :: (nodes l ++ nodes r) ++ rest).Perm
      (nodes l ++ a :: (nodes r ++ rest)) := by
  rw [List.cons_append, List.append_assoc]
  exact List.perm_middle.symm

theorem nodes_right_perm (l r : BinaryTree (Nat × V)) (a : Nat)
    (rest : List Nat) :
    (a :: (nodes l ++ nodes r) ++ rest).Perm
      (nodes r ++ a :: (nodes l ++ rest)) := by
  refine List.Perm.trans ?_ List.perm_middle.symm
  rw [List.cons_append]
  refine List.Perm.cons a ?_
  rw [← List.append_assoc]
  exact List.perm_append_comm.append_right rest

theorem Owns.left (howns : h.Owns (.node (a, v) l r) rest) :
    h.Owns l (a :: (nodes r ++ rest)) where
  stands := howns.stands.2.1
  distinct := (nodes_left_perm l r a rest).nodup_iff.mp howns.distinct
  holds := howns.holds.congr fun _ => (nodes_left_perm l r a rest).mem_iff

theorem Owns.right (howns : h.Owns (.node (a, v) l r) rest) :
    h.Owns r (a :: (nodes l ++ rest)) where
  stands := howns.stands.2.2
  distinct := (nodes_right_perm l r a rest).nodup_iff.mp howns.distinct
  holds := howns.holds.congr fun _ => (nodes_right_perm l r a rest).mem_iff

/-- Put a tree back in its place on the left. -/
theorem Owns.node_left (howns : h.Owns l (a :: (nodes r ++ rest)))
    (hcell : h.cells a = some ⟨v, top l, top r⟩) (hr : h.Stands r) :
    h.Owns (.node (a, v) l r) rest where
  stands := ⟨hcell, howns.stands, hr⟩
  distinct := (nodes_left_perm l r a rest).nodup_iff.mpr howns.distinct
  holds := howns.holds.congr fun _ => (nodes_left_perm l r a rest).mem_iff.symm

theorem Owns.node_right (howns : h.Owns r (a :: (nodes l ++ rest)))
    (hcell : h.cells a = some ⟨v, top l, top r⟩) (hl : h.Stands l) :
    h.Owns (.node (a, v) l r) rest where
  stands := ⟨hcell, hl, howns.stands⟩
  distinct := (nodes_right_perm l r a rest).nodup_iff.mpr howns.distinct
  holds := howns.holds.congr fun _ => (nodes_right_perm l r a rest).mem_iff.symm

/-! ### Changes -/

theorem Owns.change (howns : h.Owns t rest) (hn : n ∈ rest)
    (f : TreeCell V → TreeCell V) : (h.change n f).Owns t rest where
  stands := howns.stands.frame fun _ hm =>
    change_cells_of_ne fun heq => howns.not_mem hn (heq ▸ hm)
  distinct := howns.distinct
  holds := howns.holds.change n f

/-- A new node is a tree of its own. -/
theorem Owns.alloc (howns : h.Owns .nil rest) (v : V) :
    (h.alloc ⟨v, none, none⟩).Owns (.node (h.fresh, v) .nil .nil) rest where
  stands := ⟨alloc_cells_self h _, trivial, trivial⟩
  distinct := List.nodup_cons.mpr ⟨howns.holds.fresh_not_mem, howns.distinct⟩
  holds := howns.holds.alloc _

theorem Owns.kept_alloc (howns : h.Owns t rest) (c : TreeCell V) :
    Kept h (h.alloc c) rest := by
  intro m hm
  refine alloc_cells_of_ne fun heq => ?_
  exact howns.holds.fresh_not_mem (heq ▸ List.mem_append_right _ hm)

theorem Kept.trans {h'' : NodeHeap (TreeCell V)} (hfirst : Kept h h' rest)
    (hsecond : Kept h' h'' rest) : Kept h h'' rest :=
  fun m hm => (hsecond m hm).trans (hfirst m hm)

theorem Kept.sub {others : List Nat} (hkept : Kept h h' rest)
    (hsub : others ⊆ rest) : Kept h h' others :=
  fun m hm => hkept m (hsub hm)

theorem kept_change (hn : n ∉ rest) (f : TreeCell V → TreeCell V) :
    Kept h (h.change n f) rest :=
  fun _ hm => change_cells_of_ne fun heq => hn (heq ▸ hm)

theorem kept_remove (hn : n ∉ rest) : Kept h (h.remove n) rest :=
  fun _ hm => remove_cells_of_ne fun heq => hn (heq ▸ hm)

/-- Let the node above a tree point to it, on its left. -/
theorem Owns.setLeft {p : Option Nat}
    (howns : h.Owns l (a :: (nodes r ++ rest)))
    (hcell : h.cells a = some ⟨v, p, top r⟩) (hr : h.Stands r) :
    (h.change a fun c => { c with left := top l }).Owns
      (.node (a, v) l r) rest := by
  have ha : a ∉ nodes r := by
    have hdistinct := (List.nodup_append.mp howns.distinct).2.1
    exact fun hm => (List.nodup_cons.mp hdistinct).1 (List.mem_append_left _ hm)
  refine (howns.change List.mem_cons_self _).node_left ?_ ?_
  · rw [change_cells_self, hcell]
    rfl
  · exact hr.frame fun m hm => change_cells_of_ne fun heq => ha (heq ▸ hm)

theorem Owns.setRight {p : Option Nat}
    (howns : h.Owns r (a :: (nodes l ++ rest)))
    (hcell : h.cells a = some ⟨v, top l, p⟩) (hl : h.Stands l) :
    (h.change a fun c => { c with right := top r }).Owns
      (.node (a, v) l r) rest := by
  have ha : a ∉ nodes l := by
    have hdistinct := (List.nodup_append.mp howns.distinct).2.1
    exact fun hm => (List.nodup_cons.mp hdistinct).1 (List.mem_append_left _ hm)
  refine (howns.change List.mem_cons_self _).node_right ?_ ?_
  · rw [change_cells_self, hcell]
    rfl
  · exact hl.frame fun m hm => change_cells_of_ne fun heq => ha (heq ▸ hm)

theorem aside_perm (lost rest front : List Nat) (a : Nat) :
    (lost ++ a :: (front ++ rest)).Perm (a :: (front ++ (lost ++ rest))) := by
  refine List.perm_middle.trans (List.Perm.cons a ?_)
  rw [← List.append_assoc, ← List.append_assoc]
  exact List.perm_append_comm.append_right rest

/-- Delete the node above a tree. -/
theorem Owns.remove (howns : h.Owns t (a :: rest)) :
    (h.remove a).Owns t rest where
  stands := howns.stands.frame fun _ hm =>
    remove_cells_of_ne fun heq => howns.not_mem List.mem_cons_self (heq ▸ hm)
  distinct := by
    have hperm : (nodes t ++ a :: rest).Perm (a :: (nodes t ++ rest)) :=
      List.perm_middle
    exact (List.nodup_cons.mp (hperm.nodup_iff.mp howns.distinct)).2
  holds := howns.holds.remove howns.distinct

end NodeHeap

end LinuxTest
