/-
The search tree.  A node is reached through one pointer only, so a pointer to a
node is the tree below it; the pointer `root` can also outlive its node.
-/
import Mathlib.Data.Finset.Erase
import Mathlib.Data.Finset.Insert
import Mathlib.Data.List.Nodup
import Mathlib.Order.Defs.LinearOrder
import LinuxTest.Runs

namespace LinuxTest

namespace Sta

universe u

inductive TreeNode (T : Type u) where
  | null
  | node (left : TreeNode T) (value : T) (right : TreeNode T)

namespace TreeNode

variable {T : Type u}

def isNull : TreeNode T → Bool
  | null => true
  | node _ _ _ => false

/-- The values in the order in which `printTree` prints them. -/
def inorder : TreeNode T → List T
  | null => []
  | node left value right => inorder left ++ value :: inorder right

/-- The value of the last node on the way to the left. -/
def findMin : TreeNode T → Option T
  | null => none
  | node left value _ => if left.isNull then some value else findMin left

variable [LinearOrder T]

/-- The pointer that takes the place of `pnode`, and whether a node is new. -/
def insert (v : T) : TreeNode T → TreeNode T × Bool
  | null => (node null v null, true)
  | node left value right =>
      if v < value then
        let (left, added) := insert v left
        (node left value right, added)
      else if v > value then
        let (right, added) := insert v right
        (node left value right, added)
      else
        (node left value right, false)

def find (v : T) : TreeNode T → TreeNode T
  | null => null
  | node left value right =>
      if value = v then
        node left value right
      else if value < v then
        find v right
      else
        find v left

/-- The pointer returned, and whether the node passed in was freed. -/
def delete : TreeNode T → T → Option (TreeNode T × Bool)
  | null, _ => none
  | node left value right, v =>
      if v > value then do
        let (right, _) ← delete right v
        return (node left value right, false)
      else if v < value then do
        let (left, _) ← delete left v
        return (node left value right, false)
      else if !left.isNull && !right.isNull then do
        let temp ← findMin right
        let (right, _) ← delete right temp
        return (node left temp right, false)
      else if !right.isNull then
        some (right, true)
      else
        some (null, true)

/-- In order the values grow. -/
def Ordered (t : TreeNode T) : Prop :=
  t.inorder.Pairwise (· < ·)

variable {t left right : TreeNode T} {value v x : T}

theorem ordered_node_iff : (node left value right).Ordered ↔
    left.Ordered ∧ right.Ordered ∧ (∀ x ∈ left.inorder, x < value) ∧
      ∀ x ∈ right.inorder, value < x := by
  rw [Ordered, inorder, List.pairwise_append, List.pairwise_cons]
  constructor
  · rintro ⟨hleft, ⟨hvalue, hright⟩, hacross⟩
    exact ⟨hleft, hright, fun x hx => hacross x hx value List.mem_cons_self,
      hvalue⟩
  · rintro ⟨hleft, hright, hless, hgreater⟩
    refine ⟨hleft, ⟨hgreater, hright⟩, fun x hx y hy => ?_⟩
    rcases List.mem_cons.mp hy with rfl | hmem
    · exact hless x hx
    · exact lt_trans (hless x hx) (hgreater y hmem)

omit [LinearOrder T] in
theorem mem_inorder_node : x ∈ (node left value right).inorder ↔
    x ∈ left.inorder ∨ x = value ∨ x ∈ right.inorder := by
  rw [inorder, List.mem_append, List.mem_cons]

/-! ### Insertion -/

theorem mem_insert : x ∈ (t.insert v).1.inorder ↔ x = v ∨ x ∈ t.inorder := by
  induction t with
  | null => simp [insert, inorder]
  | node left value right ihLeft ihRight =>
      rw [insert]
      by_cases hlt : v < value
      · rw [if_pos hlt]
        dsimp only
        rw [mem_inorder_node, mem_inorder_node, ihLeft]
        exact or_assoc
      · rw [if_neg hlt]
        by_cases hgt : v > value
        · rw [if_pos hgt]
          dsimp only
          rw [mem_inorder_node, mem_inorder_node, ihRight]
          exact (or_congr_right or_left_comm).trans or_left_comm
        · have heq : v = value := le_antisymm (not_lt.mp hgt) (not_lt.mp hlt)
          rw [if_neg hgt, mem_inorder_node, heq]
          exact (or_iff_right_of_imp fun h => Or.inr (Or.inl h)).symm

theorem Ordered.insert (ht : t.Ordered) (v : T) : (t.insert v).1.Ordered := by
  induction t with
  | null => exact List.pairwise_singleton _ v
  | node left value right ihLeft ihRight =>
      obtain ⟨hleft, hright, hless, hgreater⟩ := ordered_node_iff.mp ht
      rw [TreeNode.insert]
      by_cases hlt : v < value
      · rw [if_pos hlt]
        refine ordered_node_iff.mpr ⟨ihLeft hleft, hright, fun x hx => ?_,
          hgreater⟩
        rcases mem_insert.mp hx with rfl | hmem
        · exact hlt
        · exact hless x hmem
      · rw [if_neg hlt]
        by_cases hgt : v > value
        · rw [if_pos hgt]
          refine ordered_node_iff.mpr ⟨hleft, ihRight hright, hless,
            fun x hx => ?_⟩
          rcases mem_insert.mp hx with rfl | hmem
          · exact hgt
          · exact hgreater x hmem
        · rw [if_neg hgt]
          exact ht

/-- A node is new exactly where the value was absent. -/
theorem insert_added (ht : t.Ordered) :
    (t.insert v).2 = true ↔ v ∉ t.inorder := by
  induction t with
  | null => simp [insert, inorder]
  | node left value right ihLeft ihRight =>
      obtain ⟨hleft, hright, hless, hgreater⟩ := ordered_node_iff.mp ht
      rw [insert, mem_inorder_node]
      by_cases hlt : v < value
      · have hne : v ≠ value := ne_of_lt hlt
        have hout : v ∉ right.inorder := fun hmem =>
          lt_asymm hlt (hgreater v hmem)
        rw [if_pos hlt]
        dsimp only
        rw [ihLeft hleft]
        tauto
      · rw [if_neg hlt]
        by_cases hgt : v > value
        · have hne : v ≠ value := ne_of_gt hgt
          have hout : v ∉ left.inorder := fun hmem =>
            lt_asymm hgt (hless v hmem)
          rw [if_pos hgt]
          dsimp only
          rw [ihRight hright]
          tauto
        · have heq : v = value := le_antisymm (not_lt.mp hgt) (not_lt.mp hlt)
          rw [if_neg hgt]
          tauto

/-! ### Deletion -/

theorem delete_right (hlt : v > value) :
    (node left value right).delete v = (right.delete v).map fun result =>
      (node left value result.1, false) := by
  rw [delete, if_pos hlt]
  cases right.delete v with
  | none => rfl
  | some result => rfl

theorem delete_left (hlt : v < value) :
    (node left value right).delete v = (left.delete v).map fun result =>
      (node result.1 value right, false) := by
  rw [delete, if_neg (lt_asymm hlt), if_pos hlt]
  cases left.delete v with
  | none => rfl
  | some result => rfl

theorem delete_no_left (v : T) (right : TreeNode T) :
    (node null v right).delete v = some (right, true) := by
  rw [delete, if_neg (lt_irrefl v), if_neg (lt_irrefl v)]
  cases right with
  | null => rfl
  | node left value right => rfl

/-- The least value is at the node that `findMin` finds, and goes alone. -/
theorem delete_findMin (ht : t.Ordered) (hne : t.isNull = false) :
    ∃ least kept freed, t.findMin = some least ∧
      t.delete least = some (kept, freed) ∧
      t.inorder = least :: kept.inorder := by
  induction t with
  | null => cases hne
  | node left value right ihLeft _ =>
      obtain ⟨hleft, hright, hless, hgreater⟩ := ordered_node_iff.mp ht
      rw [findMin]
      cases left with
      | null => exact ⟨value, right, true, rfl, delete_no_left value right, rfl⟩
      | node ll lv lr =>
          obtain ⟨least, kept, freed, hmin, hdelete, horder⟩ :=
            ihLeft hleft rfl
          have hlt : least < value := hless least (horder ▸ List.mem_cons_self)
          refine ⟨least, node kept value right, false, hmin, ?_, ?_⟩
          · rw [delete_left hlt, hdelete]
            rfl
          · rw [inorder, horder, List.cons_append]
            rfl

/-- What `delete` leaves below the node that it finds. -/
def remains (left right : TreeNode T) : List T :=
  if right.isNull then [] else left.inorder ++ right.inorder

theorem delete_here (ht : (node left v right).Ordered) :
    ∃ kept freed, (node left v right).delete v = some (kept, freed) ∧
      kept.inorder = remains left right ∧
      (freed = true ↔ left.isNull = true ∨ right.isNull = true) := by
  obtain ⟨_, hright, _, _⟩ := ordered_node_iff.mp ht
  cases left with
  | null =>
      refine ⟨right, true, delete_no_left v right, ?_, by simp [isNull]⟩
      cases right with
      | null => rfl
      | node rl rv rr => rfl
  | node ll lv lr =>
      cases right with
      | null =>
          refine ⟨null, true, ?_, rfl, by simp [isNull]⟩
          rw [delete, if_neg (lt_irrefl v), if_neg (lt_irrefl v)]
          rfl
      | node rl rv rr =>
          obtain ⟨least, kept, freed, hmin, hdelete, horder⟩ :=
            delete_findMin hright rfl
          refine ⟨node (node ll lv lr) least kept, false, ?_, ?_, ?_⟩
          · rw [delete, if_neg (lt_irrefl v), if_neg (lt_irrefl v), hmin]
            dsimp only [isNull, Bool.not_false, Bool.and_self, if_true,
              Option.bind_eq_bind, Option.bind_some]
            rw [hdelete]
            rfl
          · rw [inorder, ← horder]
            rfl
          · simp [isNull]

/-- Where a value is present, its node hangs somewhere below, and deletion
changes nothing before and behind it. -/
theorem delete_find (ht : t.Ordered) (hv : v ∈ t.inorder) :
    ∃ left right before behind kept freed, t.find v = node left v right ∧
      t.inorder = before ++ (node left v right).inorder ++ behind ∧
      t.delete v = some (kept, freed) ∧
      kept.inorder = before ++ remains left right ++ behind ∧
      (freed = true ↔ t.find v = t ∧
        (left.isNull = true ∨ right.isNull = true)) := by
  induction t with
  | null => cases hv
  | node l value r ihLeft ihRight =>
      obtain ⟨hl, hr, hless, hgreater⟩ := ordered_node_iff.mp ht
      rw [find]
      by_cases heq : value = v
      · subst heq
        obtain ⟨kept, freed, hdelete, hkept, hfreed⟩ := delete_here ht
        refine ⟨l, r, [], [], kept, freed, if_pos rfl, by simp, hdelete,
          by simpa using hkept, ?_⟩
        rw [hfreed, if_pos rfl]
        exact (and_iff_right rfl).symm
      · -- The node found is in one of the subtrees, so it is not this one.
        have hother {left right : TreeNode T} :
            (node left v right = node l value r) ↔ False :=
          iff_false_intro fun h => heq (TreeNode.node.inj h).2.1.symm
        rw [if_neg heq]
        rcases mem_inorder_node.mp hv with hin | rfl | hin
        · have hlt := hless v hin
          obtain ⟨left, right, before, behind, kept, freed, hfind, horder,
            hdelete, hkept, _⟩ := ihLeft hl hin
          refine ⟨left, right, before, behind ++ value :: r.inorder,
            node kept value r, false, ?_, ?_, ?_, ?_, ?_⟩
          · rw [if_neg (lt_asymm hlt), hfind]
          · rw [inorder, horder]
            simp
          · rw [delete_left hlt, hdelete]
            rfl
          · rw [inorder, hkept]
            simp
          · rw [if_neg (lt_asymm hlt), hfind, hother]
            simp
        · exact absurd rfl heq
        · have hlt := hgreater v hin
          obtain ⟨left, right, before, behind, kept, freed, hfind, horder,
            hdelete, hkept, _⟩ := ihRight hr hin
          refine ⟨left, right, l.inorder ++ value :: before, behind,
            node l value kept, false, ?_, ?_, ?_, ?_, ?_⟩
          · rw [if_pos hlt, hfind]
          · rw [inorder, horder]
            simp
          · rw [delete_right hlt, hdelete]
            rfl
          · rw [inorder, hkept]
            simp
          · rw [if_pos hlt, hfind, hother]
            simp

theorem find_absent (hv : v ∉ t.inorder) : t.find v = null := by
  induction t with
  | null => rfl
  | node left value right ihLeft ihRight =>
      rw [mem_inorder_node, not_or, not_or] at hv
      rw [find, if_neg (Ne.symm hv.2.1), ihLeft hv.1, ihRight hv.2.2]
      exact ite_self null

/-- A value can be deleted if it is absent, if its node has two children, or if
its node is not the first one and has no left child. -/
def Removable (t : TreeNode T) (v : T) : Prop :=
  match t.find v with
  | null => True
  | node left _ right => (left.isNull = false ∧ right.isNull = false) ∨
      (left.isNull = true ∧ t.find v ≠ t)

/-- The values without the deleted one. -/
def Lacks (kept : TreeNode T) (t : TreeNode T) (v : T) : Prop :=
  kept.Ordered ∧ ∀ x, x ∈ kept.inorder ↔ x ∈ t.inorder ∧ x ≠ v

theorem Ordered.lacks {kept : TreeNode T} (ht : t.Ordered)
    {before behind : List T}
    (horder : t.inorder = before ++ v :: behind)
    (hkept : kept.inorder = before ++ behind) : kept.Lacks t v := by
  rw [Ordered, horder] at ht
  have hsub : (before ++ behind).Sublist (before ++ v :: behind) :=
    (List.Sublist.refl before).append (List.sublist_cons_self v behind)
  have hnodup := List.pairwise_middle (fun h => Ne.symm h) |>.mp
    (ht.imp ne_of_lt)
  have hout := (List.pairwise_cons.mp hnodup).1
  refine ⟨?_, fun x => ?_⟩
  · rw [Ordered, hkept]
    exact ht.sublist hsub
  · rw [hkept, horder]
    constructor
    · exact fun hx => ⟨hsub.subset hx, (hout x hx).symm⟩
    · rintro ⟨hx, hne⟩
      rw [List.mem_append, List.mem_cons] at hx
      rw [List.mem_append]
      tauto

omit [LinearOrder T] in
theorem remains_eq (h : left.isNull = true ∨ right.isNull = false) :
    remains left right = left.inorder ++ right.inorder := by
  rw [remains]
  cases right with
  | null =>
      cases left with
      | null => rfl
      | node ll lv lr => simp [isNull] at h
  | node rl rv rr => rfl

theorem removable_iff (ht : t.Ordered) (hv : v ∈ t.inorder) :
    t.Removable v ↔
      ∃ kept, t.delete v = some (kept, false) ∧ kept.Lacks t v := by
  obtain ⟨left, right, before, behind, kept, freed, hfind, horder, hdelete,
    hkept, hfreed⟩ := delete_find ht hv
  have hparts : t.inorder =
      (before ++ left.inorder) ++ v :: (right.inorder ++ behind) := by
    rw [horder, inorder]
    simp
  have hlacks (h : left.isNull = true ∨ right.isNull = false) :
      kept.Lacks t v := by
    refine ht.lacks hparts ?_
    rw [hkept, remains_eq h]
    simp
  rw [hfind] at hfreed
  simp only [Removable, hfind, ne_eq]
  rw [hdelete]
  constructor
  · intro hremovable
    have hkeeps : freed = false := by
      rw [← Bool.not_eq_true, hfreed]
      rintro ⟨hfirst, hnull⟩
      rcases hremovable with ⟨hl, hr⟩ | ⟨_, hnot⟩
      · simp [hl, hr] at hnull
      · exact hnot hfirst
    rw [hkeeps]
    refine ⟨kept, rfl, hlacks ?_⟩
    exact hremovable.elim (fun h => Or.inr h.2) fun h => Or.inl h.1
  · rintro ⟨other, hother, _, hmem⟩
    obtain ⟨rfl, rfl⟩ := Prod.mk.inj (Option.some.inj hother)
    cases hl : left.isNull with
    | true =>
        refine Or.inr ⟨rfl, fun hfirst => ?_⟩
        exact absurd (hfreed.mpr ⟨hfirst, Or.inl hl⟩) Bool.false_ne_true
    | false =>
        cases hr : right.isNull with
        | false => exact Or.inl ⟨rfl, rfl⟩
        | true =>
            -- A value of the left subtree is lost, though only `v` had to go.
            exfalso
            obtain ⟨y, hy⟩ : ∃ y, y ∈ left.inorder := by
              cases left with
              | null => cases hl
              | node ll lv lr =>
                  exact ⟨lv, mem_inorder_node.mpr (Or.inr (Or.inl rfl))⟩
            rw [Ordered, hparts] at ht
            obtain ⟨hfront, _, hacross⟩ := List.pairwise_append.mp ht
            have hyFront : y ∈ before ++ left.inorder :=
              List.mem_append_right before hy
            have hlt := hacross y hyFront v List.mem_cons_self
            have hyKept : y ∈ kept.inorder := by
              refine (hmem y).mpr ⟨?_, ne_of_lt hlt⟩
              rw [hparts]
              exact List.mem_append_left _ hyFront
            rw [hkept, remains, hr, if_pos rfl, List.append_nil] at hyKept
            rcases List.mem_append.mp hyKept with hin | hin
            · exact lt_irrefl y
                ((List.pairwise_append.mp hfront).2.2 y hin y hy)
            · exact lt_irrefl y (hacross y hyFront y
                (List.mem_cons_of_mem v (List.mem_append_right _ hin)))

end TreeNode

open TreeNode hiding insert

/-- The tree hanging from `root`, none once the node there has been freed. -/
structure SearchTree (T : Type u) where
  root : Option (TreeNode T)

namespace SearchTree

variable {T : Type u} [LinearOrder T]

def empty : SearchTree T :=
  ⟨some null⟩

def insert (v : T) (tree : SearchTree T) : Option (Bool × SearchTree T) := do
  let root ← tree.root
  let (root, added) := root.insert v
  return (added, ⟨some root⟩)

/-- What the inner `Delete` returns is not assigned to `root`. -/
def delete (v : T) (tree : SearchTree T) : Option (Bool × SearchTree T) := do
  let root ← tree.root
  match root.find v with
  | null => return (false, tree)
  | node _ value _ =>
      let (kept, freed) ← root.delete value
      return (true, ⟨if freed then none else some kept⟩)

end SearchTree

/-! ### Runs -/

variable {T : Type u} [LinearOrder T]

inductive Call (T : Type u) where
  | insert (v : T)
  | delete (v : T)

/-- A search tree and the set of the values it should hold, with what the last
call returned and what it should have. -/
structure Session (T : Type u) where
  tree : SearchTree T
  values : Finset T
  returned : Bool
  expected : Bool

def Session.start : Session T :=
  ⟨SearchTree.empty, ∅, true, true⟩

def Session.step (s : Session T) : Call T → Option (Session T)
  | .insert v => do
      let (returned, tree) ← s.tree.insert v
      return ⟨tree, insert v s.values, returned, decide (v ∉ s.values)⟩
  | .delete v => do
      let (returned, tree) ← s.tree.delete v
      return ⟨tree, s.values.erase v, returned, decide (v ∈ s.values)⟩

/-- The values of the tree grow in order and are those of the set, and the last
call returned what it should. -/
structure Session.Correct (s : Session T) : Prop where
  tree : ∃ t, s.tree.root = some t ∧ t.inorder.Pairwise (· < ·) ∧
    ∀ x, x ∈ t.inorder ↔ x ∈ s.values
  returned_eq : s.returned = s.expected

/-- Nothing else is lost with what a call deletes. -/
def Session.Keeps (s : Session T) : Call T → Prop
  | .insert _ => True
  | .delete v => ∀ t, s.tree.root = some t → t.Removable v

variable {s : Session T}

theorem Session.Correct.step_iff (hs : s.Correct) (call : Call T) :
    (∃ next, s.step call = some next ∧ next.Correct) ↔ s.Keeps call := by
  obtain ⟨t, hroot, hordered, hmem⟩ := hs.tree
  have ht : t.Ordered := hordered
  cases call with
  | insert v =>
      refine iff_of_true ?_ trivial
      have hstep : s.step (.insert v) = some ⟨⟨some (t.insert v).1⟩,
          insert v s.values, (t.insert v).2, decide (v ∉ s.values)⟩ := by
        rw [Session.step, SearchTree.insert, hroot]
        rfl
      refine ⟨_, hstep, ⟨_, rfl, ht.insert v, fun x => ?_⟩, ?_⟩
      · rw [mem_insert, hmem, Finset.mem_insert]
      · rw [Bool.eq_iff_iff, insert_added ht, decide_eq_true_iff, hmem]
  | delete v =>
      have hkeeps : s.Keeps (.delete v) ↔ t.Removable v := by
        constructor
        · exact fun h => h t hroot
        · intro h other hother
          rw [hroot] at hother
          cases hother
          exact h
      rw [hkeeps]
      by_cases hv : v ∈ t.inorder
      · obtain ⟨left, right, _, _, kept, freed, hfind, _, hdelete, _, _⟩ :=
          delete_find ht hv
        have hstep : s.step (.delete v) = some
            ⟨⟨if freed then none else some kept⟩, s.values.erase v, true,
              decide (v ∈ s.values)⟩ := by
          rw [Session.step, SearchTree.delete, hroot, Option.bind_eq_bind,
            Option.bind_eq_bind, Option.bind_some, hfind]
          dsimp only
          rw [hdelete]
          rfl
        rw [removable_iff ht hv, hstep, hdelete]
        constructor
        · rintro ⟨next, hnext, hcorrect⟩
          cases hnext
          obtain ⟨other, hother, hordered', hmem'⟩ := hcorrect.tree
          cases freed with
          | true => cases hother
          | false =>
              cases hother
              refine ⟨kept, rfl, hordered', fun x => ?_⟩
              rw [hmem', Finset.mem_erase, hmem, and_comm]
        · rintro ⟨other, hother, hordered', hmem'⟩
          obtain ⟨rfl, rfl⟩ := Prod.mk.inj (Option.some.inj hother)
          refine ⟨_, rfl, ⟨kept, rfl, hordered', fun x => ?_⟩, ?_⟩
          · rw [hmem', Finset.mem_erase, hmem, and_comm]
          · exact (decide_eq_true ((hmem v).mp hv)).symm
      · have hfind := find_absent hv
        have hstep : s.step (.delete v) = some
            ⟨s.tree, s.values.erase v, false, decide (v ∈ s.values)⟩ := by
          rw [Session.step, SearchTree.delete, hroot, Option.bind_eq_bind,
            Option.bind_eq_bind, Option.bind_some, hfind]
          rfl
        have hout : v ∉ s.values := fun hin => hv ((hmem v).mpr hin)
        refine iff_of_true ⟨_, hstep, ⟨t, hroot, hordered, fun x => ?_⟩, ?_⟩ ?_
        · rw [Finset.erase_eq_of_notMem hout, hmem]
        · exact (decide_eq_false hout).symm
        · rw [Removable, hfind]
          trivial

/-- In every run from the empty tree, it is a sorted set throughout exactly
when every deletion is of a value that can be deleted. -/
theorem search_tree_is_set_iff (calls : List (Call T)) :
    Always Session.step Session.Correct Session.start calls ↔
      Along Session.step Session.Keeps Session.start calls := by
  have hstart : (Session.start : Session T).Correct :=
    ⟨⟨null, rfl, List.Pairwise.nil, fun x => by
      simp [Session.start, inorder]⟩, rfl⟩
  have halways := @always_iff_along_of_allowed _ _ Session.step Session.Keeps
    (fun _ _ => True) Session.Correct Session.start calls
    (fun s call hs _ => hs.step_iff call) (Along.of_forall fun _ _ _ => trivial)
  exact halways.trans (and_iff_right hstart)

/-- The root stays a pointer to the node that was freed. -/
theorem delete_only_node :
    ¬∀ calls : List (Call Int),
      Always Session.step Session.Correct Session.start calls := by
  intro hclaim
  obtain ⟨_, next, hnext, _, last, hlast, hcorrect⟩ :=
    hclaim [Call.insert 1, Call.delete 1]
  cases hnext
  cases hlast
  obtain ⟨_, hroot, _⟩ := hcorrect.tree
  cases hroot

end Sta

end LinuxTest
