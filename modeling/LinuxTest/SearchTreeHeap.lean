/-
The search tree node by node on a heap, from its construction to its
destruction.  A call that follows a null pointer or one to a deleted node has no
result.
-/
import LinuxTest.HeapTrees
import LinuxTest.Lockstep
import LinuxTest.SearchTree

namespace LinuxTest

namespace Sta

open NodeHeap (top nodes Owns Kept)

/-- `treenode`. -/
abbrev Cell (T : Type) := TreeCell T

/-- `SearchTree`, with the heap its nodes live in. -/
structure LinkedTree (T : Type) where
  heap : NodeHeap (Cell T)
  root : Option Nat

namespace LinkedTree

variable {T : Type}

/-- The heap and the pointer after `new treenode<T>(v)`. -/
def newNode (heap : NodeHeap (Cell T)) (v : T) :
    NodeHeap (Cell T) × Option Nat :=
  (heap.alloc ⟨v, none, none⟩, some heap.fresh)

def init : LinkedTree T :=
  { heap := NodeHeap.empty, root := none }

/-- The loop of `findMin`.  Neither a loop nor a recursion of the class goes
deeper than there are addresses in use. -/
def findMinLoop (heap : NodeHeap (Cell T)) :
    Nat → Option Nat → Option Nat → Option (Option Nat)
  | 0, _, _ => none
  | _ + 1, res, none => some res
  | fuel + 1, res, p => do
      let c ← heap.deref p
      let res := if c.left = none then p else res
      findMinLoop heap fuel res c.left

def findMinBelow (heap : NodeHeap (Cell T)) (fuel : Nat) (root : Option Nat) :
    Option (Option Nat) :=
  findMinLoop heap fuel none root

/-- The values that `printTree` prints. -/
def printTree (heap : NodeHeap (Cell T)) : Nat → Option Nat → Option (List T)
  | 0, _ => none
  | _ + 1, none => some []
  | fuel + 1, root => do
      let c ← heap.deref root
      let before ← printTree heap fuel c.left
      let behind ← printTree heap fuel c.right
      return before ++ c.value :: behind

/-- The `Delete` that the destructor calls. -/
def destroyBelow : Nat → NodeHeap (Cell T) → Option Nat →
    Option (NodeHeap (Cell T))
  | 0, _, _ => none
  | fuel + 1, heap, root => do
      let c ← heap.deref root
      let heap ← heap.delete root
      if c.left = none then return heap
      else
        let heap ← destroyBelow fuel heap c.left
        if c.right = none then return heap
        else destroyBelow fuel heap c.right

section Order

variable [LinearOrder T]

def insertBelow (v : T) : Nat → NodeHeap (Cell T) → Option Nat → Option Nat →
    Bool → Option (Bool × NodeHeap (Cell T))
  | 0, _, _, _, _ => none
  | _ + 1, heap, none, parent, isleft => do
      let (heap, pnode) := newNode heap v
      let heap ← heap.assign parent fun c =>
        if isleft then { c with left := pnode } else { c with right := pnode }
      return (true, heap)
  | fuel + 1, heap, pnode, _, _ => do
      let c ← heap.deref pnode
      if v < c.value then insertBelow v fuel heap c.left pnode true
      else if v > c.value then insertBelow v fuel heap c.right pnode false
      else return (false, heap)

def insert (v : T) (l : LinkedTree T) : Option (Bool × LinkedTree T) :=
  if l.root = none then
    let (heap, root) := newNode l.heap v
    some (true, { heap := heap, root := root })
  else do
    let c ← l.heap.deref l.root
    if v < c.value then
      let (added, heap) ←
        insertBelow v (l.heap.fresh + 1) l.heap c.left l.root true
      return (added, { l with heap := heap })
    else if v > c.value then
      let (added, heap) ←
        insertBelow v (l.heap.fresh + 1) l.heap c.right l.root false
      return (added, { l with heap := heap })
    else return (false, l)

def findBelow (heap : NodeHeap (Cell T)) (v : T) : Nat → Option Nat →
    Option (Option Nat)
  | 0, _ => none
  | _ + 1, none => some none
  | fuel + 1, root => do
      let c ← heap.deref root
      if c.value = v then return root
      else if c.value < v then findBelow heap v fuel c.right
      else findBelow heap v fuel c.left

/-- The inner `Delete`, which returns what takes the place of `root`. -/
def deleteBelow : Nat → NodeHeap (Cell T) → T → Option Nat →
    Option (Option Nat × NodeHeap (Cell T))
  | 0, _, _, _ => none
  | fuel + 1, heap, v, root => do
      let c ← heap.deref root
      if v > c.value then
        let (right, heap) ← deleteBelow fuel heap v c.right
        let heap ← heap.assign root fun c => { c with right := right }
        return (root, heap)
      else if v < c.value then
        let (left, heap) ← deleteBelow fuel heap v c.left
        let heap ← heap.assign root fun c => { c with left := left }
        return (root, heap)
      else if c.left ≠ none ∧ c.right ≠ none then
        let temp ← findMinBelow heap fuel c.right
        let least ← heap.deref temp
        let heap ← heap.assign root fun c => { c with value := least.value }
        let c ← heap.deref root
        let (right, heap) ← deleteBelow fuel heap c.value c.right
        let heap ← heap.assign root fun c => { c with right := right }
        return (root, heap)
      else if c.right ≠ none then
        let heap ← heap.delete root
        return (c.right, heap)
      else
        let heap ← heap.delete root
        return (none, heap)

/-- What the inner `Delete` returns is not assigned to `root`. -/
def Delete (v : T) (l : LinkedTree T) : Option (Bool × LinkedTree T) := do
  let del ← findBelow l.heap v (l.heap.fresh + 1) l.root
  if del = none then return (false, l)
  else
    let c ← l.heap.deref del
    let (_, heap) ← deleteBelow (l.heap.fresh + 1) l.heap c.value l.root
    return (true, { l with heap := heap })

end Order

def findMin (l : LinkedTree T) : Option T := do
  let p ← findMinBelow l.heap (l.heap.fresh + 1) l.root
  let c ← l.heap.deref p
  return c.value

/-- The values that `operator<<` prints. -/
def print (l : LinkedTree T) : Option (List T) :=
  printTree l.heap (l.heap.fresh + 1) l.root

/-- `~SearchTree`. -/
def destroy (l : LinkedTree T) : Option (NodeHeap (Cell T)) :=
  destroyBelow (l.heap.fresh + 1) l.heap l.root

/-! ### The tree of values -/

/-- The tree without its addresses. -/
def forget : BinaryTree (Nat × T) → TreeNode T
  | .nil => .null
  | .node item l r => .node (forget l) item.2 (forget r)

variable {heap : NodeHeap (Cell T)} {t l r : BinaryTree (Nat × T)}
  {rest : List Nat} {fuel a : Nat} {v x : T}

theorem isNull_forget (t : BinaryTree (Nat × T)) :
    (forget t).isNull = (top t).isNone := by
  cases t with
  | nil => rfl
  | node item l r => rfl

theorem findMinLoop_some (heap : NodeHeap (Cell T)) (fuel n : Nat)
    (res : Option Nat) :
    findMinLoop heap (fuel + 1) res (some n) = (heap.cells n).bind fun c =>
      findMinLoop heap fuel (if c.left = none then some n else res) c.left :=
  rfl

theorem findMinLoop_eq (hstands : heap.Stands t) (hne : t ≠ .nil)
    (hfuel : t.numNodes < fuel) (res : Option Nat) :
    ∃ n c, findMinLoop heap fuel res (top t) = some (some n) ∧
      heap.cells n = some c ∧ (forget t).findMin = some c.value := by
  induction t generalizing fuel res with
  | nil => exact absurd rfl hne
  | node item l r ihl _ =>
      obtain ⟨fuel, rfl⟩ : ∃ k, fuel = k + 1 := ⟨fuel - 1, by omega⟩
      obtain ⟨hcell, hl, -⟩ := hstands
      rw [BinaryTree.numNodes] at hfuel
      have hsmall : l.numNodes < fuel := by omega
      rw [NodeHeap.top_node, findMinLoop_some, hcell, Option.bind_some]
      cases l with
      | nil =>
          obtain ⟨fuel, rfl⟩ : ∃ k, fuel = k + 1 := ⟨fuel - 1, by omega⟩
          exact ⟨item.1, _, rfl, hcell, rfl⟩
      | node other ll lr =>
          obtain ⟨n, c, hloop, hn, hmin⟩ := ihl hl (by simp) hsmall res
          exact ⟨n, c, hloop, hn, hmin⟩

theorem printTree_eq (hstands : heap.Stands t) (hfuel : t.numNodes < fuel) :
    printTree heap fuel (top t) = some (forget t).inorder := by
  induction t generalizing fuel with
  | nil =>
      obtain ⟨fuel, rfl⟩ : ∃ k, fuel = k + 1 := ⟨fuel - 1, by omega⟩
      rfl
  | node item l r ihl ihr =>
      obtain ⟨fuel, rfl⟩ : ∃ k, fuel = k + 1 := ⟨fuel - 1, by omega⟩
      obtain ⟨hcell, hl, hr⟩ := hstands
      rw [BinaryTree.numNodes] at hfuel
      have hbefore := ihl hl (show l.numNodes < fuel by omega)
      have hbehind := ihr hr (show r.numNodes < fuel by omega)
      simp only [NodeHeap.top_node, printTree, NodeHeap.deref_some, hcell,
        Option.bind_eq_bind, Option.bind_some, hbefore, hbehind]
      rfl

/-! ### The destruction -/

/-- The nodes that the destructor leaves: it goes to the right only where there
is a node on the left. -/
def skipped : TreeNode T → Nat
  | .null => 0
  | .node left _ right =>
      if left.isNull then right.inorder.length
      else skipped left + skipped right

theorem length_inorder_forget (t : BinaryTree (Nat × T)) :
    (forget t).inorder.length = (nodes t).length := by
  induction t with
  | nil => rfl
  | node item l r ihl ihr =>
      rw [forget, TreeNode.inorder, List.length_append, List.length_cons, ihl,
        ihr, NodeHeap.nodes_node, List.length_cons, List.length_append]
      omega

theorem destroyBelow_eq (howns : heap.Owns t rest) (hne : t ≠ .nil)
    (hfuel : t.numNodes < fuel) :
    ∃ heap' lost, destroyBelow fuel heap (top t) = some heap' ∧
      heap'.Owns (.nil : BinaryTree (Nat × T)) (lost ++ rest) ∧
      Kept heap heap' rest ∧ lost.length = skipped (forget t) := by
  induction t generalizing heap rest fuel with
  | nil => exact absurd rfl hne
  | node item l r ihl ihr =>
      obtain ⟨a, v⟩ := item
      obtain ⟨fuel, rfl⟩ : ∃ k, fuel = k + 1 := ⟨fuel - 1, by omega⟩
      rw [BinaryTree.numNodes] at hfuel
      have hcell : heap.cells a = some ⟨v, top l, top r⟩ := howns.stands.1
      have ha : a ∉ rest := fun hm => howns.not_mem hm List.mem_cons_self
      have hleft : (heap.remove a).Owns l (nodes r ++ rest) :=
        howns.left.remove
      have hgone : Kept heap (heap.remove a) rest := NodeHeap.kept_remove ha
      have hround : destroyBelow (fuel + 1) heap (some a) =
          if top l = none then some (heap.remove a)
          else (destroyBelow fuel (heap.remove a) (top l)).bind fun heap =>
            if top r = none then some heap
            else destroyBelow fuel heap (top r) := by
        rw [destroyBelow, NodeHeap.deref_some, hcell,
          NodeHeap.delete_some hcell]
        rfl
      have hsmall : l.numNodes < fuel ∧ r.numNodes < fuel := by omega
      rw [NodeHeap.top_node, hround]
      cases l with
      | nil =>
          refine ⟨_, nodes r, rfl, hleft, hgone, ?_⟩
          rw [← length_inorder_forget]
          rfl
      | node left ll lr =>
          obtain ⟨heap₁, lost₁, hdestroy₁, howns₁, hkept₁, hlost₁⟩ :=
            ihl hleft (by simp) hsmall.1
          have hright : heap₁.Owns r (lost₁ ++ rest) := by
            have hr : (heap.remove a).Stands r := howns.right.remove.stands
            refine ⟨hr.frame fun m hm => hkept₁ m ?_, ?_, ?_⟩
            · exact List.mem_append_left _ hm
            · have hperm : (lost₁ ++ (nodes r ++ rest)).Perm
                  (nodes r ++ (lost₁ ++ rest)) := by
                rw [← List.append_assoc, ← List.append_assoc]
                exact List.perm_append_comm.append_right rest
              exact hperm.nodup_iff.mp howns₁.distinct
            · refine howns₁.holds.congr fun n => ?_
              simp only [NodeHeap.nodes_nil, List.nil_append, List.mem_append]
              tauto
          have hkept₂ : Kept heap heap₁ rest :=
            hgone.trans (hkept₁.sub (List.subset_append_right _ _))
          rw [if_neg (by simp), hdestroy₁, Option.bind_some]
          cases r with
          | nil => exact ⟨heap₁, lost₁, rfl, hright, hkept₂, hlost₁⟩
          | node right rl rr =>
              obtain ⟨heap₂, lost₂, hdestroy₂, howns₂, hkept₃, hlost₂⟩ :=
                ihr hright (by simp) hsmall.2
              refine ⟨heap₂, lost₂ ++ lost₁, ?_, ?_, ?_, ?_⟩
              · rw [if_neg (by simp)]
                exact hdestroy₂
              · rw [List.append_assoc]
                exact howns₂
              · exact hkept₂.trans
                  (hkept₃.sub (List.subset_append_right _ _))
              · rw [List.length_append, hlost₁, hlost₂]
                exact Nat.add_comm _ _

/-! ### Insertion and search -/

section Order

variable [LinearOrder T]

theorem insertBelow_none (v : T) (fuel : Nat) (heap : NodeHeap (Cell T))
    (parent : Option Nat) (isleft : Bool) :
    insertBelow v (fuel + 1) heap none parent isleft =
      ((heap.alloc ⟨v, none, none⟩).assign parent fun c =>
        if isleft then { c with left := some heap.fresh }
        else { c with right := some heap.fresh }).map (Prod.mk true) := by
  simp only [insertBelow, newNode, Option.map_eq_bind]
  rfl

theorem insertBelow_some (v : T) (fuel : Nat) (heap : NodeHeap (Cell T))
    (n : Nat) (parent : Option Nat) (isleft : Bool) :
    insertBelow v (fuel + 1) heap (some n) parent isleft =
      (heap.cells n).bind fun c =>
        if v < c.value then insertBelow v fuel heap c.left (some n) true
        else if v > c.value then insertBelow v fuel heap c.right (some n) false
        else some (false, heap) :=
  rfl

theorem insertBelow_eq (howns : heap.Owns t rest) (hne : t ≠ .nil)
    (hfuel : t.numNodes < fuel) (v : T) (parent : Option Nat) (isleft : Bool) :
    ∃ heap' t', insertBelow v fuel heap (top t) parent isleft =
        some (((forget t).insert v).2, heap') ∧
      top t' = top t ∧ forget t' = ((forget t).insert v).1 ∧
      heap'.Owns t' rest ∧ Kept heap heap' rest := by
  induction t generalizing rest fuel parent isleft with
  | nil => exact absurd rfl hne
  | node item l r ihl ihr =>
      obtain ⟨a, x⟩ := item
      obtain ⟨fuel, rfl⟩ : ∃ k, fuel = k + 1 := ⟨fuel - 1, by omega⟩
      rw [BinaryTree.numNodes] at hfuel
      obtain ⟨hcell, hl, hr⟩ := howns.stands
      have hsmall : l.numNodes < fuel ∧ r.numNodes < fuel := by omega
      have ha : a ∉ rest := fun hm => howns.not_mem hm List.mem_cons_self
      rw [NodeHeap.top_node, insertBelow_some, hcell, Option.bind_some, forget,
        TreeNode.insert]
      by_cases hlt : v < x
      · rw [if_pos hlt, if_pos hlt]
        by_cases hnil : l = .nil
        · subst hnil
          have hkept := howns.left.kept_alloc ⟨v, none, none⟩
          have hcell' := hkept a List.mem_cons_self
          rw [hcell] at hcell'
          have hr' := hr.frame fun m hm => hkept m
            (List.mem_cons_of_mem a (List.mem_append_left _ hm))
          obtain ⟨fuel, rfl⟩ : ∃ k, fuel = k + 1 := ⟨fuel - 1, by omega⟩
          refine ⟨_, .node (a, x) (.node (heap.fresh, v) .nil .nil) r, ?_, rfl,
            rfl, (howns.left.alloc v).setLeft hcell' hr', ?_⟩
          · rw [NodeHeap.top_nil, insertBelow_none, NodeHeap.assign_some hcell']
            rfl
          · exact (hkept.sub fun m hm => by simp [hm]).trans
              (NodeHeap.kept_change ha _)
        · obtain ⟨heap', l', heq, htop, hforget, howns', hkept⟩ :=
            ihl howns.left hnil hsmall.1 (some a) true
          refine ⟨heap', .node (a, x) l' r, heq, rfl, ?_, ?_,
            hkept.sub fun m hm => by simp [hm]⟩
          · rw [forget, hforget]
          · refine howns'.node_left ?_ (hr.frame fun m hm => hkept m ?_)
            · rw [hkept a List.mem_cons_self, hcell, htop]
            · exact List.mem_cons_of_mem a (List.mem_append_left _ hm)
      · rw [if_neg hlt, if_neg hlt]
        by_cases hgt : v > x
        · rw [if_pos hgt, if_pos hgt]
          by_cases hnil : r = .nil
          · subst hnil
            have hkept := howns.right.kept_alloc ⟨v, none, none⟩
            have hcell' := hkept a List.mem_cons_self
            rw [hcell] at hcell'
            have hl' := hl.frame fun m hm => hkept m
              (List.mem_cons_of_mem a (List.mem_append_left _ hm))
            obtain ⟨fuel, rfl⟩ : ∃ k, fuel = k + 1 := ⟨fuel - 1, by omega⟩
            refine ⟨_, .node (a, x) l (.node (heap.fresh, v) .nil .nil), ?_,
              rfl, rfl, (howns.right.alloc v).setRight hcell' hl', ?_⟩
            · rw [NodeHeap.top_nil, insertBelow_none,
                NodeHeap.assign_some hcell']
              rfl
            · exact (hkept.sub fun m hm => by simp [hm]).trans
                (NodeHeap.kept_change ha _)
          · obtain ⟨heap', r', heq, htop, hforget, howns', hkept⟩ :=
              ihr howns.right hnil hsmall.2 (some a) false
            refine ⟨heap', .node (a, x) l r', heq, rfl, ?_, ?_,
              hkept.sub fun m hm => by simp [hm]⟩
            · rw [forget, hforget]
            · refine howns'.node_right ?_ (hl.frame fun m hm => hkept m ?_)
              · rw [hkept a List.mem_cons_self, hcell, htop]
              · exact List.mem_cons_of_mem a (List.mem_append_left _ hm)
        · rw [if_neg hgt, if_neg hgt]
          exact ⟨heap, .node (a, x) l r, rfl, rfl, rfl, howns, fun _ _ => rfl⟩

/-- The pointer found is to the node that the search in the values finds. -/
theorem findBelow_eq (hstands : heap.Stands t) (hfuel : t.numNodes < fuel)
    (v : T) :
    ∃ s, findBelow heap v fuel (top t) = some (top s) ∧ heap.Stands s ∧
      forget s = (forget t).find v := by
  induction t generalizing fuel with
  | nil =>
      obtain ⟨fuel, rfl⟩ : ∃ k, fuel = k + 1 := ⟨fuel - 1, by omega⟩
      exact ⟨.nil, rfl, trivial, rfl⟩
  | node item l r ihl ihr =>
      obtain ⟨fuel, rfl⟩ : ∃ k, fuel = k + 1 := ⟨fuel - 1, by omega⟩
      rw [BinaryTree.numNodes] at hfuel
      have hsmall : l.numNodes < fuel ∧ r.numNodes < fuel := by omega
      have hround : findBelow heap v (fuel + 1) (some item.1) =
          if item.2 = v then some (some item.1)
          else if item.2 < v then findBelow heap v fuel (top r)
          else findBelow heap v fuel (top l) := by
        simp only [findBelow, NodeHeap.deref_some, hstands.1]
        rfl
      rw [NodeHeap.top_node, hround, forget, TreeNode.find]
      by_cases heq : item.2 = v
      · rw [if_pos heq, if_pos heq]
        exact ⟨.node item l r, rfl, hstands, rfl⟩
      · rw [if_neg heq, if_neg heq]
        by_cases hlt : item.2 < v
        · rw [if_pos hlt, if_pos hlt]
          exact ihr hstands.2.2 hsmall.2
        · rw [if_neg hlt, if_neg hlt]
          exact ihl hstands.2.1 hsmall.1

/-! ### Deletion -/

theorem delete_inner {left right : TreeNode T} (hl : left.isNull = false)
    (hr : right.isNull = false) (v : T) :
    (TreeNode.node left v right).delete v = right.findMin.bind fun temp =>
      (right.delete temp).map fun result =>
        (.node left temp result.1, false) := by
  rw [TreeNode.delete, if_neg (lt_irrefl v), if_neg (lt_irrefl v), hl, hr]
  cases right.findMin with
  | none => rfl
  | some temp =>
      change (right.delete temp).bind _ = (right.delete temp).map _
      rw [Option.map_eq_bind]
      rfl

theorem delete_outer {left right : TreeNode T}
    (hnull : left.isNull = true ∨ right.isNull = true) (v : T) :
    (TreeNode.node left v right).delete v = some (right, true) := by
  rw [TreeNode.delete, if_neg (lt_irrefl v), if_neg (lt_irrefl v)]
  cases right with
  | null => simp [TreeNode.isNull]
  | node rl rv rr =>
      have hl : left.isNull = true := hnull.resolve_right Bool.false_ne_true
      rw [hl]
      rfl

variable {c : Cell T}

theorem deleteBelow_right (hcell : heap.cells a = some c) (hgt : v > c.value) :
    deleteBelow (fuel + 1) heap v (some a) =
      (deleteBelow fuel heap v c.right).bind fun r =>
        (r.2.assign (some a) fun c => { c with right := r.1 }).map
          (Prod.mk (some a)) := by
  simp only [deleteBelow, NodeHeap.deref_some, hcell, Option.bind_eq_bind,
    Option.bind_some, if_pos hgt, Option.map_eq_bind]
  rfl

theorem deleteBelow_left (hcell : heap.cells a = some c) (hlt : v < c.value) :
    deleteBelow (fuel + 1) heap v (some a) =
      (deleteBelow fuel heap v c.left).bind fun r =>
        (r.2.assign (some a) fun c => { c with left := r.1 }).map
          (Prod.mk (some a)) := by
  simp only [deleteBelow, NodeHeap.deref_some, hcell, Option.bind_eq_bind,
    Option.bind_some, if_neg (lt_asymm hlt), if_pos hlt, Option.map_eq_bind]
  rfl

/-- The value of the least node on the right is put in place of `c.value`. -/
theorem deleteBelow_inner {n : Nat} {least : Cell T}
    (hcell : heap.cells a = some c) (hl : c.left ≠ none) (hr : c.right ≠ none)
    (hmin : findMinBelow heap fuel c.right = some (some n))
    (hn : heap.cells n = some least) :
    deleteBelow (fuel + 1) heap c.value (some a) =
      (deleteBelow fuel
        (heap.change a fun c => { c with value := least.value }) least.value
        c.right).bind fun r =>
          (r.2.assign (some a) fun c => { c with right := r.1 }).map
            (Prod.mk (some a)) := by
  have hcell' : (heap.change a fun c => { c with value := least.value }).cells
      a = some { c with value := least.value } := by
    rw [NodeHeap.change_cells_self, hcell]
    rfl
  simp only [deleteBelow, NodeHeap.deref_some, hcell, Option.bind_eq_bind,
    Option.bind_some, if_neg (lt_irrefl c.value), ne_eq, hl, hr,
    not_false_eq_true, and_self, if_true, hmin, hn,
    NodeHeap.assign_some hcell, hcell', Option.map_eq_bind]
  rfl

theorem deleteBelow_outer (hcell : heap.cells a = some c)
    (hnone : c.left = none ∨ c.right = none) :
    deleteBelow (fuel + 1) heap c.value (some a) =
      some (c.right, heap.remove a) := by
  have hnot : ¬(c.left ≠ none ∧ c.right ≠ none) := by tauto
  simp only [deleteBelow, NodeHeap.deref_some, hcell, Option.bind_eq_bind,
    Option.bind_some, if_neg (lt_irrefl c.value), if_neg hnot,
    NodeHeap.delete_some hcell]
  split
  · rfl
  · case isFalse hright =>
      rw [not_not.mp hright]
      rfl

omit [LinearOrder T] in
/-- A subtree that took the place of the right one is hung in. -/
theorem hang_right {heap heap₁ : NodeHeap (Cell T)} {r' : BinaryTree (Nat × T)}
    {lost : List Nat} {p : Option Nat}
    (howns : heap₁.Owns r' (lost ++ a :: (nodes l ++ rest)))
    (hcell : heap₁.cells a = some ⟨x, top l, p⟩) (hl : heap₁.Stands l)
    (hkept : Kept heap heap₁ rest) (ha : a ∉ rest) :
    ∃ heap', heap₁.assign (some a) (fun c => { c with right := top r' }) =
        some heap' ∧
      heap'.Owns (.node (a, x) l r') (lost ++ rest) ∧ Kept heap heap' rest :=
  ⟨_, NodeHeap.assign_some hcell,
    (howns.perm (NodeHeap.aside_perm lost rest (nodes l) a)).setRight hcell hl,
    hkept.trans (NodeHeap.kept_change ha _)⟩

omit [LinearOrder T] in
theorem hang_left {heap heap₁ : NodeHeap (Cell T)} {l' : BinaryTree (Nat × T)}
    {lost : List Nat} {p : Option Nat}
    (howns : heap₁.Owns l' (lost ++ a :: (nodes r ++ rest)))
    (hcell : heap₁.cells a = some ⟨x, p, top r⟩) (hr : heap₁.Stands r)
    (hkept : Kept heap heap₁ rest) (ha : a ∉ rest) :
    ∃ heap', heap₁.assign (some a) (fun c => { c with left := top l' }) =
        some heap' ∧
      heap'.Owns (.node (a, x) l' r) (lost ++ rest) ∧ Kept heap heap' rest :=
  ⟨_, NodeHeap.assign_some hcell,
    (howns.perm (NodeHeap.aside_perm lost rest (nodes r) a)).setLeft hcell hr,
    hkept.trans (NodeHeap.kept_change ha _)⟩

/-- One node is freed: the one passed in, or one below. What comes off the tree
with it stays allocated. -/
theorem deleteBelow_eq {kept : TreeNode T} {freed : Bool}
    (howns : heap.Owns t rest) (hfuel : t.numNodes < fuel)
    (hdelete : (forget t).delete v = some (kept, freed)) :
    ∃ heap' t' lost, deleteBelow fuel heap v (top t) = some (top t', heap') ∧
      forget t' = kept ∧ heap'.Owns t' (lost ++ rest) ∧ Kept heap heap' rest ∧
      (nodes t').length + lost.length + 1 = (nodes t).length ∧
      if freed then ∀ a, top t = some a → heap'.cells a = none
      else top t' = top t := by
  induction t generalizing heap rest fuel v kept freed with
  | nil => cases hdelete
  | node item l r ihl ihr =>
      obtain ⟨a, x⟩ := item
      obtain ⟨fuel, rfl⟩ : ∃ k, fuel = k + 1 := ⟨fuel - 1, by omega⟩
      rw [BinaryTree.numNodes] at hfuel
      obtain ⟨hcell, hl, hr⟩ := howns.stands
      have hsmall : l.numNodes < fuel ∧ r.numNodes < fuel := by omega
      have ha : a ∉ rest := fun hm => howns.not_mem hm List.mem_cons_self
      rw [forget] at hdelete
      rw [NodeHeap.top_node]
      rcases lt_trichotomy v x with hlt | rfl | hgt
      · -- In the left subtree.
        rw [TreeNode.delete_left hlt] at hdelete
        obtain ⟨⟨below, _⟩, hbelow, heq⟩ := Option.map_eq_some_iff.mp hdelete
        cases heq
        obtain ⟨heap₁, l', lost, hcode, hforget, howns₁, hkept₁, hlength, -⟩ :=
          ihl howns.left hsmall.1 hbelow
        have hcell₁ := hkept₁ a List.mem_cons_self
        rw [hcell] at hcell₁
        have hr₁ : heap₁.Stands r := hr.frame fun m hm =>
          hkept₁ m (List.mem_cons_of_mem a (List.mem_append_left _ hm))
        obtain ⟨heap', hassign, howns', hkept'⟩ := hang_left howns₁ hcell₁ hr₁
          (hkept₁.sub fun m hm => by simp [hm]) ha
        refine ⟨heap', .node (a, x) l' r, lost, ?_, ?_, howns', hkept', ?_, rfl⟩
        · rw [deleteBelow_left hcell hlt, hcode, Option.bind_some, hassign]
          rfl
        · rw [forget, hforget]
        · simp only [NodeHeap.nodes_node, List.length_cons, List.length_append]
          omega
      · cases hside : (top l).isNone || (top r).isNone with
        | true =>
            -- The node itself is freed, with its left subtree hanging from it.
            have hnone : top l = none ∨ top r = none := by
              simpa [Bool.or_eq_true] using hside
            have hnull : (forget l).isNull = true ∨
                (forget r).isNull = true := by
              rw [isNull_forget, isNull_forget]
              simpa [Bool.or_eq_true] using hside
            rw [delete_outer hnull] at hdelete
            cases hdelete
            refine ⟨heap.remove a, r, nodes l, deleteBelow_outer hcell hnone,
              rfl, howns.right.remove, NodeHeap.kept_remove ha, ?_, ?_⟩
            · simp only [NodeHeap.nodes_node, List.length_cons,
                List.length_append]
              omega
            · intro b hb
              cases hb
              exact NodeHeap.remove_cells_self heap a
        | false =>
            -- The least node on the right is freed in its place.
            obtain ⟨hl₀, hr₀⟩ :
                (top l).isNone = false ∧ (top r).isNone = false := by
              simpa [Bool.or_eq_false_iff] using hside
            have hr₁ : r ≠ .nil := fun h => by simp [h] at hr₀
            rw [delete_inner ((isNull_forget l).trans hl₀)
              ((isNull_forget r).trans hr₀)] at hdelete
            obtain ⟨n, least, hmin, hn, hleast⟩ :=
              findMinLoop_eq hr hr₁ hsmall.2 none
            rw [hleast, Option.bind_some] at hdelete
            obtain ⟨⟨below, _⟩, hbelow, heq⟩ :=
              Option.map_eq_some_iff.mp hdelete
            cases heq
            have hchanged := howns.right.change List.mem_cons_self fun c =>
              { c with value := least.value }
            obtain ⟨heap₁, r', lost, hcode, hforget, howns₁, hkept₁, hlength,
              -⟩ := ihr hchanged hsmall.2 hbelow
            have hcell₁ := hkept₁ a List.mem_cons_self
            rw [NodeHeap.change_cells_self, hcell] at hcell₁
            have hla : a ∉ nodes l := fun hm =>
              howns.left.not_mem List.mem_cons_self hm
            have hl₁ : heap₁.Stands l := hl.frame fun m hm =>
              (hkept₁ m (List.mem_cons_of_mem a
                (List.mem_append_left _ hm))).trans
                (NodeHeap.change_cells_of_ne fun heq => hla (heq ▸ hm))
            have hkept₂ : Kept heap heap₁ rest :=
              (NodeHeap.kept_change ha _).trans
                (hkept₁.sub fun m hm => by simp [hm])
            obtain ⟨heap', hassign, howns', hkept'⟩ :=
              hang_right howns₁ hcell₁ hl₁ hkept₂ ha
            refine ⟨heap', .node (a, least.value) l r', lost, ?_, ?_, howns',
              hkept', ?_, rfl⟩
            · have hboth : top l ≠ none ∧ top r ≠ none :=
                ⟨fun h => by simp [h] at hl₀, fun h => by simp [h] at hr₀⟩
              rw [deleteBelow_inner hcell hboth.1 hboth.2 hmin hn, hcode,
                Option.bind_some, hassign]
              rfl
            · rw [forget, hforget]
            · simp only [NodeHeap.nodes_node, List.length_cons,
                List.length_append]
              omega
      · -- In the right subtree.
        rw [TreeNode.delete_right hgt] at hdelete
        obtain ⟨⟨below, _⟩, hbelow, heq⟩ := Option.map_eq_some_iff.mp hdelete
        cases heq
        obtain ⟨heap₁, r', lost, hcode, hforget, howns₁, hkept₁, hlength, -⟩ :=
          ihr howns.right hsmall.2 hbelow
        have hcell₁ := hkept₁ a List.mem_cons_self
        rw [hcell] at hcell₁
        have hl₁ : heap₁.Stands l := hl.frame fun m hm =>
          hkept₁ m (List.mem_cons_of_mem a (List.mem_append_left _ hm))
        obtain ⟨heap', hassign, howns', hkept'⟩ := hang_right howns₁ hcell₁ hl₁
          (hkept₁.sub fun m hm => by simp [hm]) ha
        refine ⟨heap', .node (a, x) l r', lost, ?_, ?_, howns', hkept', ?_, rfl⟩
        · rw [deleteBelow_right hcell hgt, hcode, Option.bind_some, hassign]
          rfl
        · rw [forget, hforget]
        · simp only [NodeHeap.nodes_node, List.length_cons, List.length_append]
          omega

end Order

/-! ### Calls -/

inductive Call (T : Type) where
  | insert (v : T)
  | Delete (v : T)
  | findMin
  | print

inductive Answer (T : Type) where
  | bool (b : Bool)
  | value (v : T)
  | values (vs : List T)
deriving DecidableEq

variable [LinearOrder T]

def step (l : LinkedTree T) : Call T → Option (Answer T × LinkedTree T)
  | .insert v => (l.insert v).map fun r => (.bool r.1, r.2)
  | .Delete v => (l.Delete v).map fun r => (.bool r.1, r.2)
  | .findMin => l.findMin.map fun v => (.value v, l)
  | .print => l.print.map fun vs => (.values vs, l)

/-- The answers of a tree from its construction to its destruction, and the
nodes that are still allocated afterwards. -/
def life (calls : List (Call T)) : Option (List (Answer T) × List Nat) := do
  let (given, l) ← answers step init calls
  let heap ← l.destroy
  return (given, heap.live)

/-- The nodes that come off the tree with the one that holds `v`. -/
def comesOff (v : T) (t : TreeNode T) : Nat :=
  match t.find v with
  | .null => 0
  | .node left _ right => if right.isNull then left.inorder.length else 0

/-- The tree of values, and the number of nodes that came off it. -/
structure Values (T : Type) where
  tree : SearchTree T
  lost : Nat

def Values.start : Values T := ⟨SearchTree.empty, 0⟩

def spec (s : Values T) : Call T → Option (Answer T × Values T)
  | .insert v =>
      (s.tree.insert v).map fun r => (.bool r.1, { s with tree := r.2 })
  | .Delete v => s.tree.root.bind fun t =>
      (s.tree.delete v).map fun r => (.bool r.1, ⟨r.2, s.lost + comesOff v t⟩)
  | .findMin => s.tree.root.bind fun t => t.findMin.map fun v => (.value v, s)
  | .print => s.tree.root.map fun t => (.values t.inorder, s)

/-- The number of nodes that are left over, unless there is none at the root
when the tree is destroyed. -/
def specLife (calls : List (Call T)) : Option (List (Answer T) × Nat) := do
  let (given, s) ← answers spec Values.start calls
  let t ← s.tree.root
  if t.isNull then none else return (given, s.lost + skipped t)

/-- The nodes that hang from `root` hold the values, and as many others as came
off are allocated; or the node at `root` has been freed. -/
def Represents (l : LinkedTree T) (s : Values T) : Prop :=
  match s.tree.root with
  | none => ∃ a, l.root = some a ∧ l.heap.cells a = none
  | some t => t.Ordered ∧ ∃ b lost, forget b = t ∧ l.root = top b ∧
      l.heap.Owns b lost ∧ lost.length = s.lost

variable {l : LinkedTree T} {s : Values T}

theorem represents_init :
    (init : LinkedTree T).Represents Values.start :=
  ⟨List.Pairwise.nil, .nil, [], rfl, rfl, NodeHeap.owns_empty, rfl⟩

/-- At the root `insert` does what it does below. -/
theorem insert_some (heap : NodeHeap (Cell T)) (n : Nat) (v : T) :
    insert v ⟨heap, some n⟩ =
      (insertBelow v (heap.fresh + 2) heap (some n) none true).map fun r =>
        (r.1, ⟨r.2, some n⟩) := by
  rw [insertBelow_some, insert, if_neg (Option.some_ne_none n),
    NodeHeap.deref_some]
  cases heap.cells n with
  | none => rfl
  | some c =>
      rw [Option.bind_eq_bind, Option.bind_some, Option.bind_some]
      split
      · rw [Option.map_eq_bind]
        rfl
      · split
        · rw [Option.map_eq_bind]
          rfl
        · rfl

theorem insert_eq (howns : l.heap.Owns t rest) (hroot : l.root = top t)
    (v : T) :
    ∃ l' t', l.insert v = some (((forget t).insert v).2, l') ∧
      forget t' = ((forget t).insert v).1 ∧ l'.root = top t' ∧
      l'.heap.Owns t' rest := by
  obtain ⟨heap, root⟩ := l
  change root = top t at hroot
  have hfuel : t.numNodes < heap.fresh + 2 :=
    Nat.lt_succ_of_le (Nat.le_succ_of_le howns.numNodes_le)
  subst hroot
  cases t with
  | nil =>
      exact ⟨_, .node (heap.fresh, v) .nil .nil, rfl, rfl, rfl, howns.alloc v⟩
  | node item left right =>
      obtain ⟨heap', t', hbelow, htop, hforget, howns', -⟩ :=
        insertBelow_eq howns (by simp) hfuel v none true
      refine ⟨⟨heap', some item.1⟩, t', ?_, hforget, htop.symm, howns'⟩
      rw [NodeHeap.top_node] at hbelow ⊢
      rw [insert_some, hbelow]
      rfl

theorem Delete_absent (howns : l.heap.Owns t rest) (hroot : l.root = top t)
    (hfind : (forget t).find v = .null) : l.Delete v = some (false, l) := by
  have hfuel : t.numNodes < l.heap.fresh + 1 :=
    Nat.lt_succ_of_le howns.numNodes_le
  obtain ⟨found, hfound, -, hforget⟩ := findBelow_eq howns.stands hfuel v
  rw [hfind] at hforget
  cases found with
  | nil =>
      rw [Delete, hroot, hfound]
      rfl
  | node item left right => cases hforget

theorem Delete_found {left right kept : TreeNode T} {freed : Bool}
    (howns : l.heap.Owns t rest) (hroot : l.root = top t)
    (hfind : (forget t).find v = .node left v right)
    (hdelete : (forget t).delete v = some (kept, freed)) :
    ∃ l' t' lost, l.Delete v = some (true, l') ∧ forget t' = kept ∧
      (nodes t').length + lost.length + 1 = (nodes t).length ∧
      l'.root = l.root ∧ l'.heap.Owns t' (lost ++ rest) ∧
      if freed then ∀ a, top t = some a → l'.heap.cells a = none
      else l'.root = top t' := by
  have hfuel : t.numNodes < l.heap.fresh + 1 :=
    Nat.lt_succ_of_le howns.numNodes_le
  obtain ⟨found, hfound, hstands, hforget⟩ := findBelow_eq howns.stands hfuel v
  rw [hfind] at hforget
  cases found with
  | nil => cases hforget
  | node item fl fr =>
      obtain ⟨a, x⟩ := item
      obtain ⟨-, rfl, -⟩ := TreeNode.node.inj hforget
      obtain ⟨heap', t', lost, hbelow, hkept, howns', -, hlength, htop⟩ :=
        deleteBelow_eq howns hfuel hdelete
      refine ⟨{ l with heap := heap' }, t', lost, ?_, hkept, hlength, rfl,
        howns', ?_⟩
      · have hcell : l.heap.cells a = some ⟨x, top fl, top fr⟩ := hstands.1
        rw [Delete, hroot, hfound, Option.bind_eq_bind, Option.bind_some,
          NodeHeap.top_node, if_neg (Option.some_ne_none _),
          NodeHeap.deref_some, hcell, Option.bind_eq_bind, Option.bind_some,
          hbelow]
        rfl
      · cases freed with
        | true => exact htop
        | false => exact hroot.trans htop.symm

theorem length_remaining {left right : TreeNode T}
    {before behind : List T} {kept : TreeNode T}
    (hfind : (forget t).find v = .node left v right)
    (horder : (forget t).inorder =
      before ++ (TreeNode.node left v right).inorder ++ behind)
    (hkept : kept.inorder = before ++ TreeNode.remains left right ++ behind) :
    (forget t).inorder.length =
      kept.inorder.length + comesOff v (forget t) + 1 := by
  rw [horder, hkept, comesOff, hfind, TreeNode.remains]
  dsimp only
  cases hr : right.isNull with
  | true =>
      have hright : right = .null := by
        cases right with
        | null => rfl
        | node rl rv rr => cases hr
      simp only [hright, TreeNode.inorder, if_true, List.length_append,
        List.length_cons, List.length_nil]
      omega
  | false =>
      simp only [TreeNode.inorder, Bool.false_eq_true, if_false,
        List.length_append, List.length_cons]
      omega

theorem ordered_remaining {root left right : TreeNode T}
    {before behind : List T} {kept : TreeNode T} (hordered : root.Ordered)
    (horder : root.inorder =
      before ++ (TreeNode.node left v right).inorder ++ behind)
    (hkept : kept.inorder = before ++ TreeNode.remains left right ++ behind) :
    kept.Ordered := by
  have hsub : kept.inorder.Sublist root.inorder := by
    rw [hkept, horder, TreeNode.remains]
    refine ((List.Sublist.refl before).append ?_).append_right behind
    split
    · exact List.nil_sublist _
    · exact (List.Sublist.refl _).append (List.sublist_cons_self v _)
  exact hordered.sublist hsub

theorem delete_eq {left right kept : TreeNode T} {root : TreeNode T}
    {freed : Bool} (hfind : root.find v = .node left v right)
    (hdelete : root.delete v = some (kept, freed)) :
    SearchTree.delete v ⟨some root⟩ =
      some (true, ⟨if freed then none else some kept⟩) := by
  rw [SearchTree.delete, Option.bind_eq_bind, Option.bind_some, hfind]
  dsimp only
  rw [hdelete]
  rfl

theorem delete_eq_of_absent {root : TreeNode T} (hfind : root.find v = .null) :
    SearchTree.delete v ⟨some root⟩ = some (false, ⟨some root⟩) := by
  rw [SearchTree.delete, Option.bind_eq_bind, Option.bind_some, hfind]
  rfl

theorem comesOff_of_absent {root : TreeNode T} (hfind : root.find v = .null) :
    comesOff v root = 0 := by
  rw [comesOff, hfind]

theorem Delete_agrees {lost : Nat} (hordered : (forget t).Ordered)
    (hroot : l.root = top t) (howns : l.heap.Owns t rest)
    (hlost : rest.length = lost) (v : T) :
    Agree Represents (l.step (.Delete v))
      (spec ⟨⟨some (forget t)⟩, lost⟩ (.Delete v)) := by
  rw [step, spec]
  dsimp only
  rw [Option.bind_some]
  by_cases hv : v ∈ (forget t).inorder
  · obtain ⟨left, right, before, behind, kept, freed, hfind, horder, hdelete,
      hkept, -⟩ := TreeNode.delete_find hordered hv
    obtain ⟨l', t', off, hcode, hforget, hlength, hroot', howns', htop⟩ :=
      Delete_found howns hroot hfind hdelete
    rw [hcode, delete_eq hfind hdelete]
    refine Agree.answered ?_
    cases freed with
    | true =>
        obtain ⟨a, ha⟩ : ∃ a, top t = some a := by
          refine Option.ne_none_iff_exists'.mp fun h => ?_
          rw [NodeHeap.top_eq_none_iff.mp h] at hv
          cases hv
        exact ⟨a, hroot'.trans (hroot.trans ha), htop a ha⟩
    | false =>
        have hparts := length_remaining hfind horder hkept
        rw [length_inorder_forget, ← hforget, length_inorder_forget] at hparts
        refine ⟨ordered_remaining hordered horder hkept, t', off ++ rest,
          hforget, htop, howns', ?_⟩
        rw [List.length_append, hlost]
        change _ = lost + comesOff v (forget t)
        omega
  · have hfind := TreeNode.find_absent hv
    rw [Delete_absent howns hroot hfind, delete_eq_of_absent hfind,
      comesOff_of_absent hfind]
    exact Agree.answered ⟨hordered, t, rest, rfl, hroot, howns, hlost⟩

theorem step_agrees (hl : l.Represents s) (call : Call T) :
    Agree Represents (l.step call) (spec s call) := by
  obtain ⟨⟨root⟩, lost⟩ := s
  cases root with
  | none =>
      -- Every call follows the pointer to the node that has been freed.
      obtain ⟨heap, root⟩ := l
      obtain ⟨a, ha, hgone⟩ := hl
      change root = some a at ha
      change heap.cells a = none at hgone
      subst ha
      have hbroken : step ⟨heap, some a⟩ call = none := by
        cases call with
        | insert v => simp [step, insert_some, insertBelow_some, hgone]
        | Delete v => simp [step, Delete, findBelow, hgone]
        | findMin =>
            simp [step, findMin, findMinBelow, findMinLoop_some, hgone]
        | print => simp [step, print, printTree, hgone]
      rw [hbroken]
      cases call <;> exact Agree.broken
  | some t =>
      obtain ⟨hordered, b, rest, rfl, hroot, howns, hlost⟩ := hl
      cases call with
      | insert v =>
          obtain ⟨l', b', heq, hforget, hroot', howns'⟩ :=
            insert_eq howns hroot v
          rw [step, heq]
          exact Agree.answered ⟨hordered.insert v, b', rest, hforget, hroot',
            howns', hlost⟩
      | Delete v => exact Delete_agrees hordered hroot howns hlost v
      | findMin =>
          have hfuel : b.numNodes < l.heap.fresh + 1 :=
            Nat.lt_succ_of_le howns.numNodes_le
          by_cases hb : b = .nil
          · subst hb
            have hcode : l.findMin = none := by
              rw [findMin, findMinBelow, hroot]
              rfl
            rw [step, hcode]
            exact Agree.broken
          · obtain ⟨n, c, hmin, hn, hleast⟩ :=
              findMinLoop_eq howns.stands hb hfuel none
            have hcode : l.findMin = some c.value := by
              rw [findMin, findMinBelow, hroot, hmin, Option.bind_eq_bind,
                Option.bind_some, NodeHeap.deref_some, hn]
              rfl
            rw [step, hcode, spec, Option.bind_some, hleast]
            exact Agree.answered ⟨hordered, b, rest, rfl, hroot, howns, hlost⟩
      | print =>
          have hfuel : b.numNodes < l.heap.fresh + 1 :=
            Nat.lt_succ_of_le howns.numNodes_le
          rw [step, print, hroot, printTree_eq howns.stands hfuel]
          exact Agree.answered ⟨hordered, b, rest, rfl, hroot, howns, hlost⟩

theorem destroy_agrees (hl : l.Represents s) :
    l.destroy.map (fun heap => heap.live.length) = s.tree.root.bind fun t =>
      if t.isNull then none else some (s.lost + skipped t) := by
  obtain ⟨⟨root⟩, lost⟩ := s
  cases root with
  | none =>
      obtain ⟨a, ha, hgone⟩ := hl
      have hbroken : l.destroy = none := by
        simp [destroy, destroyBelow, ha, hgone]
      rw [hbroken]
      rfl
  | some t =>
      obtain ⟨-, b, rest, rfl, hroot, howns, hlost⟩ := hl
      have hfuel : b.numNodes < l.heap.fresh + 1 :=
        Nat.lt_succ_of_le howns.numNodes_le
      by_cases hb : b = .nil
      · subst hb
        have hbroken : l.destroy = none := by
          simp [destroy, destroyBelow, hroot]
        rw [hbroken]
        rfl
      · obtain ⟨heap', left, hdestroy, howns', -, hleft⟩ :=
          destroyBelow_eq howns hb hfuel
        have hlive := (howns'.holds.live_perm howns'.distinct).length_eq
        have hnull : (forget b).isNull = false := by
          rw [isNull_forget]
          cases b with
          | nil => exact absurd rfl hb
          | node item l r => rfl
        rw [destroy, hroot, hdestroy, Option.map_some, hlive, Option.bind_some,
          hnull, NodeHeap.nodes_nil, List.nil_append, List.length_append, hleft,
          hlost, Nat.add_comm]
        rfl

theorem life_eq (calls : List (Call T)) :
    (life calls).map (fun r => (r.1, r.2.length)) = specLife calls := by
  have hagree := answers_agree (fun _ _ call h => step_agrees h call)
    (represents_init (T := T)) calls
  rcases hagree.cases with
    ⟨hcode, hspec⟩ | ⟨given, last, s, hcode, hspec, hlast⟩
  · rw [life, specLife, hcode, hspec]
    rfl
  · have hend := destroy_agrees hlast
    have hlife : (life calls).map (fun r => (r.1, r.2.length)) =
        (last.destroy.map fun heap => heap.live.length).map
          (Prod.mk given) := by
      rw [life, hcode, Option.map_map, Option.bind_eq_bind, Option.bind_some]
      dsimp only
      cases last.destroy with
      | none => rfl
      | some heap => rfl
    rw [hlife, hend, specLife, hspec, Option.bind_eq_bind, Option.bind_some]
    dsimp only
    cases s.tree.root with
    | none => rfl
    | some t =>
        rw [Option.bind_some, Option.bind_eq_bind, Option.bind_some]
        split
        · rfl
        · rfl

/-! ### Lives without a fault or a leak -/

/-- One call on the tree of values. -/
def next (s : Values T) (call : Call T) : Option (Values T) :=
  (spec s call).map Prod.snd

/-- No node comes off with what the call deletes, the node at the root stays,
and an empty tree is not asked for its least value. -/
def keeps (s : Values T) : Call T → Prop
  | .insert _ => True
  | .Delete v => ∀ t, s.tree.root = some t → t.Removable v
  | .findMin => ∀ t, s.tree.root = some t → t.isNull = false
  | .print => True

omit [LinearOrder T] in
/-- No node has a child on the right only. -/
def LeftFirst : TreeNode T → Prop
  | .null => True
  | .node left _ right =>
      (left.isNull = true → right.isNull = true) ∧ LeftFirst left ∧
        LeftFirst right

omit [LinearOrder T] in
theorem length_inorder_eq_zero_iff (t : TreeNode T) :
    t.inorder.length = 0 ↔ t.isNull = true := by
  cases t with
  | null => exact iff_of_true rfl rfl
  | node left value right =>
      refine iff_of_false ?_ Bool.false_ne_true
      rw [TreeNode.inorder, List.length_append, List.length_cons]
      omega

omit [LinearOrder T] in
theorem skipped_eq_zero_iff (t : TreeNode T) : skipped t = 0 ↔ LeftFirst t := by
  induction t with
  | null => exact iff_of_true rfl trivial
  | node left value right ihl ihr =>
      rw [skipped, LeftFirst]
      cases hl : left.isNull with
      | true =>
          rw [if_pos rfl, length_inorder_eq_zero_iff]
          constructor
          · intro hr
            refine ⟨fun _ => hr, ?_, ?_⟩
            · rw [← ihl, ← Nat.le_zero]
              cases left with
              | null => exact Nat.le_refl 0
              | node ll lv lr => cases hl
            · cases right with
              | null => trivial
              | node rl rv rr => cases hr
          · exact fun h => h.1 rfl
      | false =>
          rw [if_neg Bool.false_ne_true, Nat.add_eq_zero_iff, ihl, ihr]
          exact (and_iff_right fun h => absurd h Bool.false_ne_true).symm

theorem comesOff_eq_zero_iff {root left right : TreeNode T}
    (hfind : root.find v = .node left v right) :
    comesOff v root = 0 ↔ left.isNull = true ∨ right.isNull = false := by
  rw [comesOff, hfind]
  dsimp only
  cases right.isNull with
  | true =>
      rw [if_pos rfl, length_inorder_eq_zero_iff]
      exact (or_iff_left (by decide)).symm
  | false => exact iff_of_true rfl (Or.inr rfl)

theorem keeps_iff {root : TreeNode T} (hroot : s.tree.root = some root)
    (hordered : root.Ordered) (call : Call T) :
    keeps s call ↔ ∃ answer s' root', spec s call = some (answer, s') ∧
      s'.tree.root = some root' ∧ s'.lost = s.lost := by
  obtain ⟨⟨r⟩, lost⟩ := s
  change r = some root at hroot
  subst hroot
  cases call with
  | insert v =>
      exact iff_of_true trivial ⟨_, _, _, rfl, rfl, rfl⟩
  | print => exact iff_of_true trivial ⟨_, _, root, rfl, rfl, rfl⟩
  | findMin =>
      cases root with
      | null =>
          refine iff_of_false (fun h => ?_) ?_
          · exact absurd (h .null rfl) Bool.false_ne_true.symm
          · rintro ⟨answer, s', root', hspec, -⟩
            cases hspec
      | node left value right =>
          refine iff_of_true (fun t ht => ?_) ?_
          · cases ht
            rfl
          · obtain ⟨least, -, -, hmin, -⟩ :=
              TreeNode.delete_findMin hordered rfl
            refine ⟨.value least, _, _, ?_, rfl, rfl⟩
            rw [spec, Option.bind_some, hmin]
            rfl
  | Delete v =>
      have hkeeps : keeps ⟨⟨some root⟩, lost⟩ (.Delete v) ↔
          root.Removable v := by
        refine ⟨fun h => h root rfl, fun h t ht => ?_⟩
        cases ht
        exact h
      rw [hkeeps, spec]
      dsimp only
      rw [Option.bind_some]
      by_cases hv : v ∈ root.inorder
      · obtain ⟨left, right, before, behind, kept, freed, hfind, horder,
          hdelete, hkept, hfreed⟩ := TreeNode.delete_find hordered hv
        have hoff := comesOff_eq_zero_iff hfind
        rw [hfind] at hfreed
        rw [delete_eq hfind hdelete, TreeNode.Removable, hfind]
        dsimp only
        constructor
        · intro hremovable
          have hstays : freed = false := by
            rw [← Bool.not_eq_true, hfreed]
            rintro ⟨hfirst, hnull⟩
            rcases hremovable with ⟨hl, hr⟩ | ⟨-, hnot⟩
            · simp [hl, hr] at hnull
            · exact hnot hfirst
          refine ⟨_, _, kept, rfl, by rw [hstays]; rfl, ?_⟩
          change lost + comesOff v root = lost
          rw [hoff.mpr (hremovable.elim (fun h => Or.inr h.2) fun h =>
            Or.inl h.1), Nat.add_zero]
        · rintro ⟨answer, s', root', hspec, hroot', hlost⟩
          cases hspec
          change lost + comesOff v root = lost at hlost
          have hfreed' : freed = false := by
            cases freed with
            | true => cases hroot'
            | false => rfl
          rw [hfreed'] at hfreed
          rcases hoff.mp (by omega) with hl | hr
          · exact Or.inr ⟨hl, fun h =>
              Bool.false_ne_true (hfreed.mpr ⟨h, Or.inl hl⟩)⟩
          · cases hl : left.isNull with
            | false => exact Or.inl ⟨rfl, hr⟩
            | true =>
                exact Or.inr ⟨rfl, fun h =>
                  Bool.false_ne_true (hfreed.mpr ⟨h, Or.inl hl⟩)⟩
      · have hfind := TreeNode.find_absent hv
        rw [delete_eq_of_absent hfind, comesOff_of_absent hfind]
        refine iff_of_true ?_ ⟨_, _, root, rfl, rfl, rfl⟩
        rw [TreeNode.Removable, hfind]
        trivial

theorem ordered_of_spec {root root' : TreeNode T} {call : Call T}
    {answer : Answer T} {s' : Values T} (hroot : s.tree.root = some root)
    (hordered : root.Ordered) (hspec : spec s call = some (answer, s'))
    (hroot' : s'.tree.root = some root') : root'.Ordered := by
  obtain ⟨⟨r⟩, lost⟩ := s
  change r = some root at hroot
  subst hroot
  cases call with
  | insert v =>
      cases hspec
      cases hroot'
      exact hordered.insert v
  | Delete v =>
      rw [spec] at hspec
      dsimp only at hspec
      rw [Option.bind_some] at hspec
      by_cases hv : v ∈ root.inorder
      · obtain ⟨left, right, before, behind, kept, freed, hfind, horder,
          hdelete, hkept, -⟩ := TreeNode.delete_find hordered hv
        rw [delete_eq hfind hdelete] at hspec
        cases hspec
        cases freed with
        | true => cases hroot'
        | false =>
            cases hroot'
            exact ordered_remaining hordered horder hkept
      · rw [delete_eq_of_absent (TreeNode.find_absent hv)] at hspec
        cases hspec
        cases hroot'
        exact hordered
  | findMin =>
      obtain ⟨v, -, heq⟩ := Option.map_eq_some_iff.mp hspec
      cases heq
      cases hroot'
      exact hordered
  | print =>
      cases hspec
      cases hroot'
      exact hordered

/-- What has come off stays lost. -/
theorem lost_le {call : Call T} {answer : Answer T} {s' : Values T}
    (hspec : spec s call = some (answer, s')) : s.lost ≤ s'.lost := by
  cases call with
  | insert v =>
      obtain ⟨r, -, heq⟩ := Option.map_eq_some_iff.mp hspec
      cases heq
      exact Nat.le_refl _
  | Delete v =>
      obtain ⟨t, -, ht⟩ := Option.bind_eq_some_iff.mp hspec
      obtain ⟨r, -, heq⟩ := Option.map_eq_some_iff.mp ht
      cases heq
      exact Nat.le_add_right _ _
  | findMin =>
      obtain ⟨t, -, ht⟩ := Option.bind_eq_some_iff.mp hspec
      obtain ⟨r, -, heq⟩ := Option.map_eq_some_iff.mp ht
      cases heq
      exact Nat.le_refl _
  | print =>
      obtain ⟨r, -, heq⟩ := Option.map_eq_some_iff.mp hspec
      cases heq
      exact Nat.le_refl _

theorem lost_le_of_answers {calls : List (Call T)} {given : List (Answer T)}
    {final : Values T} (hanswers : answers spec s calls = some (given, final)) :
    s.lost ≤ final.lost := by
  induction calls generalizing s given with
  | nil =>
      cases hanswers
      exact Nat.le_refl _
  | cons call rest ih =>
      obtain ⟨⟨answer, s'⟩, hspec, hrest⟩ := Option.bind_eq_some_iff.mp hanswers
      obtain ⟨⟨later, last⟩, hlater, heq⟩ := Option.map_eq_some_iff.mp hrest
      cases heq
      exact (lost_le hspec).trans (ih hlater)

/-- Once the node at the root is freed, no call is answered. -/
theorem spec_of_freed (hfreed : s.tree.root = none) (call : Call T) :
    spec s call = none := by
  obtain ⟨⟨root⟩, lost⟩ := s
  cases hfreed
  cases call <;> rfl

/-- All calls are answered and nothing comes off exactly when each keeps all. -/
theorem kept_iff_along {root : TreeNode T} (hroot : s.tree.root = some root)
    (hordered : root.Ordered) (calls : List (Call T)) :
    (∃ given final root', answers spec s calls = some (given, final) ∧
      final.tree.root = some root' ∧ final.lost = s.lost) ↔
      Along next keeps s calls := by
  induction calls generalizing s root with
  | nil => exact iff_of_true ⟨[], s, root, rfl, hroot, rfl⟩ trivial
  | cons call rest ih =>
      have hstep := keeps_iff hroot hordered call
      constructor
      · rintro ⟨given, final, root', hanswers, hroot', hlost⟩
        obtain ⟨⟨answer, s'⟩, hspec, hrest⟩ :=
          Option.bind_eq_some_iff.mp hanswers
        obtain ⟨⟨later, last⟩, hlater, heq⟩ := Option.map_eq_some_iff.mp hrest
        cases heq
        have hle : s.lost ≤ s'.lost := lost_le hspec
        have hle' : s'.lost ≤ last.lost := lost_le_of_answers hlater
        obtain ⟨t, ht⟩ : ∃ t, s'.tree.root = some t := by
          refine Option.ne_none_iff_exists'.mp fun hnone => ?_
          cases rest with
          | nil =>
              cases hlater
              rw [hnone] at hroot'
              cases hroot'
          | cons other rest =>
              rw [answers, spec_of_freed hnone] at hlater
              cases hlater
        have hordered' := ordered_of_spec hroot hordered hspec ht
        have hsame : s'.lost = s.lost ∧ last.lost = s'.lost := by
          change last.lost = s.lost at hlost
          omega
        refine Along.cons (hstep.mpr ⟨answer, s', t, hspec, ht, hsame.1⟩) ?_
          ((ih ht hordered').mp ⟨later, last, root', hlater, hroot', hsame.2⟩)
        rw [next, hspec]
        rfl
      · rintro ⟨hkeeps, hrest⟩
        obtain ⟨answer, s', t, hspec, ht, hlost⟩ := hstep.mp hkeeps
        have hnext : next s call = some s' := by
          rw [next, hspec]
          rfl
        have hordered' := ordered_of_spec hroot hordered hspec ht
        obtain ⟨later, last, root', hlater, hroot', hlost'⟩ :=
          (ih ht hordered').mpr (hrest s' hnext)
        refine ⟨answer :: later, last, root', ?_, hroot', hlost'.trans hlost⟩
        rw [answers, hspec, Option.bind_some, hlater]
        rfl

theorem run_of_answers {calls : List (Call T)} {given : List (Answer T)}
    {final : Values T} (hanswers : answers spec s calls = some (given, final)) :
    run next s calls = some final := by
  induction calls generalizing s given with
  | nil =>
      cases hanswers
      rfl
  | cons call rest ih =>
      obtain ⟨⟨answer, s'⟩, hspec, hrest⟩ := Option.bind_eq_some_iff.mp hanswers
      obtain ⟨⟨later, last⟩, hlater, heq⟩ := Option.map_eq_some_iff.mp hrest
      cases heq
      rw [run_cons, next, hspec]
      exact ih hlater

/-- The tree that is destroyed has a node, and none with a child on the right
only. -/
def EndsWhole (calls : List (Call T)) : Prop :=
  ∀ s root, run next Values.start calls = some s → s.tree.root = some root →
    root.isNull = false ∧ LeftFirst root

theorem specLife_clean_iff (calls : List (Call T)) :
    (∃ given, specLife calls = some (given, 0)) ↔
      Along next keeps Values.start calls ∧ EndsWhole calls := by
  rw [← @kept_iff_along T _ Values.start .null rfl List.Pairwise.nil calls]
  constructor
  · rintro ⟨given, hlife⟩
    obtain ⟨⟨answered, s⟩, hanswers, hend⟩ := Option.bind_eq_some_iff.mp hlife
    obtain ⟨root, hroot, hend⟩ := Option.bind_eq_some_iff.mp hend
    cases hnull : root.isNull with
    | true =>
        rw [hnull] at hend
        cases hend
    | false =>
        rw [hnull] at hend
        obtain ⟨-, hzero⟩ := Prod.mk.inj (Option.some.inj hend)
        obtain ⟨hlost, hskipped⟩ := Nat.add_eq_zero_iff.mp hzero
        refine ⟨⟨answered, s, root, hanswers, hroot, hlost⟩, ?_⟩
        intro final other hrun hother
        rw [run_of_answers hanswers] at hrun
        cases hrun
        rw [hroot] at hother
        cases hother
        exact ⟨hnull, (skipped_eq_zero_iff root).mp hskipped⟩
  · rintro ⟨⟨given, s, root, hanswers, hroot, hlost⟩, hwhole⟩
    obtain ⟨hnull, hfirst⟩ := hwhole s root (run_of_answers hanswers) hroot
    refine ⟨given, ?_⟩
    rw [specLife, hanswers, Option.bind_eq_bind, Option.bind_some]
    dsimp only
    rw [hroot, Option.bind_eq_bind, Option.bind_some, hnull, hlost,
      (skipped_eq_zero_iff root).mpr hfirst]
    rfl

/-- From the construction to the destruction, any calls are answered as the tree
of values answers them. The program breaks off exactly at a call after the one
that freed the node at the root, at `findMin` of an empty tree, and when an
empty tree is destroyed; else as many nodes are left over as came off with a
deleted one or stand to the right where there is none to the left. So nothing
goes wrong and nothing is left over exactly when every call keeps all, and at
the end there is a node, and none with a child on the right only. -/
theorem searchTree_life (calls : List (Call T)) :
    (life calls).map (fun r => (r.1, r.2.length)) = specLife calls ∧
      ((∃ given, life calls = some (given, [])) ↔
        Along next keeps Values.start calls ∧ EndsWhole calls) := by
  have hlife := life_eq calls
  refine ⟨hlife, ?_⟩
  rw [← specLife_clean_iff, ← hlife]
  constructor
  · rintro ⟨given, hclean⟩
    exact ⟨given, by rw [hclean]; rfl⟩
  · rintro ⟨given, hclean⟩
    obtain ⟨⟨answered, live⟩, hsome, heq⟩ := Option.map_eq_some_iff.mp hclean
    have hnone : live = [] :=
      List.eq_nil_of_length_eq_zero (Prod.mk.inj heq).2
    exact ⟨answered, by rw [hsome, hnone]⟩

/-- A node with a child on the right only, which is left over. -/
example : life [.insert 2, .insert 3, .print] =
    some ([.bool true, .bool true, .values [2, 3]], [1]) := by
  decide

end LinkedTree

end Sta

end LinuxTest
