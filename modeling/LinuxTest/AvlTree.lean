/-
The tree of `sta/avltree.h`, with the heights that its nodes keep.  A null
pointer that is followed is `none`.
-/
import Mathlib.Data.List.Sort
import Mathlib.Order.Defs.LinearOrder

namespace LinuxTest

namespace Sta

inductive AVLNode (T : Type) where
  | null
  | node (left : AVLNode T) (value : T) (height : Int) (right : AVLNode T)

namespace AVLNode

variable {T : Type}

/-- `Height`. -/
def getHeight : AVLNode T → Int
  | null => -1
  | node _ _ height _ => height

/-- `node->height`, which needs the node. -/
def height? : AVLNode T → Option Int
  | null => none
  | node _ _ height _ => some height

def value? : AVLNode T → Option T
  | null => none
  | node _ value _ _ => some value

/-- The assignment at the end of each rotation. -/
def measured (left : AVLNode T) (value : T) (right : AVLNode T) :
    AVLNode T :=
  node left value
    (if getHeight left > getHeight right then getHeight left + 1
      else getHeight right + 1) right

def singleRotateWithLeft : AVLNode T → Option (AVLNode T)
  | node (node ll lv _ lr) value _ right =>
      some (measured ll lv (measured lr value right))
  | _ => none

def singleRotateWithRight : AVLNode T → Option (AVLNode T)
  | node left value _ (node rl rv _ rr) =>
      some (measured (measured left value rl) rv rr)
  | _ => none

def doubleRotateWithLeft : AVLNode T → Option (AVLNode T)
  | node left value height right => do
      let right ← singleRotateWithLeft right
      singleRotateWithRight (node left value height right)
  | null => none

def doubleRotateWithRight : AVLNode T → Option (AVLNode T)
  | node left value height right => do
      let left ← singleRotateWithRight left
      singleRotateWithLeft (node left value height right)
  | null => none

/-- The assignment at the end of `insert`, which follows both children. -/
def setHeight : AVLNode T → Option (AVLNode T)
  | node left value _ right => do
      let l ← left.height?
      let r ← right.height?
      return node left value (if l > r then l + 1 else r + 1) right
  | null => none

/-- The values from left to right. -/
def inorder : AVLNode T → List T
  | null => []
  | node left value _ right => inorder left ++ value :: inorder right

variable [LinearOrder T]

/-- The rotation after `x` went to the left, if the left became too high. -/
def rebalanceLeft (x : T) (left : AVLNode T) (value : T) (height : Int)
    (right : AVLNode T) : Option (AVLNode T) :=
  if getHeight left - getHeight right = 2 then
    left.value?.bind fun leftValue =>
      if x < leftValue then
        singleRotateWithLeft (node left value height right)
      else
        doubleRotateWithLeft (node left value height right)
  else
    some (node left value height right)

def rebalanceRight (x : T) (left : AVLNode T) (value : T) (height : Int)
    (right : AVLNode T) : Option (AVLNode T) :=
  if getHeight right - getHeight left = 2 then
    right.value?.bind fun rightValue =>
      if x > rightValue then
        singleRotateWithRight (node left value height right)
      else
        doubleRotateWithRight (node left value height right)
  else
    some (node left value height right)

def insert (x : T) : AVLNode T → Option (AVLNode T)
  | null => setHeight (node null x 0 null)
  | node left value height right =>
      (if x < value then
        (insert x left).bind fun left => rebalanceLeft x left value height right
      else if x > value then
        (insert x right).bind fun right =>
          rebalanceRight x left value height right
      else
        some (node left value height right)).bind setHeight

/-! ### The order of the values -/

omit [LinearOrder T] in
@[simp] theorem inorder_measured (left : AVLNode T) (value : T)
    (right : AVLNode T) :
    (measured left value right).inorder =
      left.inorder ++ value :: right.inorder := rfl

variable {root next : AVLNode T}

omit [LinearOrder T] in
theorem inorder_singleRotateWithLeft
    (h : singleRotateWithLeft root = some next) :
    next.inorder = root.inorder := by
  cases root with
  | null => cases h
  | node left value height right =>
      cases left with
      | null => cases h
      | node ll lv lh lr =>
          cases h
          simp [inorder]

omit [LinearOrder T] in
theorem inorder_singleRotateWithRight
    (h : singleRotateWithRight root = some next) :
    next.inorder = root.inorder := by
  cases root with
  | null => cases h
  | node left value height right =>
      cases right with
      | null => cases h
      | node rl rv rh rr =>
          cases h
          simp [inorder]

omit [LinearOrder T] in
theorem inorder_doubleRotateWithLeft
    (h : doubleRotateWithLeft root = some next) :
    next.inorder = root.inorder := by
  cases root with
  | null => cases h
  | node left value height right =>
      obtain ⟨turned, hturned, hnext⟩ := Option.bind_eq_some_iff.mp h
      rw [inorder_singleRotateWithRight hnext, inorder, inorder,
        inorder_singleRotateWithLeft hturned]

omit [LinearOrder T] in
theorem inorder_doubleRotateWithRight
    (h : doubleRotateWithRight root = some next) :
    next.inorder = root.inorder := by
  cases root with
  | null => cases h
  | node left value height right =>
      obtain ⟨turned, hturned, hnext⟩ := Option.bind_eq_some_iff.mp h
      rw [inorder_singleRotateWithLeft hnext, inorder, inorder,
        inorder_singleRotateWithRight hturned]

omit [LinearOrder T] in
theorem inorder_setHeight (h : setHeight root = some next) :
    next.inorder = root.inorder := by
  cases root with
  | null => cases h
  | node left value height right =>
      obtain ⟨l, -, hl⟩ := Option.bind_eq_some_iff.mp h
      obtain ⟨r, -, hr⟩ := Option.bind_eq_some_iff.mp hl
      cases hr
      rfl

theorem inorder_rebalanceLeft {x : T} {left : AVLNode T} {value : T}
    {height : Int} {right : AVLNode T}
    (h : rebalanceLeft x left value height right = some next) :
    next.inorder = (node left value height right).inorder := by
  rw [rebalanceLeft] at h
  split at h
  · obtain ⟨v, -, hturned⟩ := Option.bind_eq_some_iff.mp h
    split at hturned
    · exact inorder_singleRotateWithLeft hturned
    · exact inorder_doubleRotateWithLeft hturned
  · cases h
    rfl

theorem inorder_rebalanceRight {x : T} {left : AVLNode T} {value : T}
    {height : Int} {right : AVLNode T}
    (h : rebalanceRight x left value height right = some next) :
    next.inorder = (node left value height right).inorder := by
  rw [rebalanceRight] at h
  split at h
  · obtain ⟨v, -, hturned⟩ := Option.bind_eq_some_iff.mp h
    split at hturned
    · exact inorder_singleRotateWithRight hturned
    · exact inorder_doubleRotateWithRight hturned
  · cases h
    rfl

/-- A new node has no children, and `insert` follows them. -/
theorem insert_null (x : T) : insert x null = none := rfl

/-- Where `insert` returns, the value was there before, and no other came. -/
theorem mem_and_inorder_of_insert {x : T} (h : insert x root = some next) :
    x ∈ root.inorder ∧ next.inorder = root.inorder := by
  induction root generalizing next with
  | null => cases h
  | node left value height right ihLeft ihRight =>
      obtain ⟨turned, hturned, hnext⟩ := Option.bind_eq_some_iff.mp h
      rw [inorder_setHeight hnext]
      split at hturned
      · obtain ⟨l, hl, hturned⟩ := Option.bind_eq_some_iff.mp hturned
        obtain ⟨hmem, hsame⟩ := ihLeft hl
        rw [inorder_rebalanceLeft hturned, inorder, inorder, hsame]
        exact ⟨List.mem_append_left _ hmem, rfl⟩
      · split at hturned
        · obtain ⟨r, hr, hturned⟩ := Option.bind_eq_some_iff.mp hturned
          obtain ⟨hmem, hsame⟩ := ihRight hr
          rw [inorder_rebalanceRight hturned, inorder, inorder, hsame]
          exact ⟨List.mem_append_right _ (List.mem_cons_of_mem _ hmem), rfl⟩
        · case isFalse hless hgreater =>
            cases hturned
            have heq : x = value :=
              le_antisymm (not_lt.mp hgreater) (not_lt.mp hless)
            rw [inorder, heq]
            exact ⟨by simp, rfl⟩

/-! ### Balanced trees -/

/-- The heights are right and differ by one at most at each node. -/
def Balanced : AVLNode T → Prop
  | null => True
  | node left _ height right => Balanced left ∧ Balanced right ∧
      height = max (getHeight left) (getHeight right) + 1 ∧
      getHeight left - getHeight right ≤ 1 ∧
      getHeight right - getHeight left ≤ 1

/-- Down to `x`, every node has both children. -/
def Surrounded (x : T) : AVLNode T → Prop
  | null => False
  | node left value _ right => left.height?.isSome ∧ right.height?.isSome ∧
      (x < value → Surrounded x left) ∧ (x > value → Surrounded x right)

omit [LinearOrder T] in
/-- The nodes of the path are what `setHeight` follows. -/
theorem setHeight_eq_some_iff {left : AVLNode T} {value : T} {height : Int}
    {right : AVLNode T} : setHeight (node left value height right) =
      some next ↔ left.height?.isSome ∧ right.height?.isSome ∧
        next = measured left value right := by
  cases left with
  | null => simp [setHeight, height?]
  | node ll lv lh lr =>
      cases right with
      | null => simp [setHeight, height?]
      | node rl rv rh rr =>
          simp [setHeight, height?, measured, getHeight, eq_comm]

omit [LinearOrder T] in
theorem Balanced.measured_eq {left : AVLNode T} {value : T} {height : Int}
    {right : AVLNode T} (hb : (node left value height right).Balanced) :
    measured left value right = node left value height right := by
  have hheight := hb.2.2.1
  rw [measured, hheight]
  congr 1
  split <;> omega

/-- On a balanced tree `insert` returns only for a value whose path has all its
children, and it returns the tree as it was. -/
theorem Balanced.insert_eq_some_iff (hb : root.Balanced) (x : T) :
    insert x root = some next ↔ next = root ∧ root.Surrounded x := by
  induction root generalizing next with
  | null => simp [insert_null, Surrounded]
  | node left value height right ihLeft ihRight =>
      obtain ⟨hleft, hright, -, hlr, hrl⟩ := id hb
      have hnot : getHeight left - getHeight right ≠ 2 := by omega
      have hnot' : getHeight right - getHeight left ≠ 2 := by omega
      rw [insert, Option.bind_eq_some_iff]
      rcases lt_trichotomy x value with hlt | heq | hgt
      · have hngt : ¬x > value := not_lt_of_gt hlt
        rw [if_pos hlt]
        constructor
        · rintro ⟨turned, hturned, hnext⟩
          obtain ⟨l, hl, hkept⟩ := Option.bind_eq_some_iff.mp hturned
          obtain ⟨rfl, hsurrounded⟩ := (ihLeft hleft).mp hl
          rw [rebalanceLeft, if_neg hnot] at hkept
          cases hkept
          obtain ⟨hl, hr, rfl⟩ := setHeight_eq_some_iff.mp hnext
          exact ⟨hb.measured_eq, hl, hr, fun _ => hsurrounded,
            fun h => absurd h hngt⟩
        · rintro ⟨rfl, hl, hr, hsurrounded, -⟩
          refine ⟨node left value height right, ?_,
            setHeight_eq_some_iff.mpr ⟨hl, hr, hb.measured_eq.symm⟩⟩
          rw [(ihLeft hleft).mpr ⟨rfl, hsurrounded hlt⟩]
          exact if_neg hnot
      · have hnlt : ¬x < value := heq.not_lt
        have hngt : ¬x > value := heq.not_gt
        rw [if_neg hnlt, if_neg hngt]
        constructor
        · rintro ⟨turned, hturned, hnext⟩
          cases hturned
          obtain ⟨hl, hr, rfl⟩ := setHeight_eq_some_iff.mp hnext
          exact ⟨hb.measured_eq, hl, hr, fun h => absurd h hnlt,
            fun h => absurd h hngt⟩
        · rintro ⟨rfl, hl, hr, -, -⟩
          exact ⟨node left value height right, rfl,
            setHeight_eq_some_iff.mpr ⟨hl, hr, hb.measured_eq.symm⟩⟩
      · have hnlt : ¬x < value := not_lt_of_gt hgt
        rw [if_neg hnlt, if_pos hgt]
        constructor
        · rintro ⟨turned, hturned, hnext⟩
          obtain ⟨r, hr, hkept⟩ := Option.bind_eq_some_iff.mp hturned
          obtain ⟨rfl, hsurrounded⟩ := (ihRight hright).mp hr
          rw [rebalanceRight, if_neg hnot'] at hkept
          cases hkept
          obtain ⟨hl, hr, rfl⟩ := setHeight_eq_some_iff.mp hnext
          exact ⟨hb.measured_eq, hl, hr, fun h => absurd h hnlt,
            fun _ => hsurrounded⟩
        · rintro ⟨rfl, hl, hr, -, hsurrounded⟩
          refine ⟨node left value height right, ?_,
            setHeight_eq_some_iff.mpr ⟨hl, hr, hb.measured_eq.symm⟩⟩
          rw [(ihRight hright).mpr ⟨rfl, hsurrounded hgt⟩]
          exact if_neg hnot'

/-- `insert` never adds a value: of whatever tree, it returns one with the same
values, `x` among them, and of a balanced one the tree itself, or it follows a
null pointer. -/
theorem insert_adds_nothing (x : T) (root : AVLNode T) :
    (∀ next, insert x root = some next →
      x ∈ root.inorder ∧ next.inorder = root.inorder) ∧
    (root.Balanced → ∀ next, insert x root = some next ↔
      next = root ∧ root.Surrounded x) :=
  ⟨fun _ h => mem_and_inorder_of_insert h,
    fun hb _ => hb.insert_eq_some_iff x⟩

/-- Three nodes, and the value of the one above. -/
theorem insert_adds_nothing_three :
    let root : AVLNode Nat := node (node null 1 0 null) 2 1 (node null 3 0 null)
    2 ∈ root.inorder ∧ root.inorder = root.inorder ∧ root.Surrounded 2 := by
  have hsome : insert 2 (node (node null 1 0 null) 2 1 (node null 3 0 null)) =
      some (node (node null 1 0 null) 2 1 (node null 3 0 null)) := rfl
  obtain ⟨hkeeps, hbalanced⟩ := insert_adds_nothing 2
    (node (node null 1 0 null) 2 1 (node null 3 0 null))
  obtain ⟨hmem, hsame⟩ := hkeeps _ hsome
  refine ⟨hmem, hsame, ((hbalanced ?_ _).mp hsome).2⟩
  simp [Balanced, getHeight]

end AVLNode

end Sta

end LinuxTest
