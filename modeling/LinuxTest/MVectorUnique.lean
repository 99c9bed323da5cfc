/-
The two ways in which `m_vector` drops repeated elements: one compares every
pair and removes, the other compacts a sorted vector in place.
-/
import Mathlib.Data.List.Destutter
import Mathlib.Order.Defs.LinearOrder
import LinuxTest.MVector

namespace LinuxTest

namespace Mst

universe u

variable {T : Type u}

namespace MVector

variable [DecidableEq T]

/-- The inner loop of `deduplicate`: each round takes one from `m_size - j`. -/
def dedupInner : Nat → Nat → Nat → MVector T → Option (MVector T)
  | 0, _, _, v => some v
  | rounds + 1, i, j, v =>
      match v.vec.read j, v.vec.read i with
      | some x, some y =>
          if x = y then
            (v.remove (v.iter j)).bind fun (_, v) => dedupInner rounds i j v
          else
            (incr j).bind fun j => dedupInner rounds i j v
      | _, _ => none

/-- The outer loop; `i` grows in each round, and `m_size` does not. -/
def dedupOuter : Nat → Nat → MVector T → Option (MVector T)
  | 0, _, _ => none
  | rounds + 1, i, v =>
      if i < v.m_size then
        (incr i).bind fun j =>
          (dedupInner (v.m_size - j) i j v).bind fun v =>
            (incr i).bind fun i => dedupOuter rounds i v
      else
        some v

/-- The sizes are subtracted as a `size_t` and an `int` and returned as an
`int`. -/
def deduplicate (v : MVector T) : Option (Int × MVector T) :=
  let old_size := asInt v.m_size
  (dedupOuter (v.m_size + 1) 0 v).map fun v =>
    (asInt (asSize (asSize old_size - v.m_size)), v)

/-- The loop of `unique` with so many rounds left. -/
def uniqueLoop : Nat → Nat → Nat → Cells T → Option (Nat × Cells T)
  | 0, i, _, vec => some (i, vec)
  | rounds + 1, i, j, vec =>
      match vec.read i, vec.read j with
      | some x, some y =>
          if x ≠ y then
            (incr i).bind fun i => (vec.write i y).bind fun vec =>
              (incr j).bind fun j => uniqueLoop rounds i j vec
          else
            (incr j).bind fun j => uniqueLoop rounds i j vec
      | _, _ => none

/-- The end is reached without a `return`, which leaves the whole call undefined
by the language.  What it does up to there is kept: its `int` is not. -/
def unique (v : MVector T) : Option (MVector T) :=
  (uniqueLoop (v.m_size - 1) 0 1 v.vec).map fun (i, vec) =>
    { v with vec := vec, m_size := asSize (i + 1) }

/-! ### Comparing every pair -/

variable {v : MVector T} {items : List T}

/-- Behind the element at `i` nothing equal is left, unless there remains more
than `j` can count. -/
theorem dedupInner_holds {front middle rest : List T} {x : T} {i j : Nat}
    (hv : v.Holds (front ++ x :: middle ++ rest)) (hi : front.length = i)
    (hj : i + 1 + middle.length = j) (hlt : j < 2 ^ 31) :
    (j + (rest.filter fun y => !y == x).length < 2 ^ 31 →
      ∃ next, dedupInner rest.length i j v = some next ∧
        next.Holds (front ++ x :: middle ++ rest.filter fun y => !y == x)) ∧
    (2 ^ 31 ≤ j + (rest.filter fun y => !y == x).length →
      dedupInner rest.length i j v = none) := by
  induction rest generalizing v middle j with
  | nil =>
      refine ⟨fun _ => ⟨v, rfl, hv⟩, fun hge => ?_⟩
      rw [List.filter_nil, List.length_nil] at hge
      omega
  | cons y rest ih =>
      have hlength : (front ++ x :: middle).length = j := by
        rw [List.length_append, List.length_cons]
        omega
      have hy : v.vec.read j = some y := hv.read_append hlength
      have hx : v.vec.read i = some x := by
        rw [List.append_assoc, List.cons_append] at hv
        exact hv.read_append hi
      rw [List.length_cons, dedupInner, hy, hx]
      dsimp only
      by_cases heq : y = x
      · have hin : j < (front ++ x :: middle ++ y :: rest).length := by
          rw [List.length_append, List.length_cons]
          omega
        obtain ⟨next, hnext, hholds⟩ := hv.remove hin
        rw [List.eraseIdx_append_of_length_le (Nat.le_of_eq hlength), hlength,
          Nat.sub_self, List.eraseIdx_cons_zero] at hholds
        rw [if_pos heq, hnext, Option.bind_some,
          List.filter_cons_of_neg (by simp [heq])]
        exact ih hholds hj hlt
      · have hshape : front ++ x :: middle ++ y :: rest =
            front ++ x :: (middle ++ [y]) ++ rest := by simp
        have hfinal : front ++ x :: middle ++
              y :: (rest.filter fun y => !y == x) =
            front ++ x :: (middle ++ [y]) ++
              (rest.filter fun y => !y == x) := by simp
        rw [if_neg heq, List.filter_cons_of_pos (by simp [heq]), hfinal,
          List.length_cons]
        rw [hshape] at hv
        by_cases hnext : j + 1 < 2 ^ 31
        · rw [incr_of_lt hnext, Option.bind_some]
          obtain ⟨hsome, hnone⟩ := ih hv
            (by rw [List.length_append, List.length_singleton]; omega) hnext
          exact ⟨fun h => hsome (by omega), fun h => hnone (by omega)⟩
        · rw [incr_of_ge (by omega)]
          exact ⟨fun h => by omega, fun _ => rfl⟩

/-- On a list that an `int` can count the outer loop keeps the first ones. -/
theorem dedupOuter_holds {front rest : List T} {i rounds : Nat}
    (hv : v.Holds (front ++ rest)) (hi : front.length = i)
    (hshort : (front ++ rest).length < 2 ^ 31)
    (hrounds : rest.length < rounds) :
    ∃ next, dedupOuter rounds i v = some next ∧
      next.Holds (front ++ rest.eraseDups) := by
  induction rounds generalizing v front rest i with
  | zero => omega
  | succ rounds ih =>
      have hsize := hv.size_eq
      rw [List.length_append] at hsize hshort
      rw [dedupOuter]
      cases rest with
      | nil =>
          rw [if_neg (by rw [hsize, List.length_nil]; omega)]
          exact ⟨v, rfl, hv⟩
      | cons x rest =>
          rw [List.length_cons] at hsize hshort hrounds
          have hfilter := List.length_filter_le (fun y => !y == x) rest
          have hleft : v.m_size - (i + 1) = rest.length := by omega
          have hshape : front ++ x :: rest = front ++ x :: [] ++ rest := by simp
          rw [hshape] at hv
          obtain ⟨next, hnext, hholds⟩ :=
            (dedupInner_holds hv hi (Nat.add_zero _) (by omega)).1 (by omega)
          rw [if_pos (by omega), incr_of_lt (by omega), Option.bind_some, hleft,
            hnext, Option.bind_some, Option.bind_some, List.eraseDups_cons]
          have hrest := ih hholds (i := i + 1)
            (by rw [List.length_append, List.length_singleton, hi])
            (by
              rw [List.length_append, List.length_append, List.length_singleton]
              omega)
            (by omega)
          simpa using hrest

/-- The elements that differ from the first, and the first. -/
def FirstRoundFits : List T → Prop
  | [] => True
  | x :: rest => (rest.filter fun y => !y == x).length + 1 < 2 ^ 31

theorem dedupOuter_whole (hv : v.Holds items) :
    (FirstRoundFits items → ∃ next, dedupOuter (v.m_size + 1) 0 v = some next ∧
      next.Holds items.eraseDups) ∧
    (¬FirstRoundFits items → dedupOuter (v.m_size + 1) 0 v = none) := by
  have hsize := hv.size_eq
  rw [dedupOuter]
  cases items with
  | nil =>
      rw [if_neg (by rw [hsize, List.length_nil]; omega)]
      exact ⟨fun _ => ⟨v, rfl, hv⟩, fun hnot => absurd trivial hnot⟩
  | cons x rest =>
      rw [List.length_cons] at hsize
      have hleft : v.m_size - (0 + 1) = rest.length := by omega
      have hfirst := @dedupInner_holds T _ v [] [] rest x 0 1 hv rfl rfl
        (by decide)
      rw [if_pos (by omega), incr_of_lt (by decide), Option.bind_some, hleft]
      constructor
      · intro hfits
        have hfits' : (rest.filter fun y => !y == x).length + 1 < 2 ^ 31 :=
          hfits
        obtain ⟨next, hnext, hholds⟩ := hfirst.1 (by omega)
        rw [hnext, Option.bind_some, Option.bind_some, List.eraseDups_cons]
        have hlength := List.length_filter_le (fun y => !y == x) rest
        have hrest := @dedupOuter_holds T _ next [x]
          (rest.filter fun y => !y == x) 1 v.m_size hholds rfl
          (by rw [List.length_append, List.length_singleton]; omega)
          (by omega)
        exact hrest
      · intro hnot
        have hnot' : ¬(rest.filter fun y => !y == x).length + 1 < 2 ^ 31 := hnot
        rw [hfirst.2 (by omega)]
        rfl

theorem returned_eq {n d : Nat} (hd : d ≤ n) :
    asInt (asSize (asSize (asInt n) - d)) = asInt (n - d : Nat) := by
  rw [asInt, asInt, asInt, asSize, asSize, Int.bmod_def, Int.bmod_def,
    Int.bmod_def]
  split <;> split <;> split <;> omega

theorem asInt_eq_iff (n : Nat) : asInt n = n ↔ n < 2 ^ 31 := by
  constructor
  · intro heq
    have hlt := asInt_lt n
    omega
  · exact fun hlt => asInt_of_lt n (Int.natCast_nonneg n) (by omega)

theorem length_eraseDups_le (items : List T) :
    items.eraseDups.length ≤ items.length := by
  induction hlength : items.length using Nat.strong_induction_on
    generalizing items with
  | _ n ih =>
      subst hlength
      cases items with
      | nil => exact Nat.le_refl 0
      | cons x rest =>
          have hfilter := List.length_filter_le (fun y => !y == x) rest
          rw [List.length_cons] at ih ⊢
          have hrest := ih (rest.filter fun y => !y == x).length (by omega)
            (rest.filter fun y => !y == x) rfl
          rw [List.eraseDups_cons, List.length_cons]
          omega

/-- What `deduplicate` is for. -/
def Deduplicates (v : MVector T) (items : List T) : Prop :=
  ∃ next, v.deduplicate =
    some (((items.length - items.eraseDups.length : Nat) : Int), next) ∧
    next.Holds items.eraseDups

theorem deduplicates_iff (hv : v.Holds items) :
    v.Deduplicates items ↔ FirstRoundFits items ∧
      items.length - items.eraseDups.length < 2 ^ 31 := by
  obtain ⟨hsome, hnone⟩ := dedupOuter_whole hv
  have hsize := hv.size_eq
  have hle := length_eraseDups_le items
  by_cases hfits : FirstRoundFits items
  · obtain ⟨next, hnext, hholds⟩ := hsome hfits
    have hdedup : v.deduplicate =
        some (asInt (items.length - items.eraseDups.length : Nat), next) := by
      rw [deduplicate, hnext, Option.map_some, hholds.size_eq, hsize,
        returned_eq hle]
    constructor
    · rintro ⟨other, hother, _⟩
      rw [hdedup] at hother
      have heq : asInt (items.length - items.eraseDups.length : Nat) =
          (items.length - items.eraseDups.length : Nat) :=
        (Prod.mk.inj (Option.some.inj hother)).1
      exact ⟨hfits, (asInt_eq_iff _).mp heq⟩
    · rintro ⟨_, hcount⟩
      refine ⟨next, ?_, hholds⟩
      rw [hdedup]
      exact congrArg (fun value => some (value, next))
        ((asInt_eq_iff _).mpr hcount)
  · constructor
    · rintro ⟨next, hnext, _⟩
      rw [deduplicate, hnone hfits] at hnext
      cases hnext
    · exact fun h => absurd h.1 hfits

/-! ### Compacting in place -/

/-- The loop keeps the elements that differ from the one before, unless there
are more than `j` can count. -/
theorem uniqueLoop_append {front rest : List T} {x : T} {gap back : Cells T}
    {i j : Nat} (hi : front.length = i) (hj : i + 1 + gap.length = j)
    (hlt : j < 2 ^ 31) :
    (j + rest.length < 2 ^ 31 → ∃ left : Cells T,
      left.length + (rest.destutter' Ne x).length =
        1 + gap.length + rest.length + back.length ∧
      uniqueLoop rest.length i j
        (front.map some ++ some x :: gap ++ rest.map some ++ back) =
        some (i + (rest.destutter' Ne x).length - 1,
          (front ++ rest.destutter' Ne x).map some ++ left)) ∧
    (2 ^ 31 ≤ j + rest.length → uniqueLoop rest.length i j
      (front.map some ++ some x :: gap ++ rest.map some ++ back) = none) := by
  induction rest generalizing front x gap i j with
  | nil =>
      refine ⟨fun _ => ⟨gap ++ back, ?_, ?_⟩, fun hge => ?_⟩
      · simp only [List.destutter'_nil, List.length_append, List.length_cons,
          List.length_nil]
        omega
      · simp [uniqueLoop]
      · rw [List.length_nil] at hge
        omega
  | cons y rest ih =>
      have hlength : (front.map some ++ some x :: gap).length = j := by
        rw [List.length_append, List.length_map, List.length_cons]
        omega
      have hy : Cells.read (front.map some ++ some x :: gap ++
          (y :: rest).map some ++ back) j = some y := by
        rw [List.map_cons, List.append_assoc, List.cons_append]
        exact Cells.read_append hlength
      have hx : Cells.read (front.map some ++ some x :: gap ++
          (y :: rest).map some ++ back) i = some x := by
        rw [List.append_assoc, List.append_assoc, List.cons_append]
        exact Cells.read_append (by rw [List.length_map, hi])
      rw [List.length_cons, uniqueLoop, hx, hy]
      dsimp only
      by_cases hne : x ≠ y
      · -- The gap with the element at `j` starts where it goes to.
        obtain ⟨cell, gap', hgap⟩ :
            ∃ cell gap', gap ++ [some y] = cell :: gap' :=
          List.exists_cons_of_ne_nil (by simp)
        have hgapLength : gap'.length = gap.length := by
          have hboth := congrArg List.length hgap
          simp only [List.length_append, List.length_cons, List.length_nil]
            at hboth
          omega
        have hshape : front.map some ++ some x :: gap ++ (y :: rest).map some ++
            back = (front ++ [x]).map some ++ cell ::
              (gap' ++ (rest.map some ++ back)) := by
          have htail : some x :: gap ++ (y :: rest).map some =
              some x :: (gap ++ [some y]) ++ rest.map some := by simp
          rw [List.append_assoc (front.map some), htail, hgap]
          simp
        have hwritten : (front ++ [x]).map some ++ some y ::
            (gap' ++ (rest.map some ++ back)) =
            (front ++ [x]).map some ++ some y :: gap' ++ rest.map some ++
              back := by simp
        have hplace : ((front ++ [x]).map some).length = i + 1 := by
          simp [hi]
        rw [if_pos hne, incr_of_lt (by omega), Option.bind_some, hshape,
          Cells.write_append hplace, Option.bind_some, hwritten,
          List.destutter'_cons_pos _ hne, List.length_cons]
        by_cases hnext : j + 1 < 2 ^ 31
        · obtain ⟨hsome, hnone⟩ := @ih (front ++ [x]) y gap' (i + 1)
            (j + 1) (by simp [hi]) (by omega) hnext
          rw [incr_of_lt hnext, Option.bind_some]
          refine ⟨fun hfits => ?_, fun hge => hnone (by omega)⟩
          obtain ⟨left, hleft, hrest⟩ := hsome (by omega)
          have hindex : i + 1 + (rest.destutter' Ne y).length - 1 =
              i + ((rest.destutter' Ne y).length + 1) - 1 := by omega
          rw [hindex, List.append_assoc front, List.singleton_append] at hrest
          exact ⟨left, by omega, hrest⟩
        · rw [incr_of_ge (by omega)]
          exact ⟨fun hfits => by omega, fun _ => rfl⟩
      · have hshape : front.map some ++ some x :: gap ++ (y :: rest).map some ++
            back = front.map some ++ some x :: (gap ++ [some y]) ++
              rest.map some ++ back := by simp
        have hgap : (gap ++ [some y]).length = gap.length + 1 := by simp
        rw [if_neg hne, List.destutter'_cons_neg _ hne, hshape]
        by_cases hnext : j + 1 < 2 ^ 31
        · obtain ⟨hsome, hnone⟩ := @ih front x (gap ++ [some y]) i (j + 1) hi
            (by omega) hnext
          rw [incr_of_lt hnext, Option.bind_some]
          refine ⟨fun hfits => ?_, fun hge => hnone (by omega)⟩
          obtain ⟨left, hleft, hrest⟩ := hsome (by omega)
          exact ⟨left, by omega, hrest⟩
        · rw [incr_of_ge (by omega)]
          exact ⟨fun hfits => by omega, fun _ => rfl⟩

theorem unique_holds {x : T} {rest : List T} (hv : v.Holds (x :: rest)) :
    (rest.length + 1 < 2 ^ 31 → ∃ next, v.unique = some next ∧
      next.Holds (rest.destutter' Ne x)) ∧
    (2 ^ 31 ≤ rest.length + 1 → v.unique = none) := by
  obtain ⟨back, hvec, hback⟩ := hv.split
  have hsize := hv.size_eq
  have hlt := hv.capcity_lt
  rw [List.length_cons] at hsize hback
  have hrounds : v.m_size - 1 = rest.length := by omega
  obtain ⟨hsome, hnone⟩ := @uniqueLoop_append T _ [] rest x [] back 0 1 rfl rfl
    (by decide)
  have hshape : v.vec =
      ([] : List T).map some ++ some x :: [] ++ rest.map some ++ back := by
    rw [hvec]
    simp
  rw [← hshape] at hsome hnone
  rw [unique, hrounds]
  refine ⟨fun hfits => ?_, fun hge => by rw [hnone (by omega)]; rfl⟩
  obtain ⟨left, hleft, hloop⟩ := hsome (by omega)
  rw [List.length_nil] at hleft
  have hpos : 0 < (rest.destutter' Ne x).length :=
    List.length_pos_of_ne_nil (List.destutter'_ne_nil _ _)
  have hcount : asSize (((0 + (rest.destutter' Ne x).length - 1 : Nat) : Int) +
      1) = (rest.destutter' Ne x).length := by
    rw [asSize]
    omega
  refine ⟨_, by rw [hloop]; rfl, ?_⟩
  refine @Holds.of_split _ _ _ left rfl hcount ?_ hlt
  dsimp only
  omega

end MVector

/-! ### Sorted vectors -/

section Sorted

variable {T : Type u} [LinearOrder T]

/-- In a sorted list equal elements stand together. -/
theorem destutter_eq_eraseDups {x : T} {rest : List T}
    (hsorted : (x :: rest).Pairwise (· ≤ ·)) :
    rest.destutter' Ne x = (x :: rest).eraseDups := by
  induction rest generalizing x with
  | nil => rfl
  | cons y rest ih =>
      obtain ⟨hx, hrest⟩ := List.pairwise_cons.mp hsorted
      rw [List.eraseDups_cons]
      by_cases heq : x = y
      · subst heq
        rw [List.destutter'_cons_neg _ (not_not.mpr rfl), ih hrest,
          List.eraseDups_cons, List.filter_cons_of_neg (by simp)]
      · have hlt : ∀ z ∈ y :: rest, x ≠ z := by
          intro z hz
          have hxy : x < y := lt_of_le_of_ne (hx y List.mem_cons_self) heq
          rcases List.mem_cons.mp hz with rfl | hmem
          · exact heq
          · have hyz := (List.pairwise_cons.mp hrest).1 z hmem
            exact ne_of_lt (lt_of_lt_of_le hxy hyz)
        have hkept : ((y :: rest).filter fun z => !z == x) = y :: rest := by
          refine List.filter_eq_self.mpr fun z hz => ?_
          simpa using (hlt z hz).symm
        rw [List.destutter'_cons_pos _ heq, ih hrest, hkept]

namespace MVector

variable {v : MVector T} {items : List T}

/-- What `unique` is for. -/
def Uniquifies (v : MVector T) (items : List T) : Prop :=
  ∃ next, v.unique = some next ∧ next.Holds items.eraseDups

theorem uniquifies_iff (hv : v.Holds items)
    (hsorted : items.Pairwise (· ≤ ·)) :
    v.Uniquifies items ↔ 1 ≤ items.length ∧ items.length < 2 ^ 31 := by
  cases items with
  | nil =>
      have hzero : v.m_size = 0 := hv.size_eq
      constructor
      · rintro ⟨next, hnext, hholds⟩
        rw [unique, hzero] at hnext
        cases hnext
        cases hholds.size_eq
      · rintro ⟨hpos, _⟩
        cases hpos
  | cons x rest =>
      obtain ⟨hsome, hnone⟩ := unique_holds hv
      rw [destutter_eq_eraseDups hsorted] at hsome
      rw [List.length_cons]
      constructor
      · rintro ⟨next, hnext, _⟩
        refine ⟨by omega, ?_⟩
        by_contra hge
        rw [hnone (by omega)] at hnext
        cases hnext
      · exact fun h => hsome h.2

/-- Both drop repetitions alike: `deduplicate` always, and `unique` where the
vector is sorted. -/
def DuplicatesAgree (v : MVector T) (items : List T) : Prop :=
  v.Deduplicates items ∧ (items.Pairwise (· ≤ ·) → v.Uniquifies items)

/-- They do so exactly on vectors that their `int`s can count, and sorted ones
must not be empty. -/
theorem duplicatesAgree_iff (hv : v.Holds items) :
    v.DuplicatesAgree items ↔
      FirstRoundFits items ∧
      items.length - items.eraseDups.length < 2 ^ 31 ∧
      (items.Pairwise (· ≤ ·) → 1 ≤ items.length ∧ items.length < 2 ^ 31) := by
  rw [DuplicatesAgree, deduplicates_iff hv, and_assoc]
  refine and_congr_right fun _ => and_congr_right fun _ => ?_
  exact forall_congr' fun hsorted => uniquifies_iff hv hsorted

theorem duplicatesAgree_three :
    DuplicatesAgree ⟨4, 3, 0, [some 1, some 2, some 1, none]⟩
      [(1 : Int), 2, 1] ↔
      FirstRoundFits [(1 : Int), 2, 1] ∧
      [(1 : Int), 2, 1].length - [(1 : Int), 2, 1].eraseDups.length < 2 ^ 31 ∧
      ([(1 : Int), 2, 1].Pairwise (· ≤ ·) →
        1 ≤ [(1 : Int), 2, 1].length ∧ [(1 : Int), 2, 1].length < 2 ^ 31) :=
  duplicatesAgree_iff (@Holds.of_split _ _ _ [none] rfl rfl rfl
    (by decide : 4 < 2 ^ 64))

/-- On the empty vector `unique` leaves the size 1. -/
theorem unique_of_empty :
    ¬∀ (v : MVector Int) (items : List Int), v.Holds items →
      v.DuplicatesAgree items := by
  intro hclaim
  obtain ⟨_, hunique⟩ := hclaim empty [] holds_empty
  obtain ⟨next, hnext, hholds⟩ := hunique List.Pairwise.nil
  cases hnext
  cases hholds.size_eq

end MVector

end Sorted

end Mst

end LinuxTest
