/-
The constructor that fills a search tree from a vector: from the middle on, two
indices run outward, both of them `int`s.
-/
import LinuxTest.MachineInt
import LinuxTest.SearchTree

namespace LinuxTest

namespace Sta

universe u

namespace SearchTree

variable {T : Type u} [LinearOrder T]

/-- `vec[i]`; a negative `int` is a huge index. -/
def valueAt (vec : List T) (i : Int) : Option T :=
  if i < 0 then none else vec[i.toNat]?

/-- The loop over `i` and `j`; a round takes `i` one further, so that `rounds`
need only be greater than what is left of the vector. -/
def bulkLoop (vec : List T) :
    Nat → Int → Int → SearchTree T → Option (Int × SearchTree T)
  | 0, _, _, _ => none
  | rounds + 1, i, j, tree =>
      if 0 ≤ i ∧ i < vec.length then do
        let x ← valueAt vec i
        let (_, tree) ← tree.insert x
        let y ← valueAt vec j
        let (_, tree) ← tree.insert y
        if i + 1 < 2 ^ 31 then
          bulkLoop vec rounds (i + 1) (j - 1) tree
        else
          none
      else
        some (j, tree)

def build (vec : List T) : Option (SearchTree T) := do
  let size := asInt vec.length
  let x ← valueAt vec (size.tdiv 2)
  let (_, tree) ← empty.insert x
  let (j, tree) ← bulkLoop vec (vec.length + 1) (size.tdiv 2 + 1)
    (size.tdiv 2 - 1) tree
  if j = 0 then
    let x ← valueAt vec j
    let (_, tree) ← tree.insert x
    return tree
  else
    return tree

/-- The tree holds the values at the places between `j` and `i`. -/
def Spans (vec : List T) (j i : Int) (tree : SearchTree T) : Prop :=
  ∃ t, tree.root = some t ∧ t.Ordered ∧
    ∀ x, x ∈ t.inorder ↔ ∃ k : Nat, j < k ∧ k < i ∧ vec[k]? = some x

variable {vec : List T} {i j : Int} {tree : SearchTree T}

omit [LinearOrder T] in
theorem valueAt_of_lt {k : Nat} (hk : k < vec.length) :
    valueAt vec k = some vec[k] := by
  rw [valueAt, if_neg (Int.not_lt.mpr (Int.natCast_nonneg k)),
    Int.toNat_natCast, List.getElem?_eq_getElem hk]

/-- One more value at either end of the span. -/
theorem Spans.insert (h : Spans vec j i tree) {k : Nat}
    (hk : k < vec.length) {j' i' : Int}
    (hspan : ∀ n : Nat, (j' < n ∧ n < i') ↔ n = k ∨ (j < n ∧ n < i)) :
    ∃ added next, tree.insert vec[k] = some (added, next) ∧
      Spans vec j' i' next := by
  obtain ⟨t, hroot, hordered, hmem⟩ := h
  refine ⟨(t.insert vec[k]).2, ⟨some (t.insert vec[k]).1⟩, ?_, _, rfl,
    hordered.insert vec[k], fun x => ?_⟩
  · rw [SearchTree.insert, hroot]
    rfl
  · rw [TreeNode.mem_insert, hmem]
    constructor
    · rintro (rfl | ⟨n, hj, hi, hn⟩)
      · obtain ⟨hj, hi⟩ := (hspan k).mpr (Or.inl rfl)
        exact ⟨k, hj, hi, List.getElem?_eq_getElem hk⟩
      · obtain ⟨hj', hi'⟩ := (hspan n).mpr (Or.inr ⟨hj, hi⟩)
        exact ⟨n, hj', hi', hn⟩
    · rintro ⟨n, hj, hi, hn⟩
      rcases (hspan n).mp ⟨hj, hi⟩ with rfl | ⟨hj', hi'⟩
      · rw [List.getElem?_eq_getElem hk] at hn
        exact Or.inl (Option.some.inj hn).symm
      · exact Or.inr ⟨n, hj', hi', hn⟩

theorem spans_empty (vec : List T) (m : Nat) :
    Spans vec m m (empty : SearchTree T) := by
  refine ⟨.null, rfl, List.Pairwise.nil, fun x => ?_⟩
  refine iff_of_false List.not_mem_nil ?_
  rintro ⟨k, hlow, hhigh, _⟩
  omega

theorem bulkLoop_round {rounds : Nat} {x y : T} {a b : Bool}
    {first second : SearchTree T} (hi : 0 ≤ i ∧ i < vec.length)
    (hx : valueAt vec i = some x) (hfirst : tree.insert x = some (a, first))
    (hy : valueAt vec j = some y) (hsecond : first.insert y = some (b, second))
    (hnext : i + 1 < 2 ^ 31) :
    bulkLoop vec (rounds + 1) i j tree =
      bulkLoop vec rounds (i + 1) (j - 1) second := by
  rw [bulkLoop, if_pos hi, hx]
  simp only [Option.bind_eq_bind, Option.bind_some, hfirst, hy, hsecond,
    if_pos hnext]

/-- While `i` and `j` are as far from the middle, the loop runs to the end. -/
theorem bulkLoop_spans {i j rounds middle : Nat}
    (h : Spans vec (j - 1 : Int) i tree) (hlow : middle < i)
    (hi : i ≤ vec.length) (hmiddle : i + j = 2 * middle + 1)
    (hhalf : middle = vec.length / 2) (hshort : vec.length < 2 ^ 31)
    (hrounds : vec.length - i < rounds) :
    ∃ next, bulkLoop vec rounds i (j - 1 : Int) tree =
      some ((2 * middle : Int) - vec.length, next) ∧
      Spans vec ((2 * middle : Int) - vec.length) vec.length next := by
  induction rounds generalizing i j tree with
  | zero => omega
  | succ rounds ih =>
      by_cases hmore : i < vec.length
      · obtain ⟨below, rfl⟩ : ∃ below, j = below + 1 := ⟨j - 1, by omega⟩
        have hj : ((below + 1 : Nat) : Int) - 1 = below := by omega
        have hi' : (i : Int) + 1 = ((i + 1 : Nat) : Int) := by omega
        have hbelow : below < vec.length := by omega
        rw [hj] at h ⊢
        obtain ⟨_, first, hfirst, hspan⟩ :=
          @Spans.insert _ _ vec i below tree h i hmore below (i + 1 : Nat)
            (by intro n; omega)
        obtain ⟨_, second, hsecond, hspan⟩ :=
          @Spans.insert _ _ vec _ _ first hspan below hbelow
            ((below : Int) - 1) (i + 1 : Nat) (by intro n; omega)
        obtain ⟨next, hnext, hdone⟩ :=
          @ih second (i + 1) below hspan (by omega) (by omega) (by omega)
            (by omega)
        refine ⟨next, ?_, hdone⟩
        rw [bulkLoop_round (by omega) (valueAt_of_lt hmore) hfirst
          (valueAt_of_lt hbelow) hsecond (by omega), hi', hnext]
      · have hend : i = vec.length := by omega
        have hj : (j : Int) - 1 = (2 * middle : Int) - vec.length := by omega
        rw [bulkLoop, if_neg (by omega), ← hj]
        exact ⟨tree, rfl, hend ▸ h⟩

omit [LinearOrder T] in
theorem valueAt_neg (hi : i < 0) : valueAt vec i = none :=
  if_pos hi

theorem bulkLoop_some {rounds : Nat} {result : Int × SearchTree T}
    (h : bulkLoop vec (rounds + 1) i j tree = some result)
    (hi : 0 ≤ i ∧ i < vec.length) :
    ∃ y second, valueAt vec j = some y ∧
      bulkLoop vec rounds (i + 1) (j - 1) second = some result := by
  rw [bulkLoop, if_pos hi] at h
  simp only [Option.bind_eq_bind, Option.bind_eq_some_iff] at h
  obtain ⟨x, _, ⟨_, first⟩, _, y, hy, ⟨_, second⟩, _, hrest⟩ := h
  split at hrest
  · exact ⟨y, second, hy, hrest⟩
  · cases hrest

/-- Where `j` gets below zero before `i` gets to the end, it is used there. -/
theorem bulkLoop_outside {below rounds : Nat} (hi : 0 ≤ i)
    (hfar : i + below < vec.length) (tree : SearchTree T)
    (result : Int × SearchTree T) :
    bulkLoop vec rounds i (below - 1 : Int) tree ≠ some result := by
  induction rounds generalizing i below tree with
  | zero => exact (Option.some_ne_none result).symm
  | succ rounds ih =>
      intro h
      obtain ⟨y, second, hy, hrest⟩ := bulkLoop_some h (by omega)
      cases below with
      | zero =>
          rw [valueAt_neg (by omega)] at hy
          cases hy
      | succ below =>
          have hj : ((below + 1 : Nat) : Int) - 1 - 1 = (below : Int) - 1 := by
            omega
          rw [hj] at hrest
          exact ih (by omega) (by omega) second hrest

/-- The tree of the distinct values of a vector. -/
def Holds (tree : SearchTree T) (vec : List T) : Prop :=
  ∃ t, tree.root = some t ∧ t.inorder.Pairwise (· < ·) ∧
    ∀ x, x ∈ t.inorder ↔ x ∈ vec

theorem Spans.holds (h : Spans vec j i tree) (hj : j < 0)
    (hi : vec.length ≤ i) : tree.Holds vec := by
  obtain ⟨t, hroot, hordered, hmem⟩ := h
  refine ⟨t, hroot, hordered, fun x => ?_⟩
  rw [hmem, List.mem_iff_getElem?]
  constructor
  · rintro ⟨k, _, _, hk⟩
    exact ⟨k, hk⟩
  · rintro ⟨k, hk⟩
    obtain ⟨hlt, _⟩ := List.getElem?_eq_some_iff.mp hk
    exact ⟨k, by omega, by omega, hk⟩

theorem build_holds (hne : vec ≠ []) (hshort : vec.length < 2 ^ 31) :
    ∃ tree, build vec = some tree ∧ tree.Holds vec := by
  have hpos := List.length_pos_of_ne_nil hne
  obtain ⟨middle, hhalf⟩ : ∃ middle, middle = vec.length / 2 := ⟨_, rfl⟩
  have hsize : asInt vec.length = vec.length :=
    asInt_of_lt _ (Int.natCast_nonneg _) (by omega)
  have htdiv : (vec.length : Int).tdiv 2 = middle := by
    rw [hhalf]
    exact (Int.ofNat_tdiv vec.length 2).symm
  have hin : middle < vec.length := by omega
  have hnext : (middle : Int) + 1 = ((middle + 1 : Nat) : Int) := by omega
  obtain ⟨_, first, hfirst, hspan⟩ :=
    @Spans.insert _ _ vec middle middle empty (spans_empty vec middle) middle
      hin ((middle : Int) - 1) (middle + 1 : Nat) (by intro n; omega)
  obtain ⟨loop, hloop, hspan⟩ :=
    @bulkLoop_spans _ _ vec first (middle + 1) middle (vec.length + 1) middle
      hspan (by omega) (by omega) (by omega) hhalf hshort (by omega)
  have hbuild : build vec =
      if (2 * middle : Int) - vec.length = 0 then do
        let x ← valueAt vec ((2 * middle : Int) - vec.length)
        let (_, tree) ← loop.insert x
        return tree
      else some loop := by
    rw [build, hsize, htdiv, valueAt_of_lt hin, Option.bind_eq_bind,
      Option.bind_some, hfirst, hnext]
    dsimp only [Option.bind_eq_bind, Option.bind_some]
    rw [hloop]
    rfl
  rw [hbuild]
  by_cases heven : (2 * middle : Int) - vec.length = 0
  · rw [if_pos heven, heven]
    rw [heven] at hspan
    obtain ⟨_, last, hlast, hspan⟩ :=
      @Spans.insert _ _ vec _ _ loop hspan 0 hpos (-1) vec.length
        (by intro n; omega)
    have hzero : valueAt vec 0 = some vec[0] := valueAt_of_lt hpos
    refine ⟨last, ?_, hspan.holds (by omega) (Int.le_refl _)⟩
    rw [hzero, Option.bind_eq_bind, Option.bind_some, hlast]
    rfl
  · rw [if_neg heven]
    exact ⟨loop, rfl, hspan.holds (by omega) (Int.le_refl _)⟩

/-- A size that is no `int` lets the indices run out of the vector. -/
theorem build_long (hlong : 2 ^ 31 ≤ vec.length) (tree : SearchTree T) :
    build vec ≠ some tree := by
  intro h
  rw [build] at h
  simp only [Option.bind_eq_bind, Option.bind_eq_some_iff] at h
  obtain ⟨x, hx, ⟨_, first⟩, _, result, hloop, _⟩ := h
  have hlt := asInt_lt vec.length
  have hwrap : asInt vec.length < 0 ∨ 2 ^ 32 ≤ vec.length := by
    rw [asInt, Int.bmod_def]
    split <;> omega
  by_cases hneg : (asInt vec.length).tdiv 2 < 0
  · rw [valueAt_neg hneg] at hx
    cases hx
  · obtain ⟨middle, hmiddle⟩ :
        ∃ middle : Nat, (asInt vec.length).tdiv 2 = middle :=
      ⟨_, (Int.toNat_of_nonneg (Int.not_lt.mp hneg)).symm⟩
    rw [hmiddle] at hloop
    refine bulkLoop_outside (by omega) ?_ first result hloop
    by_cases hsize : 0 ≤ asInt vec.length
    · rw [Int.tdiv_eq_ediv_of_nonneg hsize] at hmiddle
      omega
    · obtain ⟨size, hsize⟩ : ∃ size : Nat, asInt vec.length = -size :=
        ⟨(-asInt vec.length).toNat, by omega⟩
      rw [hsize, Int.neg_tdiv, Int.natCast_tdiv_eq_ediv] at hmiddle
      omega

/-- The constructor builds the tree of the vector's values exactly where the
vector's size is an `int`. -/
theorem build_iff (hne : vec ≠ []) :
    (∃ tree, build vec = some tree ∧ tree.Holds vec) ↔
      vec.length < 2 ^ 31 := by
  refine ⟨fun h => ?_, build_holds hne⟩
  obtain ⟨tree, hbuild, _⟩ := h
  by_contra hlong
  exact build_long (Nat.le_of_not_lt hlong) tree hbuild

theorem build_three :
    (∃ tree, build [(2 : Int), 1, 2] = some tree ∧ tree.Holds [2, 1, 2]) ↔
      [(2 : Int), 1, 2].length < 2 ^ 31 :=
  build_iff (List.cons_ne_nil _ _)

/-- A vector of 2^31 elements has a negative `int` size. -/
theorem build_size_wraps :
    ¬∀ vec : List Int, vec ≠ [] →
      ∃ tree, build vec = some tree ∧ tree.Holds vec := by
  intro hclaim
  have hlength : (List.replicate (2 ^ 31) (0 : Int)).length = 2 ^ 31 :=
    List.length_replicate
  have hne : List.replicate (2 ^ 31) (0 : Int) ≠ [] := by
    intro hnil
    rw [hnil, List.length_nil] at hlength
    omega
  obtain ⟨tree, hbuild, _⟩ := hclaim _ hne
  exact build_long (Nat.le_of_eq hlength.symm) tree hbuild

end SearchTree

end Sta

end LinuxTest
