/-
Binary heaps laid out over the natural numbers: the order between a slot and its
parent, what is left of it while one element moves up or down, and the exchange
of two slots.
-/
import Mathlib.Data.List.Nodup
import Mathlib.Data.List.Range
import Mathlib.Logic.Equiv.Basic
import Mathlib.Order.Lattice
import Mathlib.Data.List.Perm.Basic

namespace LinuxTest

universe u v

variable {V : Type u}

/-! ### Exchanging two slots -/

/-- The slots with those at `i` and `j` exchanged. -/
def swapAt (slots : Nat → V) (i j : Nat) : Nat → V := fun k =>
  if k = i then slots j else if k = j then slots i else slots k

@[simp] theorem swapAt_left (slots : Nat → V) (i j : Nat) :
    swapAt slots i j i = slots j := by
  simp [swapAt]

@[simp] theorem swapAt_right (slots : Nat → V) (i j : Nat) :
    swapAt slots i j j = slots i := by
  by_cases hij : j = i
  · simp [swapAt, hij]
  · simp [swapAt, hij]

theorem swapAt_of_ne (slots : Nat → V) {i j k : Nat} (hi : k ≠ i)
    (hj : k ≠ j) : swapAt slots i j k = slots k := by
  simp [swapAt, hi, hj]

theorem swapAt_comp {W : Type v} (f : V → W) (slots : Nat → V) (i j : Nat) :
    f ∘ swapAt slots i j = swapAt (f ∘ slots) i j := by
  funext k
  simp only [Function.comp, swapAt]
  split
  · rfl
  · split <;> rfl

/-- What the first `n` slots hold. -/
def contents (slots : Nat → V) (n : Nat) : List V :=
  (List.range n).map slots

theorem mem_contents {slots : Nat → V} {n : Nat} {value : V} :
    value ∈ contents slots n ↔ ∃ i < n, slots i = value := by
  simp [contents]

theorem contents_congr {slots other : Nat → V} {n : Nat}
    (hsame : ∀ i < n, slots i = other i) :
    contents slots n = contents other n := by
  apply List.map_congr_left
  intro i hi
  exact hsame i (List.mem_range.mp hi)

theorem contents_succ (slots : Nat → V) (n : Nat) :
    contents slots (n + 1) = contents slots n ++ [slots n] := by
  simp [contents, List.range_succ]

/-- Where no value stands twice, a value has one slot. -/
theorem contents_inj {slots : Nat → V} {n i j : Nat}
    (hnodup : (contents slots n).Nodup) (hi : i < n) (hj : j < n)
    (hsame : slots i = slots j) : i = j :=
  List.inj_on_of_nodup_map hnodup (List.mem_range.mpr hi)
    (List.mem_range.mpr hj) hsame

/-- An exchange inside the first `n` slots loses and doubles nothing. -/
theorem contents_swapAt_perm (slots : Nat → V) {i j n : Nat} (hi : i < n)
    (hj : j < n) : (contents (swapAt slots i j) n).Perm (contents slots n) := by
  have hswap : swapAt slots i j = slots ∘ Equiv.swap i j := by
    funext k
    simp only [swapAt, Function.comp, Equiv.swap_apply_def]
    split
    · rfl
    · split <;> rfl
  have hrange : ((List.range n).map (Equiv.swap i j)).Perm
      (List.range n) := by
    rw [List.perm_ext_iff_of_nodup
      (List.Nodup.map (Equiv.swap i j).injective List.nodup_range)
      List.nodup_range]
    intro k
    rw [List.mem_map_of_involutive (Equiv.swap_apply_self i j)]
    simp only [List.mem_range, Equiv.swap_apply_def]
    split
    · omega
    · split <;> omega
  rw [contents, hswap, ← List.map_map]
  exact hrange.map slots

/-! ### The order of a heap -/

variable [LinearOrder V] {key : Nat → V} {n hole : Nat}

/-- No slot below `n` is less than its parent. -/
def HeapOrder (key : Nat → V) (n : Nat) : Prop :=
  ∀ i, 1 ≤ i → i < n → key ((i - 1) / 2) ≤ key i

theorem HeapOrder.root_le (horder : HeapOrder key n) {i : Nat} (hi : i < n) :
    key 0 ≤ key i := by
  induction i using Nat.strong_induction_on with
  | _ i ih =>
      by_cases hzero : i = 0
      · rw [hzero]
      · exact (ih ((i - 1) / 2) (by omega) (by omega)).trans
          (horder i (by omega) hi)

/-- Ordered except perhaps between `hole` and its parent; what stands under
`hole` is in order with that parent too. -/
structure OrderedAbove (key : Nat → V) (n hole : Nat) : Prop where
  order : ∀ i, 1 ≤ i → i < n → i ≠ hole → key ((i - 1) / 2) ≤ key i
  skip : ∀ i, 1 ≤ i → i < n → (i - 1) / 2 = hole → 1 ≤ hole →
    key ((hole - 1) / 2) ≤ key i

/-- A new last slot can only be out of order with its parent. -/
theorem HeapOrder.orderedAbove_last (horder : HeapOrder key n) :
    OrderedAbove key (n + 1) n := by
  constructor
  · intro i hpos hi hne
    exact horder i hpos (by omega)
  · intro i hpos hi hparent _
    omega

theorem HeapOrder.orderedAbove (horder : HeapOrder key n) (hole : Nat) :
    OrderedAbove key n hole := by
  constructor
  · intro i hpos hi _
    exact horder i hpos hi
  · intro i hpos hi hparent hhole
    have hup := horder i hpos hi
    rw [hparent] at hup
    exact (horder hole hhole (by omega)).trans hup

theorem OrderedAbove.heapOrder (habove : OrderedAbove key n hole)
    (hhole : 1 ≤ hole → key ((hole - 1) / 2) ≤ key hole) :
    HeapOrder key n := by
  intro i hpos hi
  by_cases hne : i = hole
  · subst hne
    exact hhole hpos
  · exact habove.order i hpos hi hne

/-- Moving an element that is not greater up moves the hole up. -/
theorem OrderedAbove.swap_of_le (habove : OrderedAbove key n hole)
    (hpos : 1 ≤ hole) (hlt : hole < n)
    (hle : key hole ≤ key ((hole - 1) / 2)) :
    OrderedAbove (swapAt key ((hole - 1) / 2) hole) n ((hole - 1) / 2) := by
  have hup : (hole - 1) / 2 < hole := by omega
  constructor
  · intro i hone hi hne
    by_cases hi' : i = hole
    · subst hi'
      simpa using hle
    · rw [swapAt_of_ne key hne hi']
      by_cases hparent : (i - 1) / 2 = (hole - 1) / 2
      · rw [hparent, swapAt_left]
        exact hle.trans (hparent ▸ habove.order i hone hi hi')
      · by_cases hunder : (i - 1) / 2 = hole
        · rw [hunder, swapAt_right]
          exact habove.skip i hone hi hunder hpos
        · rw [swapAt_of_ne key hparent hunder]
          exact habove.order i hone hi hi'
  · intro i hone hi hparent hup'
    have hgrand : key (((hole - 1) / 2 - 1) / 2) ≤ key ((hole - 1) / 2) :=
      habove.order _ hup' (by omega) (by omega)
    rw [swapAt_of_ne key (k := ((hole - 1) / 2 - 1) / 2) (by omega)
      (by omega)]
    by_cases hi' : i = hole
    · subst hi'
      simpa using hgrand
    · rw [swapAt_of_ne key (by omega) hi']
      exact hgrand.trans (hparent ▸ habove.order i hone hi hi')

/-- Ordered except perhaps between `hole` and its children, which are in order
with the parent of `hole`. -/
structure OrderedBelow (key : Nat → V) (n hole : Nat) : Prop where
  order : ∀ i, 1 ≤ i → i < n → (i - 1) / 2 ≠ hole → key ((i - 1) / 2) ≤ key i
  skip : ∀ i, 1 ≤ i → i < n → (i - 1) / 2 = hole → 1 ≤ hole →
    key ((hole - 1) / 2) ≤ key i

theorem OrderedBelow.heapOrder (hbelow : OrderedBelow key n hole)
    (hhole : ∀ i, 1 ≤ i → i < n → (i - 1) / 2 = hole → key hole ≤ key i) :
    HeapOrder key n := by
  intro i hpos hi
  by_cases hparent : (i - 1) / 2 = hole
  · rw [hparent]
    exact hhole i hpos hi hparent
  · exact hbelow.order i hpos hi hparent

/-- Moving the least child up moves the hole down to it. -/
theorem OrderedBelow.swap_of_le (hbelow : OrderedBelow key n hole)
    {child : Nat} (hpos : 1 ≤ child) (hlt : child < n)
    (hchild : (child - 1) / 2 = hole)
    (hleast : ∀ i, 1 ≤ i → i < n → (i - 1) / 2 = hole → key child ≤ key i)
    (hle : key child ≤ key hole) :
    OrderedBelow (swapAt key hole child) n child := by
  constructor
  · intro i hone hi hparent
    by_cases hi' : i = child
    · subst hi'
      rw [hchild, swapAt_left, swapAt_right]
      exact hle
    · by_cases htop : i = hole
      · subst htop
        rw [swapAt_left, swapAt_of_ne key (by omega) hparent]
        exact hbelow.skip child hpos hlt hchild hone
      · rw [swapAt_of_ne key htop hi']
        by_cases hunder : (i - 1) / 2 = hole
        · rw [hunder, swapAt_left]
          exact hleast i hone hi hunder
        · rw [swapAt_of_ne key hunder hparent]
          exact hbelow.order i hone hi hunder
  · intro i hone hi hparent _
    rw [hchild, swapAt_left, swapAt_of_ne key (by omega) (by omega)]
    exact hparent ▸ hbelow.order i hone hi (by omega)

end LinuxTest
