/-
The two ways an element of a binary heap moves to its place, told as what the
loops do: an element rises while it is less than its parent, or sinks while it
is greater than its least child.  Ranks are compared as they are; the order that
comes out may be the order of any monotone function of them.
-/
import LinuxTest.BinaryHeap

namespace LinuxTest

universe u v w

variable {V : Type u} {K : Type v} {L : Type w} [LinearOrder K]
  [LinearOrder L]

/-- From `slots`, the element at `h` rises to `place`. -/
inductive SiftsUp (rank : V → K) :
    (Nat → V) → Nat → (Nat → V) → Nat → Prop
  | stay {slots : Nat → V} {h : Nat}
      (hstay : 0 < h → rank (slots ((h - 1) / 2)) ≤ rank (slots h)) :
      SiftsUp rank slots h slots h
  | rise {slots next : Nat → V} {h place : Nat} (hpos : 0 < h)
      (hless : rank (slots h) < rank (slots ((h - 1) / 2)))
      (hrest : SiftsUp rank (swapAt slots ((h - 1) / 2) h) ((h - 1) / 2)
        next place) :
      SiftsUp rank slots h next place

/-- From `slots`, the element at `index` sinks, among the first `n` slots. -/
inductive SiftsDown (rank : V → K) (n : Nat) :
    (Nat → V) → Nat → (Nat → V) → Prop
  | stay {slots : Nat → V} {index : Nat}
      (hstay : ∀ i, 1 ≤ i → i < n → (i - 1) / 2 = index →
        rank (slots index) ≤ rank (slots i)) :
      SiftsDown rank n slots index slots
  | sink {slots next : Nat → V} {index child : Nat} (hpos : 1 ≤ child)
      (hlt : child < n) (hparent : (child - 1) / 2 = index)
      (hleast : ∀ i, 1 ≤ i → i < n → (i - 1) / 2 = index →
        rank (slots child) ≤ rank (slots i))
      (hless : rank (slots child) < rank (slots index))
      (hrest : SiftsDown rank n (swapAt slots index child) child next) :
      SiftsDown rank n slots index next

variable {rank : V → K} {slots next : Nat → V} {h place n index : Nat}

theorem SiftsUp.perm (hsift : SiftsUp rank slots h next place) (hlt : h < n) :
    (contents next n).Perm (contents slots n) := by
  induction hsift with
  | stay hstay => exact List.Perm.refl _
  | @rise slots next h place hpos hless hrest ih =>
      have hup : (h - 1) / 2 < n := by omega
      exact (ih hup).trans (contents_swapAt_perm slots hup hlt)

theorem SiftsUp.heapOrder (hsift : SiftsUp rank slots h next place)
    (hlt : h < n) {f : K → L} (hf : Monotone f)
    (habove : OrderedAbove (f ∘ rank ∘ slots) n h) :
    HeapOrder (f ∘ rank ∘ next) n := by
  induction hsift with
  | stay hstay => exact habove.heapOrder fun hpos => hf (hstay hpos)
  | @rise slots next h place hpos hless hrest ih =>
      apply ih (by omega)
      have hswap := habove.swap_of_le hpos hlt (hf hless.le)
      rwa [← swapAt_comp, ← swapAt_comp] at hswap

/-- Only slots up to `h` change. -/
theorem SiftsUp.frame (hsift : SiftsUp rank slots h next place) {i : Nat}
    (hi : h < i) : next i = slots i := by
  induction hsift with
  | stay hstay => rfl
  | @rise slots next h place hpos hless hrest ih =>
      rw [ih (by omega), swapAt_of_ne slots (by omega) (by omega)]

theorem SiftsUp.placed (hsift : SiftsUp rank slots h next place) :
    next place = slots h ∧ place ≤ h := by
  induction hsift with
  | stay hstay => exact ⟨rfl, le_refl _⟩
  | @rise slots next h place hpos hless hrest ih =>
      rw [ih.1, swapAt_left]
      exact ⟨rfl, ih.2.trans (by omega)⟩

/-- An element that is in order stays, and nothing else moves. -/
theorem SiftsUp.eq_of_le (hsift : SiftsUp rank slots h next place)
    (hle : 0 < h → rank (slots ((h - 1) / 2)) ≤ rank (slots h)) :
    next = slots ∧ place = h := by
  cases hsift with
  | stay hstay => exact ⟨rfl, rfl⟩
  | rise hpos hless hrest => exact absurd (hle hpos) (not_le.mpr hless)

/-- An element that rises leaves its parent in its place. -/
theorem SiftsUp.moved (hsift : SiftsUp rank slots h next place)
    (hpos : 0 < h) (hless : rank (slots h) < rank (slots ((h - 1) / 2))) :
    next h = slots ((h - 1) / 2) := by
  cases hsift with
  | stay hstay => exact absurd (hstay hpos) (not_le.mpr hless)
  | rise _ _ hrest => rw [hrest.frame (by omega), swapAt_right]

/-- A least element on top stays there. -/
theorem SiftsUp.root (hsift : SiftsUp rank slots h next place) (hlt : h < n)
    (hroot : ∀ i < n, rank (slots 0) ≤ rank (slots i)) :
    next 0 = slots 0 := by
  induction hsift with
  | stay hstay => rfl
  | @rise slots next h place hpos hless hrest ih =>
      have htop : (h - 1) / 2 ≠ 0 := by
        intro hzero
        rw [hzero] at hless
        exact absurd (hroot h hlt) (not_le.mpr hless)
      have hkeep : swapAt slots ((h - 1) / 2) h 0 = slots 0 :=
        swapAt_of_ne slots (Ne.symm htop) (by omega)
      rw [ih (by omega), hkeep]
      intro i hi
      rw [hkeep]
      have hmem : swapAt slots ((h - 1) / 2) h i ∈ contents slots n :=
        (contents_swapAt_perm slots (by omega) hlt).mem_iff.mp
          (mem_contents.mpr ⟨i, hi, rfl⟩)
      obtain ⟨j, hj, hsame⟩ := mem_contents.mp hmem
      rw [← hsame]
      exact hroot j hj

/-- The slots on the way from `h` to the root. -/
inductive Above : Nat → Nat → Prop
  | parent {h : Nat} (hpos : 0 < h) : Above ((h - 1) / 2) h
  | up {p h : Nat} (hpos : 0 < h) (habove : Above p ((h - 1) / 2)) : Above p h

theorem Above.lt {p : Nat} (habove : Above p h) : p < h := by
  induction habove with
  | parent hpos => omega
  | up hpos _ ih => omega

/-- An element that is not greater, somewhere on the way up, keeps the root as
it is. -/
theorem SiftsUp.root_of_above (hsift : SiftsUp rank slots h next place)
    {p : Nat} (habove : Above p h) (hle : rank (slots p) ≤ rank (slots h)) :
    next 0 = slots 0 := by
  induction hsift with
  | stay hstay => rfl
  | @rise slots next h place hpos hless hrest ih =>
      cases habove with
      | parent _ => exact absurd hle (not_le.mpr hless)
      | up _ habove =>
          have hlt := habove.lt
          rw [ih habove, swapAt_of_ne slots (by omega) (by omega)]
          rw [swapAt_left, swapAt_of_ne slots (by omega) (by omega)]
          exact hle

theorem SiftsDown.perm (hsift : SiftsDown rank n slots index next) :
    (contents next n).Perm (contents slots n) := by
  induction hsift with
  | stay hstay => exact List.Perm.refl _
  | @sink slots next index child hpos hlt hparent hleast hless hrest ih =>
      exact ih.trans (contents_swapAt_perm slots (by omega) hlt)

theorem SiftsDown.heapOrder (hsift : SiftsDown rank n slots index next)
    {f : K → L} (hf : Monotone f)
    (hbelow : OrderedBelow (f ∘ rank ∘ slots) n index) :
    HeapOrder (f ∘ rank ∘ next) n := by
  induction hsift with
  | stay hstay =>
      exact hbelow.heapOrder fun i hpos hi hparent =>
        hf (hstay i hpos hi hparent)
  | @sink slots next index child hpos hlt hparent hleast hless hrest ih =>
      apply ih
      have hswap := hbelow.swap_of_le hpos hlt hparent
        (fun i hone hi hi' => hf (hleast i hone hi hi')) (hf hless.le)
      rwa [← swapAt_comp, ← swapAt_comp] at hswap

/-- Only slots from `index` on change. -/
theorem SiftsDown.frame (hsift : SiftsDown rank n slots index next) {i : Nat}
    (hi : i < index) : next i = slots i := by
  induction hsift with
  | stay hstay => rfl
  | @sink slots next index child hpos hlt hparent hleast hless hrest ih =>
      rw [ih (by omega), swapAt_of_ne slots (by omega) (by omega)]

theorem SiftsDown.eq_of_le (hsift : SiftsDown rank n slots index next)
    (hle : ∀ i, 1 ≤ i → i < n → (i - 1) / 2 = index →
      rank (slots index) ≤ rank (slots i)) : next = slots := by
  cases hsift with
  | stay hstay => rfl
  | sink hpos hlt hparent hleast hless hrest =>
      exact absurd (hle _ hpos hlt hparent) (not_le.mpr hless)

/-- An element that sinks leaves one of its children in its place. -/
theorem SiftsDown.moved (hsift : SiftsDown rank n slots index next)
    {i : Nat} (hpos : 1 ≤ i) (hi : i < n) (hparent : (i - 1) / 2 = index)
    (hless : rank (slots i) < rank (slots index)) :
    ∃ child, 1 ≤ child ∧ child < n ∧ (child - 1) / 2 = index ∧
      next index = slots child := by
  cases hsift with
  | stay hstay => exact absurd (hstay i hpos hi hparent) (not_le.mpr hless)
  | @sink _ _ _ child hpos hlt hparent hleast hless hrest =>
      refine ⟨child, hpos, hlt, hparent, ?_⟩
      rw [hrest.frame (by omega), swapAt_left]

end LinuxTest
