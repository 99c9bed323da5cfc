/-
`http_server/TimerHeap.cpp`: a binary heap of timer pointers ordered by expiry.
A pointer is any type `T`; what a timer object holds is kept beside the heap, as
functions of the pointer.  An operation returns `none` where the code would
index outside `_vec` or go through a null pointer.
-/
import LinuxTest.HeapSift
import LinuxTest.MachineInt
import Mathlib.Logic.Function.Basic

namespace LinuxTest

namespace Sone

universe u

variable {T : Type u}

/-- `TimerHeap`, with the `expire` and `_index` fields of the timers. -/
structure TimerHeap (T : Type u) where
  slots : Nat → Option T
  capacity : Nat
  nums : Nat
  expire : T → Int
  index : T → Int

namespace TimerHeap

/-- `TimerHeap::TimerHeap`: `_vec(capcity)` holds null pointers. -/
def init (capacity : Nat) (expire : T → Int) : TimerHeap T :=
  ⟨fun _ => none, capacity, 0, expire, fun _ => -1⟩

/-- The timer `_vec[i]` points to. -/
def timerAt (heap : TimerHeap T) (i : Int) : Option T :=
  if 0 ≤ i ∧ i < heap.capacity then heap.slots i.toNat else none

/-- `std::swap(_vec[i], _vec[j])`. -/
def swap (heap : TimerHeap T) (i j : Nat) : TimerHeap T :=
  { heap with slots := swapAt heap.slots i j }

/-- The loop of `pushTimer`, with the `int h` it leaves. -/
def siftUp (heap : TimerHeap T) (h : Int) : Option (TimerHeap T × Int) :=
  if 0 < h then
    (heap.timerAt ((h - 1) / 2)).bind fun parent =>
      (heap.timerAt h).bind fun child =>
        if heap.expire parent > heap.expire child then
          siftUp (heap.swap ((h - 1) / 2).toNat h.toNat) ((h - 1) / 2)
        else some (heap, h)
  else some (heap, h)
termination_by h.toNat
decreasing_by omega

/-- `TimerHeap::pushTimer`.  `int h = _nums - 1` keeps 32 bits of the count. -/
def pushTimer [DecidableEq T] (heap : TimerHeap T) :
    Option T → Option (TimerHeap T)
  | none => some heap
  | some timer =>
      let stored := if heap.nums + 1 ≤ heap.capacity
        then { heap with
          nums := heap.nums + 1
          slots := Function.update heap.slots heap.nums (some timer) }
        else { heap with nums := heap.nums + 1 }
      (stored.siftUp (asInt heap.nums)).map fun (heap, h) =>
        { heap with index := Function.update heap.index timer h }

/-- A child slot of `index` below `_nums`. -/
def Child (heap : TimerHeap T) (index : Nat) :=
  { child : Nat // (child = 2 * index + 1 ∨ child = 2 * index + 2) ∧
    child < heap.nums }

/-- The child that `down` compares with: the lesser one, the right one if they
are equal, or none. -/
def childOf (heap : TimerHeap T) (index : Nat) :
    Option (Option (Child heap index)) :=
  if htwo : 2 * index + 2 < heap.nums then
    (heap.timerAt (2 * index + 1)).bind fun left =>
      (heap.timerAt (2 * index + 2)).map fun right =>
        if heap.expire left < heap.expire right
        then some ⟨2 * index + 1, by omega⟩
        else some ⟨2 * index + 2, by omega⟩
  else if hone : 2 * index + 1 < heap.nums then
    some (some ⟨2 * index + 1, by omega⟩)
  else some none

/-- `TimerHeap::down`. -/
def down (heap : TimerHeap T) (index : Nat) : Option (TimerHeap T) :=
  if index < heap.nums then
    (heap.childOf index).bind fun child =>
      match child with
      | none => some heap
      | some child =>
          (heap.timerAt index).bind fun timer =>
            (heap.timerAt child.1).bind fun other =>
              if heap.expire timer > heap.expire other then
                down (heap.swap index child.1) child.1
              else some heap
  else some heap
termination_by heap.nums - index
decreasing_by
  have hchild := child.2
  simp only [swap]
  omega

/-- `TimerHeap::popTimer`. -/
def popTimer [DecidableEq T] (heap : TimerHeap T) : Option (TimerHeap T) :=
  if heap.nums = 0 then some heap
  else if heap.nums ≤ heap.capacity then
    let swapped := heap.swap 0 (heap.nums - 1)
    (swapped.slots (heap.nums - 1)).bind fun timer =>
      down { swapped with
        index := Function.update swapped.index timer (-2)
        slots := Function.update swapped.slots (heap.nums - 1) none
        nums := heap.nums - 1 } 0
  else none

/-- `TimerHeap::topTimer`; the inner `none` is `nullptr`. -/
def topTimer (heap : TimerHeap T) : Option (Option T) :=
  if heap.nums = 0 then some none
  else if 0 < heap.capacity then some (heap.slots 0) else none

/-! ### What a sift leaves as it is -/

/-- The expiry found in a slot; an empty slot counts as 0. -/
def key (heap : TimerHeap T) (i : Nat) : Int :=
  ((heap.slots i).map heap.expire).getD 0

/-- Every slot below `_nums` is in the vector and holds a timer. -/
structure Filled (heap : TimerHeap T) : Prop where
  nums_le : heap.nums ≤ heap.capacity
  isSome : ∀ i < heap.nums, (heap.slots i).isSome

theorem Filled.timerAt {heap : TimerHeap T} (hfilled : heap.Filled) {i : Nat}
    (hi : i < heap.nums) :
    ∃ timer, heap.slots i = some timer ∧ heap.timerAt i = some timer ∧
      heap.key i = heap.expire timer := by
  obtain ⟨timer, htimer⟩ := Option.isSome_iff_exists.mp (hfilled.isSome i hi)
  have hle := hfilled.nums_le
  refine ⟨timer, htimer, ?_, by simp [key, htimer]⟩
  rw [TimerHeap.timerAt, if_pos (by omega), Int.toNat_natCast, htimer]

theorem Filled.of_mem {heap next : TimerHeap T} (hfilled : heap.Filled)
    (hle : next.nums ≤ next.capacity)
    (hmem : ∀ slot ∈ contents next.slots next.nums,
      slot ∈ contents heap.slots heap.nums) : next.Filled := by
  refine ⟨hle, ?_⟩
  intro i hi
  obtain ⟨j, hj, hsame⟩ :=
    mem_contents.mp (hmem _ (mem_contents.mpr ⟨i, hi, rfl⟩))
  rw [← hsame]
  exact hfilled.isSome j hj

/-- The heap with the timers below `_nums` in another order. -/
structure Rearranged (heap other : TimerHeap T) : Prop where
  capacity_eq : other.capacity = heap.capacity
  nums_eq : other.nums = heap.nums
  expire_eq : other.expire = heap.expire
  index_eq : other.index = heap.index
  perm : (contents other.slots heap.nums).Perm (contents heap.slots heap.nums)

theorem rearranged_swap {heap : TimerHeap T} {i j : Nat}
    (hi : i < heap.nums) (hj : j < heap.nums) :
    Rearranged heap (heap.swap i j) :=
  ⟨rfl, rfl, rfl, rfl, contents_swapAt_perm heap.slots hi hj⟩

theorem Rearranged.filled {heap other : TimerHeap T}
    (hmove : Rearranged heap other) (hfilled : heap.Filled) :
    other.Filled := by
  apply hfilled.of_mem
  · rw [hmove.nums_eq, hmove.capacity_eq]
    exact hfilled.nums_le
  · intro slot hslot
    rw [hmove.nums_eq] at hslot
    exact hmove.perm.mem_iff.mp hslot

/-! ### The two sifts -/

/-- What a slot counts as in the comparisons. -/
def rank (heap : TimerHeap T) (slot : Option T) : Int :=
  (slot.map heap.expire).getD 0

theorem Filled.swap {heap : TimerHeap T} (hfilled : heap.Filled) {i j : Nat}
    (hi : i < heap.nums) (hj : j < heap.nums) : (heap.swap i j).Filled :=
  (rearranged_swap hi hj).filled hfilled

/-- The loop of `pushTimer` lets the timer at `h` rise. -/
theorem siftUp_sifts {heap : TimerHeap T} (hfilled : heap.Filled) {h : Nat}
    (hlt : h < heap.nums) :
    ∃ (slots : Nat → Option T) (place : Nat),
      heap.siftUp h = some ({ heap with slots := slots }, (place : Int)) ∧
      SiftsUp heap.rank heap.slots h slots place := by
  induction h using Nat.strong_induction_on generalizing heap with
  | _ h ih =>
      rw [siftUp]
      by_cases hpos : 0 < h
      · have hparentEq : ((h : Int) - 1) / 2 = ((h - 1) / 2 : Nat) := by
          omega
        obtain ⟨child, _, hchild, hchildKey⟩ := hfilled.timerAt hlt
        obtain ⟨parent, _, hparent, hparentKey⟩ :=
          hfilled.timerAt (i := (h - 1) / 2) (by omega)
        rw [if_pos (by omega), hparentEq, hparent, hchild, Option.bind_some,
          Option.bind_some, Int.toNat_natCast, Int.toNat_natCast,
          ← hparentKey, ← hchildKey]
        by_cases hless : heap.key ((h - 1) / 2) > heap.key h
        · rw [if_pos hless]
          have hup : (h - 1) / 2 < heap.nums := by omega
          obtain ⟨slots, place, hrun, hsift⟩ :=
            ih ((h - 1) / 2) (by omega) (hfilled.swap hup hlt) hup
          exact ⟨slots, place, hrun, .rise hpos hless hsift⟩
        · rw [if_neg hless]
          exact ⟨heap.slots, h, rfl, .stay fun _ => not_lt.mp hless⟩
      · rw [if_neg (by omega)]
        refine ⟨heap.slots, h, rfl, .stay ?_⟩
        intro hone
        exact absurd hone hpos

theorem siftUp_frame {heap next : TimerHeap T} {h place : Int}
    (hrun : heap.siftUp h = some (next, place)) :
    next.nums = heap.nums ∧ next.capacity = heap.capacity := by
  fun_induction siftUp heap h generalizing next place with
  | case1 heap h hpos ih =>
      obtain ⟨parent, _, hrun⟩ := Option.bind_eq_some_iff.mp hrun
      obtain ⟨child, _, hrun⟩ := Option.bind_eq_some_iff.mp hrun
      split at hrun
      · exact ih parent child hrun
      · cases hrun
        exact ⟨rfl, rfl⟩
  | case2 heap h hpos =>
      cases hrun
      exact ⟨rfl, rfl⟩

/-- The child that `down` looks at is the least one. -/
theorem childOf_spec {heap : TimerHeap T} (hfilled : heap.Filled)
    (index : Nat) :
    (heap.childOf index = some none ∧ heap.nums ≤ 2 * index + 1) ∨
    ∃ child, heap.childOf index = some (some child) ∧
      ∀ i, 1 ≤ i → i < heap.nums → (i - 1) / 2 = index →
        heap.key child.1 ≤ heap.key i := by
  rw [childOf]
  by_cases htwo : 2 * index + 2 < heap.nums
  · right
    obtain ⟨left, _, hleft, hleftKey⟩ :=
      hfilled.timerAt (i := 2 * index + 1) (by omega)
    obtain ⟨right, _, hright, hrightKey⟩ := hfilled.timerAt htwo
    rw [Nat.cast_add, Nat.cast_mul] at hleft hright
    rw [dif_pos htwo]
    simp only [Nat.cast_ofNat, Nat.cast_one] at hleft hright
    rw [hleft, hright, Option.bind_some, Option.map_some, ← hleftKey,
      ← hrightKey]
    by_cases hless : heap.key (2 * index + 1) < heap.key (2 * index + 2)
    · rw [if_pos hless]
      refine ⟨_, rfl, fun i hpos hi hparent => ?_⟩
      have hcases : i = 2 * index + 1 ∨ i = 2 * index + 2 := by omega
      rcases hcases with rfl | rfl
      · exact le_refl _
      · exact hless.le
    · rw [if_neg hless]
      refine ⟨_, rfl, fun i hpos hi hparent => ?_⟩
      have hcases : i = 2 * index + 1 ∨ i = 2 * index + 2 := by omega
      rcases hcases with rfl | rfl
      · exact not_lt.mp hless
      · exact le_refl _
  · rw [dif_neg htwo]
    by_cases hone : 2 * index + 1 < heap.nums
    · right
      rw [dif_pos hone]
      refine ⟨_, rfl, fun i hpos hi hparent => ?_⟩
      have heq : i = 2 * index + 1 := by omega
      rw [heq]
    · left
      rw [dif_neg hone]
      exact ⟨rfl, by omega⟩

/-- `down` lets the timer at `index` sink. -/
theorem down_sifts {heap : TimerHeap T} (hfilled : heap.Filled)
    (index : Nat) :
    ∃ slots : Nat → Option T,
      heap.down index = some { heap with slots := slots } ∧
      SiftsDown heap.rank heap.nums heap.slots index slots := by
  induction hn : heap.nums - index using Nat.strong_induction_on
    generalizing heap index with
  | _ n ih =>
      rw [down]
      by_cases hlt : index < heap.nums
      · rw [if_pos hlt]
        obtain ⟨timer, _, htimer, htimerKey⟩ := hfilled.timerAt hlt
        rcases childOf_spec hfilled index with ⟨hnone, hleaf⟩ |
          ⟨child, hchild, hleast⟩
        · rw [hnone, Option.bind_some]
          refine ⟨heap.slots, rfl, .stay ?_⟩
          intro i hpos hi hparent
          omega
        · obtain ⟨hcases, hchildLt⟩ := child.2
          have hparent : (child.1 - 1) / 2 = index := by omega
          obtain ⟨other, _, hother, hotherKey⟩ := hfilled.timerAt hchildLt
          rw [hchild, Option.bind_some]
          simp only []
          rw [htimer, hother, Option.bind_some, Option.bind_some,
            ← htimerKey, ← hotherKey]
          by_cases hless : heap.key index > heap.key child.1
          · rw [if_pos hless]
            obtain ⟨slots, hrun, hsift⟩ :=
              ih (heap.nums - child.1) (by omega)
                (hfilled.swap hlt hchildLt) child.1 rfl
            exact ⟨slots, hrun, .sink (by omega) hchildLt hparent hleast
              hless hsift⟩
          · rw [if_neg hless]
            refine ⟨heap.slots, rfl, .stay ?_⟩
            intro i hpos hi hi'
            exact (not_lt.mp hless).trans (hleast i hpos hi hi')
      · rw [if_neg hlt]
        refine ⟨heap.slots, rfl, .stay ?_⟩
        intro i hpos hi hparent
        omega

/-! ### What the operations do -/

theorem Filled.topTimer_eq {heap : TimerHeap T} (hfilled : heap.Filled)
    {top : T} (hne : heap.nums ≠ 0) (htop : heap.slots 0 = some top) :
    heap.topTimer = some (some top) := by
  have hle := hfilled.nums_le
  rw [topTimer, if_neg hne, if_pos (by omega), htop]

/-- The slots before `pushTimer` sifts. -/
def pushed (heap : TimerHeap T) (timer : T) : Nat → Option T :=
  Function.update heap.slots heap.nums (some timer)

/-- The slots before `popTimer` sifts. -/
def popped (heap : TimerHeap T) : Nat → Option T :=
  Function.update (swapAt heap.slots 0 (heap.nums - 1)) (heap.nums - 1) none

theorem pushed_of_lt (heap : TimerHeap T) (timer : T) {i : Nat}
    (hi : i < heap.nums) : heap.pushed timer i = heap.slots i :=
  Function.update_of_ne (Nat.ne_of_lt hi) _ _

@[simp] theorem pushed_last (heap : TimerHeap T) (timer : T) :
    heap.pushed timer heap.nums = some timer :=
  Function.update_self _ _ _

theorem contents_pushed (heap : TimerHeap T) (timer : T) :
    contents (heap.pushed timer) (heap.nums + 1) =
      contents heap.slots heap.nums ++ [some timer] := by
  rw [contents_succ, pushed_last,
    contents_congr fun i hi => pushed_of_lt heap timer hi]

theorem Filled.pushed {heap : TimerHeap T} (hfilled : heap.Filled)
    (hroom : heap.nums + 1 ≤ heap.capacity) (timer : T) :
    ({ heap with
      nums := heap.nums + 1
      slots := heap.pushed timer } : TimerHeap T).Filled := by
  refine ⟨hroom, ?_⟩
  intro i hi
  have hi' : i < heap.nums + 1 := hi
  by_cases hlast : i = heap.nums
  · subst hlast
    simp
  · change (heap.pushed timer i).isSome
    rw [pushed_of_lt heap timer (by omega)]
    exact hfilled.isSome i (by omega)

theorem Filled.popped {heap : TimerHeap T} (hfilled : heap.Filled)
    (hne : heap.nums ≠ 0) :
    ∃ top, heap.slots 0 = some top ∧
      (contents heap.popped (heap.nums - 1) ++ [some top]).Perm
        (contents heap.slots heap.nums) := by
  obtain ⟨top, htop, _⟩ := hfilled.timerAt (i := 0) (by omega)
  obtain ⟨last, hlast⟩ : ∃ last, heap.nums = last + 1 :=
    ⟨heap.nums - 1, by omega⟩
  refine ⟨top, htop, ?_⟩
  have hperm := contents_swapAt_perm heap.slots (i := 0) (j := last)
    (n := last + 1) (by omega) (by omega)
  have hbelow : ∀ i < last, heap.popped i = swapAt heap.slots 0 last i := by
    intro i hi
    rw [TimerHeap.popped, hlast, Nat.add_sub_cancel]
    exact Function.update_of_ne (Nat.ne_of_lt hi) _ _
  rw [contents_succ, swapAt_right, htop, ← contents_congr hbelow] at hperm
  rw [hlast, Nat.add_sub_cancel]
  exact hperm

/-- The last timer on top can only be out of order with its children. -/
theorem popped_orderedBelow {heap : TimerHeap T} {f : Int → Int}
    (horder : HeapOrder (f ∘ heap.key) heap.nums) :
    OrderedBelow (f ∘ heap.rank ∘ heap.popped) (heap.nums - 1) 0 := by
  have hslots : ∀ i, 0 < i → i < heap.nums - 1 →
      heap.popped i = heap.slots i := by
    intro i hpos hi
    rw [popped, Function.update_of_ne (Nat.ne_of_lt hi),
      swapAt_of_ne _ (by omega) (by omega)]
  constructor
  · intro i hpos hi hparent
    simp only [Function.comp_apply]
    rw [hslots i hpos hi, hslots _ (by omega) (by omega)]
    exact horder i hpos (by omega)
  · intro i _ _ _ hpos
    omega

theorem Filled.of_push {heap : TimerHeap T} (hfilled : heap.Filled)
    (hroom : heap.nums + 1 ≤ heap.capacity) {timer : T}
    {slots : Nat → Option T} (index : T → Int)
    (hperm : (contents slots (heap.nums + 1)).Perm
      (contents (heap.pushed timer) (heap.nums + 1))) :
    ({ heap with
      nums := heap.nums + 1
      slots := slots
      index := index } : TimerHeap T).Filled :=
  (hfilled.pushed hroom timer).of_mem hroom fun _ hslot =>
    hperm.mem_iff.mp hslot

theorem Filled.of_pop {heap : TimerHeap T} (hfilled : heap.Filled)
    (hne : heap.nums ≠ 0) {slots : Nat → Option T} (index : T → Int)
    (hperm : (contents slots (heap.nums - 1)).Perm
      (contents heap.popped (heap.nums - 1))) :
    ({ heap with
      nums := heap.nums - 1
      slots := slots
      index := index } : TimerHeap T).Filled := by
  obtain ⟨top, _, hpopped⟩ := hfilled.popped hne
  have hle := hfilled.nums_le
  apply hfilled.of_mem
  · change heap.nums - 1 ≤ heap.capacity
    omega
  · intro slot hslot
    exact hpopped.mem_iff.mp
      (List.mem_append_left _ (hperm.mem_iff.mp hslot))

section Operations

variable [DecidableEq T]

/-- `pushTimer` counts its timer whether or not there is room for it. -/
theorem pushTimer_frame {heap next : TimerHeap T} {timer : T}
    (hrun : heap.pushTimer (some timer) = some next) :
    next.nums = heap.nums + 1 ∧ next.capacity = heap.capacity := by
  rw [pushTimer] at hrun
  obtain ⟨⟨sifted, place⟩, hsift, rfl⟩ := Option.map_eq_some_iff.mp hrun
  have hframe := siftUp_frame hsift
  split at hframe <;> exact hframe

/-- `pushTimer` below the capacity.  A count that `int h` can not hold sifts
nothing, or from another slot. -/
theorem pushTimer_sifts {heap : TimerHeap T} (hfilled : heap.Filled)
    (hroom : heap.nums + 1 ≤ heap.capacity) (timer : T) :
    ∃ (slots : Nat → Option T) (place : Int),
      heap.pushTimer (some timer) = some { heap with
        nums := heap.nums + 1
        slots := slots
        index := Function.update heap.index timer place } ∧
      ((asInt heap.nums < 0 ∧ place = asInt heap.nums ∧
          slots = heap.pushed timer) ∨
        ∃ h p : Nat, asInt heap.nums = h ∧ h ≤ heap.nums ∧ place = p ∧
          SiftsUp heap.rank (heap.pushed timer) h slots p) := by
  rw [pushTimer]
  simp only []
  rw [if_pos hroom]
  generalize hcount : asInt heap.nums = count
  by_cases hneg : count < 0
  · refine ⟨heap.pushed timer, count, ?_, Or.inl ⟨hneg, rfl, rfl⟩⟩
    rw [siftUp, if_neg (by omega)]
    rfl
  · obtain ⟨h, rfl⟩ : ∃ h : Nat, count = h := ⟨count.toNat, by omega⟩
    have hle : h ≤ heap.nums := by
      rw [asInt, Int.bmod_def] at hcount
      split at hcount <;> omega
    obtain ⟨slots, place, hrun, hsift⟩ :=
      siftUp_sifts (hfilled.pushed hroom timer) (Nat.lt_succ_of_le hle)
    refine ⟨slots, place, ?_, Or.inr ⟨h, place, rfl, hle, rfl, hsift⟩⟩
    exact congrArg (Option.map _) hrun

/-- `pushTimer` while the count fits an `int`. -/
theorem pushTimer_sifts_of_lt {heap : TimerHeap T} (hfilled : heap.Filled)
    (hroom : heap.nums + 1 ≤ heap.capacity) (hint : heap.nums < 2 ^ 31)
    (timer : T) :
    ∃ (slots : Nat → Option T) (place : Nat),
      heap.pushTimer (some timer) = some { heap with
        nums := heap.nums + 1
        slots := slots
        index := Function.update heap.index timer place } ∧
      SiftsUp heap.rank (heap.pushed timer) heap.nums slots place := by
  obtain ⟨slots, place, hrun, hsift⟩ := pushTimer_sifts hfilled hroom timer
  have hcount : asInt heap.nums = heap.nums :=
    asInt_of_lt _ (by omega) (by omega)
  rcases hsift with ⟨hneg, _⟩ | ⟨h, p, hh, _, rfl, hsift⟩
  · omega
  · have heq : h = heap.nums := by omega
    exact ⟨slots, p, hrun, heq ▸ hsift⟩

/-- `popTimer` of a heap that is not empty. -/
theorem popTimer_sifts {heap : TimerHeap T} (hfilled : heap.Filled)
    {top : T} (hne : heap.nums ≠ 0) (htop : heap.slots 0 = some top) :
    ∃ slots : Nat → Option T,
      heap.popTimer = some { heap with
        nums := heap.nums - 1
        slots := slots
        index := Function.update heap.index top (-2) } ∧
      SiftsDown heap.rank (heap.nums - 1) heap.popped 0 slots := by
  have hlast : swapAt heap.slots 0 (heap.nums - 1) (heap.nums - 1) =
      some top := by
    rw [swapAt_right, htop]
  let shrunk : TimerHeap T := { heap with
    nums := heap.nums - 1
    slots := heap.popped
    index := Function.update heap.index top (-2) }
  have hshrunk : shrunk.Filled :=
    hfilled.of_pop hne _ (List.Perm.refl _)
  obtain ⟨slots, hrun, hsift⟩ := down_sifts hshrunk 0
  refine ⟨slots, ?_, hsift⟩
  rw [popTimer, if_neg hne, if_pos hfilled.nums_le]
  simp only [swap]
  rw [hlast, Option.bind_some]
  exact hrun

end Operations

end TimerHeap

end Sone

end LinuxTest
