/-
Runs of `pushTimer`, `popTimer` and `topTimer` with any number of timers: when
the accesses to `_vec` stay inside it.
-/
import LinuxTest.Runs
import LinuxTest.TimerHeap

namespace LinuxTest

namespace Sone

universe u

variable {T : Type u}

namespace TimerHeap

/-- A call on the heap; the pointer given to `pushTimer` may be null. -/
inductive Call (T : Type u) where
  | push (timer : Option T)
  | pop
  | top

/-- A heap with the timers given to `pushTimer` so far. -/
structure Usage (T : Type u) where
  heap : TimerHeap T
  pushed : List T

def Usage.init (capacity : Nat) (expire : T → Int) : Usage T :=
  ⟨.init capacity expire, []⟩

/-- A call; stuck where it would index outside `_vec` or go through a null
pointer. -/
def Usage.step [DecidableEq T] (s : Usage T) : Call T → Option (Usage T)
  | .push timer => (s.heap.pushTimer timer).map fun heap =>
      ⟨heap, timer.toList ++ s.pushed⟩
  | .pop => s.heap.popTimer.map fun heap => ⟨heap, s.pushed⟩
  | .top => s.heap.topTimer.map fun _ => s

/-- Every slot below `_nums` is in `_vec` and holds a pushed timer. -/
def Usage.Within (s : Usage T) : Prop :=
  ∀ i < s.heap.nums, i < s.heap.capacity ∧
    ∃ timer ∈ s.pushed, s.heap.slots i = some timer

/-- The number of live timers after a call. -/
def Call.count : Call T → Nat → Nat
  | .push none, live => live
  | .push (some _), live => live + 1
  | .pop, live => live - 1
  | .top, live => live

/-- Starting with `live` timers, no more than `capacity` of them are live after
any of the calls. -/
def FitsWithin (capacity : Nat) : Nat → List (Call T) → Prop
  | _, [] => True
  | live, call :: rest => call.count live ≤ capacity ∧
      FitsWithin capacity (call.count live) rest

/-- What a run within the capacity keeps. -/
structure Usage.Sound (capacity live : Nat) (s : Usage T) : Prop where
  capacity_eq : s.heap.capacity = capacity
  nums_eq : s.heap.nums = live
  filled : s.heap.Filled
  pushed : ∀ slot ∈ contents s.heap.slots s.heap.nums,
    ∃ timer ∈ s.pushed, slot = some timer

variable {capacity live : Nat} {s : Usage T}

theorem Usage.sound_init (capacity : Nat) (expire : T → Int) :
    (Usage.init capacity expire).Sound capacity 0 := by
  refine ⟨rfl, rfl, ⟨Nat.zero_le _, ?_⟩, ?_⟩
  · intro i hi
    exact absurd hi (Nat.not_lt_zero i)
  · intro slot hslot
    cases hslot

theorem Usage.Sound.within (hs : s.Sound capacity live) : s.Within := by
  intro i hi
  have hle := hs.filled.nums_le
  obtain ⟨timer, htimer, hslot⟩ :=
    hs.pushed _ (mem_contents.mpr ⟨i, hi, rfl⟩)
  exact ⟨by omega, timer, htimer, hslot⟩

variable [DecidableEq T]

/-- Below the capacity `pushTimer` adds its timer, wherever `int h` makes the
sift start. -/
theorem Usage.Sound.push (hs : s.Sound capacity live)
    (hroom : live + 1 ≤ capacity) (timer : T) :
    ∃ next, s.step (.push (some timer)) = some next ∧
      next.Sound capacity (live + 1) := by
  have hfits : s.heap.nums + 1 ≤ s.heap.capacity := by
    rw [hs.nums_eq, hs.capacity_eq]
    exact hroom
  obtain ⟨slots, place, hrun, hsift⟩ :=
    pushTimer_sifts hs.filled hfits timer
  have hperm : (contents slots (s.heap.nums + 1)).Perm
      (contents (s.heap.pushed timer) (s.heap.nums + 1)) := by
    rcases hsift with ⟨_, _, rfl⟩ | ⟨h, p, _, hle, _, hsift⟩
    · exact List.Perm.refl _
    · exact hsift.perm (Nat.lt_succ_of_le hle)
  refine ⟨⟨{ s.heap with
    nums := s.heap.nums + 1
    slots := slots
    index := Function.update s.heap.index timer place },
    timer :: s.pushed⟩, ?_, hs.capacity_eq, ?_,
    hs.filled.of_push hfits _ hperm, ?_⟩
  · rw [step, hrun]
    rfl
  · change s.heap.nums + 1 = live + 1
    rw [hs.nums_eq]
  · intro slot hslot
    have hmem := hperm.mem_iff.mp hslot
    rw [contents_pushed] at hmem
    rcases List.mem_append.mp hmem with hold | hnew
    · obtain ⟨other, hother, hsame⟩ := hs.pushed slot hold
      exact ⟨other, List.mem_cons_of_mem timer hother, hsame⟩
    · exact ⟨timer, List.mem_cons_self, List.mem_singleton.mp hnew⟩

theorem Usage.Sound.pop (hs : s.Sound capacity live) :
    ∃ next, s.step .pop = some next ∧ next.Sound capacity (live - 1) := by
  by_cases hzero : s.heap.nums = 0
  · refine ⟨s, ?_, hs.capacity_eq, ?_, hs.filled, hs.pushed⟩
    · rw [step, popTimer, if_pos hzero]
      rfl
    · have hnums := hs.nums_eq
      omega
  · obtain ⟨top, htop, hpopped⟩ := hs.filled.popped hzero
    obtain ⟨slots, hrun, hsift⟩ := popTimer_sifts hs.filled hzero htop
    refine ⟨⟨{ s.heap with
      nums := s.heap.nums - 1
      slots := slots
      index := Function.update s.heap.index top (-2) }, s.pushed⟩, ?_,
      hs.capacity_eq, ?_, hs.filled.of_pop hzero _ hsift.perm, ?_⟩
    · rw [step, hrun]
      rfl
    · change s.heap.nums - 1 = live - 1
      rw [hs.nums_eq]
    · intro slot hslot
      exact hs.pushed slot (hpopped.mem_iff.mp
        (List.mem_append_left _ (hsift.perm.mem_iff.mp hslot)))

theorem Usage.Sound.call (hs : s.Sound capacity live) {call : Call T}
    (hfits : call.count live ≤ capacity) :
    ∃ next, s.step call = some next ∧
      next.Sound capacity (call.count live) := by
  cases call with
  | push timer =>
      cases timer with
      | none => exact ⟨s, rfl, hs⟩
      | some timer => exact hs.push hfits timer
  | pop => exact hs.pop
  | top =>
      refine ⟨s, ?_, hs⟩
      have hle := hs.filled.nums_le
      rw [step, topTimer]
      by_cases hzero : s.heap.nums = 0
      · rw [if_pos hzero]
        rfl
      · rw [if_neg hzero, if_pos (by omega)]
        rfl

/-- A call that brings the count over the capacity counts a slot that `_vec`
does not have, unless it is stuck before. -/
theorem Usage.Sound.not_within (hs : s.Sound capacity live) {call : Call T}
    (hover : capacity < call.count live) {next : Usage T}
    (hstep : s.step call = some next) : ¬ next.Within := by
  have hle := hs.filled.nums_le
  rw [hs.nums_eq, hs.capacity_eq] at hle
  cases call with
  | pop =>
      simp only [Call.count] at hover
      omega
  | top =>
      simp only [Call.count] at hover
      omega
  | push timer =>
      cases timer with
      | none =>
          simp only [Call.count] at hover
          omega
      | some timer =>
          simp only [Call.count] at hover
          rw [step, Option.map_eq_some_iff] at hstep
          obtain ⟨heap, hpush, rfl⟩ := hstep
          obtain ⟨hnums, hcapacity⟩ := pushTimer_frame hpush
          intro hwithin
          have hlast := (hwithin live (by
            change live < heap.nums
            rw [hnums, hs.nums_eq]
            exact Nat.lt_succ_self live)).1
          change live < heap.capacity at hlast
          rw [hcapacity, hs.capacity_eq] at hlast
          omega

theorem Usage.Sound.always_iff (hs : s.Sound capacity live)
    (calls : List (Call T)) :
    Always Usage.step Usage.Within s calls ↔
      FitsWithin capacity live calls := by
  induction calls generalizing s live with
  | nil => exact ⟨fun _ => trivial, fun _ => hs.within⟩
  | cons call rest ih =>
      constructor
      · rintro ⟨_, next, hnext, hrest⟩
        by_cases hfits : call.count live ≤ capacity
        · obtain ⟨next', hnext', hsound⟩ := hs.call hfits
          rw [hnext] at hnext'
          cases hnext'
          exact ⟨hfits, (ih hsound).mp hrest⟩
        · exact absurd hrest.head (hs.not_within (not_le.mp hfits) hnext)
      · rintro ⟨hfits, hrest⟩
        obtain ⟨next, hnext, hsound⟩ := hs.call hfits
        exact ⟨hs.within, next, hnext, (ih hsound).mpr hrest⟩

/-- Every access stays in `_vec` and every slot below `_nums` holds a pushed
timer, in all states of a run, exactly when its calls never leave more timers
live than the capacity. -/
theorem timerHeap_within_iff (capacity : Nat) (expire : T → Int)
    (calls : List (Call T)) :
    Always Usage.step Usage.Within (Usage.init capacity expire) calls ↔
      FitsWithin capacity 0 calls :=
  (Usage.sound_init capacity expire).always_iff calls

/-- One timer more than the capacity: the second push of a heap for one timer
sifts from a slot that is not there. -/
theorem timerHeap_overrun :
    ¬ Always Usage.step Usage.Within (Usage.init 1 fun _ : Bool => 0)
      [.push (some false), .push (some true)] := by
  have hsound : (Usage.init 1 fun _ : Bool => 0).Sound 1 0 :=
    Usage.sound_init 1 fun _ => 0
  rw [hsound.always_iff]
  simp [FitsWithin, Call.count]

end TimerHeap

end Sone

end LinuxTest
