/-
Runs of `pushTimer` and `popTimer` against the timers that should be in the
heap.
-/
import LinuxTest.Runs
import LinuxTest.TimerHeap

namespace LinuxTest

namespace Sone

universe u

variable {T : Type u}

namespace TimerHeap

/-- A call on the heap; a timer pushed is not null. -/
inductive Op (T : Type u) where
  | push (timer : T)
  | pop

/-- A heap with the timers pushed so far and those not yet popped. -/
structure Ledger (T : Type u) where
  heap : TimerHeap T
  pushed : List T
  live : List T

def Ledger.init (capacity : Nat) (expire : T → Int) : Ledger T :=
  ⟨.init capacity expire, [], []⟩

/-- Without the timer that `topTimer` returned. -/
def withoutTop [DecidableEq T] (live : List T) : Option T → List T
  | none => live
  | some timer => live.erase timer

/-- A call of the code beside the call on the live timers, where `popTimer`
takes away the timer that `topTimer` would return. -/
def Ledger.step [DecidableEq T] (s : Ledger T) : Op T → Option (Ledger T)
  | .push timer => (s.heap.pushTimer (some timer)).map fun heap =>
      ⟨heap, timer :: s.pushed, timer :: s.live⟩
  | .pop => s.heap.topTimer.bind fun top => s.heap.popTimer.map fun heap =>
      ⟨heap, s.pushed, withoutTop s.live top⟩

/-- Each timer is pushed once, and only while the capacity allows it. -/
def Ledger.Allowed (s : Ledger T) : Op T → Prop
  | .push timer => timer ∉ s.pushed ∧ s.live.length + 1 ≤ s.heap.capacity
  | .pop => True

/-- A push finds a count that an `int` holds, or needs no sift: the timer at its
parent slot expires no later. -/
def Ledger.InOrder (s : Ledger T) : Op T → Prop
  | .push timer => s.heap.nums < 2 ^ 31 ∨
      s.heap.key ((s.heap.nums - 1) / 2) ≤ s.heap.expire timer
  | .pop => True

/-- The heap holds the live timers, in heap order, a least one on top. -/
structure Ledger.Correct (s : Ledger T) : Prop where
  holds : (contents s.heap.slots s.heap.nums).Perm (s.live.map some)
  order : ∀ i, 1 ≤ i → i < s.heap.nums →
    ∃ parent timer, s.heap.slots ((i - 1) / 2) = some parent ∧
      s.heap.slots i = some timer ∧
      s.heap.expire parent ≤ s.heap.expire timer
  top : (s.live = [] ∧ s.heap.topTimer = some none) ∨
    ∃ timer ∈ s.live, s.heap.topTimer = some (some timer) ∧
      ∀ other ∈ s.live, s.heap.expire timer ≤ s.heap.expire other

/-- What a run keeps: the slots below `_nums` hold the live timers in heap
order. -/
structure Ledger.Sound (capacity : Nat) (s : Ledger T) : Prop where
  capacity_eq : s.heap.capacity = capacity
  filled : s.heap.Filled
  order : HeapOrder s.heap.key s.heap.nums
  holds : (contents s.heap.slots s.heap.nums).Perm (s.live.map some)

theorem Ledger.Sound.nums_eq {capacity : Nat} {s : Ledger T}
    (hs : s.Sound capacity) : s.heap.nums = s.live.length := by
  simpa [contents] using hs.holds.length_eq

theorem Ledger.Sound.correct {capacity : Nat} {s : Ledger T}
    (hs : s.Sound capacity) : s.Correct := by
  refine ⟨hs.holds, ?_, ?_⟩
  · intro i hpos hi
    obtain ⟨timer, htimer, _, hkey⟩ := hs.filled.timerAt hi
    obtain ⟨parent, hparent, _, hparentKey⟩ :=
      hs.filled.timerAt (i := (i - 1) / 2) (by omega)
    refine ⟨parent, timer, hparent, htimer, ?_⟩
    rw [← hkey, ← hparentKey]
    exact hs.order i hpos hi
  · have hnums := hs.nums_eq
    by_cases hzero : s.heap.nums = 0
    · left
      refine ⟨List.length_eq_zero_iff.mp (by omega), ?_⟩
      rw [topTimer, if_pos hzero]
    · right
      obtain ⟨timer, htimer, _, hkey⟩ := hs.filled.timerAt (i := 0) (by omega)
      have hmem (other : T) : other ∈ s.live ↔
          ∃ i < s.heap.nums, s.heap.slots i = some other := by
        rw [← mem_contents, hs.holds.mem_iff]
        simp
      refine ⟨timer, (hmem timer).mpr ⟨0, by omega, htimer⟩,
        hs.filled.topTimer_eq hzero htimer, ?_⟩
      · intro other hother
        obtain ⟨i, hi, hslot⟩ := (hmem other).mp hother
        have hroot := hs.order.root_le hi
        rw [hkey] at hroot
        simpa [key, hslot] using hroot

theorem Ledger.init_sound (capacity : Nat) (expire : T → Int) :
    (Ledger.init capacity expire).Sound capacity := by
  refine ⟨rfl, ⟨Nat.zero_le _, ?_⟩, ?_, List.Perm.refl _⟩
  · intro i hi
    exact absurd hi (Nat.not_lt_zero i)
  · intro i _ hi
    exact absurd hi (Nat.not_lt_zero i)

variable [DecidableEq T]

/-- `pushTimer` adds its timer, while the count fits in an `int`. -/
theorem Ledger.push_sound_of_lt {capacity : Nat} {s : Ledger T}
    (hs : s.Sound capacity) (timer : T)
    (hroom : s.live.length + 1 ≤ capacity) (hint : s.heap.nums < 2 ^ 31) :
    ∃ next, s.step (.push timer) = some next ∧ next.Sound capacity := by
  have hnums := hs.nums_eq
  have hcap := hs.capacity_eq
  have hfits : s.heap.nums + 1 ≤ s.heap.capacity := by omega
  obtain ⟨slots, place, hrun, hsift⟩ :=
    pushTimer_sifts_of_lt hs.filled hfits hint timer
  have hperm := hsift.perm (Nat.lt_add_one s.heap.nums)
  have horder : HeapOrder (s.heap.rank ∘ s.heap.pushed timer)
      s.heap.nums := by
    intro i hpos hi
    simp only [Function.comp_apply]
    rw [pushed_of_lt _ _ hi, pushed_of_lt _ _ (by omega)]
    exact hs.order i hpos hi
  refine ⟨⟨{ s.heap with
    nums := s.heap.nums + 1
    slots := slots
    index := Function.update s.heap.index timer place },
    timer :: s.pushed, timer :: s.live⟩, ?_, hcap,
    hs.filled.of_push hfits _ hperm, ?_, ?_⟩
  · rw [step, hrun]
    rfl
  · exact hsift.heapOrder (Nat.lt_add_one s.heap.nums) monotone_id
      horder.orderedAbove_last
  · change (contents slots (s.heap.nums + 1)).Perm _
    refine hperm.trans ?_
    rw [contents_pushed]
    exact (List.perm_append_singleton _ _).trans (hs.holds.cons _)

/-- A pop, of an empty heap or of its top timer. -/
theorem Ledger.pop_eq {capacity : Nat} {s : Ledger T}
    (hs : s.Sound capacity) :
    (s.heap.nums = 0 ∧ s.step .pop = some s) ∨
    ∃ top slots, s.heap.nums ≠ 0 ∧ s.heap.slots 0 = some top ∧
      s.step .pop = some ⟨{ s.heap with
        nums := s.heap.nums - 1
        slots := slots
        index := Function.update s.heap.index top (-2) },
        s.pushed, s.live.erase top⟩ ∧
      SiftsDown s.heap.rank (s.heap.nums - 1) s.heap.popped 0 slots := by
  by_cases hzero : s.heap.nums = 0
  · refine Or.inl ⟨hzero, ?_⟩
    rw [step, topTimer, if_pos hzero, Option.bind_some, popTimer,
      if_pos hzero]
    rfl
  · obtain ⟨top, htop, _⟩ := hs.filled.timerAt (i := 0) (by omega)
    obtain ⟨slots, hrun, hsift⟩ := popTimer_sifts hs.filled hzero htop
    refine Or.inr ⟨top, slots, hzero, htop, ?_, hsift⟩
    rw [step, hs.filled.topTimer_eq hzero htop, Option.bind_some, hrun]
    rfl

/-- `popTimer` takes the top timer away and nothing else. -/
theorem Ledger.pop_sound {capacity : Nat} {s : Ledger T}
    (hs : s.Sound capacity) :
    ∃ next, s.step .pop = some next ∧ next.Sound capacity := by
  rcases pop_eq hs with ⟨_, hstep⟩ | ⟨top, slots, hzero, htop, hstep, hsift⟩
  · exact ⟨s, hstep, hs⟩
  · obtain ⟨top', htop', hpopped⟩ := hs.filled.popped hzero
    rw [htop] at htop'
    cases htop'
    have hholds : (contents slots (s.heap.nums - 1)).Perm
        ((s.live.erase top).map some) := by
      have hall := hsift.perm.append_right [some top]
      have hlive := (hall.trans hpopped).trans hs.holds
      have herase := ((List.perm_append_singleton _ _).symm.trans hlive).erase
        (some top)
      rw [List.map_erase (Option.some_injective T)]
      rwa [List.erase_cons_head] at herase
    exact ⟨_, hstep, hs.capacity_eq,
      hs.filled.of_pop hzero _ hsift.perm,
      hsift.heapOrder monotone_id (popped_orderedBelow hs.order), hholds⟩

/-! ### Counts beyond an `int` -/

/-- From the smaller slot that `int h` then names, nothing is sifted. -/
theorem Ledger.push_large {capacity : Nat} {s : Ledger T}
    (hs : s.Sound capacity) (timer : T)
    (hroom : s.live.length + 1 ≤ capacity) (hlarge : 2 ^ 31 ≤ s.heap.nums) :
    ∃ place, s.step (.push timer) = some ⟨{ s.heap with
      nums := s.heap.nums + 1
      slots := s.heap.pushed timer
      index := Function.update s.heap.index timer place },
      timer :: s.pushed, timer :: s.live⟩ := by
  have hfits : s.heap.nums + 1 ≤ s.heap.capacity := by
    rw [hs.nums_eq, hs.capacity_eq]
    exact hroom
  obtain ⟨slots, place, hrun, hsift⟩ := pushTimer_sifts hs.filled hfits timer
  have hslots : slots = s.heap.pushed timer := by
    rcases hsift with ⟨_, _, hsame⟩ | ⟨h, p, hcount, hle, _, hsift⟩
    · exact hsame
    · have hint := asInt_lt s.heap.nums
      have hbelow : h < s.heap.nums := by omega
      refine (hsift.eq_of_le fun hpos => ?_).1
      rw [pushed_of_lt _ _ hbelow, pushed_of_lt _ _ (by omega)]
      exact hs.order h hpos hbelow
  refine ⟨place, ?_⟩
  rw [step, hrun, hslots]
  rfl

theorem Ledger.push_large_sound {capacity : Nat} {s next : Ledger T}
    (hs : s.Sound capacity) {timer : T}
    (hroom : s.live.length + 1 ≤ capacity) (hlarge : 2 ^ 31 ≤ s.heap.nums)
    (hle : s.heap.key ((s.heap.nums - 1) / 2) ≤ s.heap.expire timer)
    (hnext : s.step (.push timer) = some next) : next.Sound capacity := by
  obtain ⟨place, hstep⟩ := push_large hs timer hroom hlarge
  rw [hstep] at hnext
  cases hnext
  have hfits : s.heap.nums + 1 ≤ s.heap.capacity := by
    rw [hs.nums_eq, hs.capacity_eq]
    exact hroom
  refine ⟨hs.capacity_eq, hs.filled.of_push hfits _ (List.Perm.refl _), ?_, ?_⟩
  · intro i hpos hi
    change s.heap.rank (s.heap.pushed timer ((i - 1) / 2)) ≤
      s.heap.rank (s.heap.pushed timer i)
    have hi' : i < s.heap.nums + 1 := hi
    rw [pushed_of_lt _ _ (by omega)]
    by_cases hlast : i = s.heap.nums
    · rw [hlast, pushed_last]
      exact hle
    · rw [pushed_of_lt _ _ (by omega)]
      exact hs.order i hpos (by omega)
  · change (contents (s.heap.pushed timer) (s.heap.nums + 1)).Perm _
    rw [contents_pushed]
    exact (List.perm_append_singleton _ _).trans (hs.holds.cons _)

/-- The timer stays where it was stored, below its parent. -/
theorem Ledger.push_large_inOrder {capacity : Nat} {s next : Ledger T}
    (hs : s.Sound capacity) {timer : T}
    (hroom : s.live.length + 1 ≤ capacity) (hlarge : 2 ^ 31 ≤ s.heap.nums)
    (hnext : s.step (.push timer) = some next) (hcorrect : next.Correct) :
    s.heap.key ((s.heap.nums - 1) / 2) ≤ s.heap.expire timer := by
  obtain ⟨place, hstep⟩ := push_large hs timer hroom hlarge
  rw [hstep] at hnext
  cases hnext
  obtain ⟨parent, other, hparent, hother, hle⟩ :=
    hcorrect.order s.heap.nums (by omega) (Nat.lt_succ_self _)
  have hlast : s.heap.pushed timer s.heap.nums = some other := hother
  have hslot : s.heap.pushed timer ((s.heap.nums - 1) / 2) = some parent :=
    hparent
  rw [pushed_last] at hlast
  rw [pushed_of_lt _ _ (by omega)] at hslot
  cases hlast
  rw [key, hslot]
  exact hle

theorem Ledger.step_sound_of_inOrder {capacity : Nat} {s : Ledger T}
    (hs : s.Sound capacity) {op : Op T} (hop : s.Allowed op)
    (horder : s.InOrder op) :
    ∃ next, s.step op = some next ∧ next.Sound capacity := by
  cases op with
  | pop => exact pop_sound hs
  | push timer =>
      have hroom : s.live.length + 1 ≤ capacity := hs.capacity_eq ▸ hop.2
      by_cases hint : s.heap.nums < 2 ^ 31
      · exact push_sound_of_lt hs timer hroom hint
      · have hlarge : 2 ^ 31 ≤ s.heap.nums := Nat.le_of_not_lt hint
        obtain ⟨place, hstep⟩ := push_large hs timer hroom hlarge
        exact ⟨_, hstep, push_large_sound hs hroom hlarge
          (horder.resolve_left hint) hstep⟩

theorem Ledger.inOrder_of_correct {capacity : Nat} {s next : Ledger T}
    (hs : s.Sound capacity) {op : Op T} (hop : s.Allowed op)
    (hnext : s.step op = some next) (hcorrect : next.Correct) :
    s.InOrder op := by
  cases op with
  | pop => exact trivial
  | push timer =>
      have hroom : s.live.length + 1 ≤ capacity := hs.capacity_eq ▸ hop.2
      obtain hint | hlarge := Nat.lt_or_ge s.heap.nums (2 ^ 31)
      · exact Or.inl hint
      · exact Or.inr (push_large_inOrder hs hroom hlarge hnext hcorrect)

/-- In each run the heap is correct throughout exactly when every push is in
order. -/
theorem Ledger.Sound.always_correct_iff {capacity : Nat} {s : Ledger T}
    (hs : s.Sound capacity) {ops : List (Op T)}
    (hallowed : Along Ledger.step Ledger.Allowed s ops) :
    Always Ledger.step Ledger.Correct s ops ↔
      Along Ledger.step Ledger.InOrder s ops := by
  induction ops generalizing s with
  | nil => exact ⟨fun _ => trivial, fun _ => hs.correct⟩
  | cons op rest ih =>
      constructor
      · rintro ⟨_, next, hnext, hrest⟩
        have horder := inOrder_of_correct hs hallowed.1 hnext hrest.head
        obtain ⟨other, hother, hsound⟩ :=
          step_sound_of_inOrder hs hallowed.1 horder
        rw [hnext] at hother
        cases hother
        exact Along.cons horder hnext
          ((ih hsound (hallowed.2 next hnext)).mp hrest)
      · rintro ⟨horder, hrest⟩
        obtain ⟨next, hnext, hsound⟩ :=
          step_sound_of_inOrder hs hallowed.1 horder
        exact ⟨hs.correct, next, hnext,
          (ih hsound (hallowed.2 next hnext)).mpr (hrest next hnext)⟩

omit [DecidableEq T] in
theorem Ledger.Sound.inOrder {capacity : Nat} (hint : capacity ≤ 2 ^ 31)
    {s : Ledger T} (hs : s.Sound capacity) {op : Op T} (hop : s.Allowed op) :
    s.InOrder op := by
  cases op with
  | pop => exact trivial
  | push timer =>
      have hnums := hs.nums_eq
      have hroom : s.live.length + 1 ≤ capacity := hs.capacity_eq ▸ hop.2
      exact Or.inl (by omega)

/-- With a capacity that fits, the heap is correct throughout every run. -/
theorem Ledger.always_correct {capacity : Nat} (hint : capacity ≤ 2 ^ 31)
    (expire : T → Int) (ops : List (Op T))
    (hallowed : Along Ledger.step Ledger.Allowed
      (Ledger.init capacity expire) ops) :
    Always Ledger.step Ledger.Correct (Ledger.init capacity expire) ops := by
  have halways := Always.of_along (fun _ _ hs hop =>
    step_sound_of_inOrder hs hop (hs.inOrder hint hop))
    (init_sound capacity expire) hallowed
  exact halways.mono fun _ hs => hs.correct

/-- Timers that expire at their own number. -/
def ownNumber (timer : Nat) : Int := timer

/-- Push the timers `1`, …, `count` in this order. -/
def ascending (count : Nat) : List (Op Nat) :=
  (List.range count).map fun i => .push (i + 1)

/-- A ledger after pushing `count` timers in ascending order. -/
structure Ledger.Ascended (capacity count : Nat) (s : Ledger Nat) :
    Prop where
  slots_eq : ∀ i < count, s.heap.slots i = some (i + 1)
  nums_eq : s.heap.nums = count
  capacity_eq : s.heap.capacity = capacity
  expire_eq : s.heap.expire = ownNumber
  live_length : s.live.length = count
  pushed_le : ∀ timer ∈ s.pushed, 1 ≤ timer ∧ timer ≤ count

theorem Ledger.Ascended.allowed {capacity count : Nat} {s : Ledger Nat}
    (hs : s.Ascended capacity count) (hroom : count + 1 ≤ capacity)
    {timer : Nat} (htimer : timer = 0 ∨ count < timer) :
    s.Allowed (.push timer) := by
  constructor
  · intro hmem
    have := hs.pushed_le timer hmem
    omega
  · rw [hs.live_length, hs.capacity_eq]
    exact hroom

/-- Pushing the next greater timer moves nothing. -/
theorem Ledger.Ascended.push {capacity count : Nat} {s : Ledger Nat}
    (hs : s.Ascended capacity count) (hroom : count + 1 ≤ capacity)
    (hint : count < 2 ^ 31) :
    ∃ next, s.step (.push (count + 1)) = some next ∧
      next.Ascended capacity (count + 1) := by
  let stored : TimerHeap Nat := { s.heap with
    nums := s.heap.nums + 1
    slots := Function.update s.heap.slots s.heap.nums (some (count + 1)) }
  have hslots : ∀ i < count + 1, stored.slots i = some (i + 1) := by
    intro i hi
    by_cases hlast : i = count
    · simp [stored, hlast, hs.nums_eq]
    · simp only [stored, hs.nums_eq]
      rw [Function.update_of_ne hlast]
      exact hs.slots_eq i (by omega)
  have hat (i : Nat) (hi : i < count + 1) :
      stored.timerAt i = some (i + 1) := by
    have hcap : stored.capacity = capacity := hs.capacity_eq
    rw [timerAt, if_pos (by omega), Int.toNat_natCast, hslots i hi]
  have hstay : stored.siftUp count = some (stored, (count : Int)) := by
    rw [siftUp]
    by_cases hpos : 0 < count
    · have hparent : ((count : Int) - 1) / 2 = ((count - 1) / 2 : Nat) := by
        omega
      rw [if_pos (by omega), hparent, hat _ (by omega), hat _ (by omega),
        Option.bind_some, Option.bind_some, if_neg]
      have hexpire : stored.expire = ownNumber := hs.expire_eq
      rw [hexpire, ownNumber, ownNumber]
      omega
    · rw [if_neg (by omega)]
  refine ⟨⟨{ stored with
      index := Function.update stored.index (count + 1) count },
    (count + 1) :: s.pushed, (count + 1) :: s.live⟩, ?_, hslots, ?_, ?_, ?_,
    ?_, ?_⟩
  · have hcount : asInt s.heap.nums = count := by
      rw [hs.nums_eq]
      exact asInt_of_lt _ (by omega) (by omega)
    rw [step, pushTimer]
    simp only []
    rw [if_pos (by rw [hs.nums_eq, hs.capacity_eq]; exact hroom), hcount,
      hstay]
    rfl
  · exact congrArg (· + 1) hs.nums_eq
  · exact hs.capacity_eq
  · exact hs.expire_eq
  · exact congrArg (· + 1) hs.live_length
  · intro timer hmem
    rcases List.mem_cons.mp hmem with rfl | hmem
    · omega
    · have := hs.pushed_le timer hmem
      omega

theorem Ledger.init_ascended (capacity : Nat) :
    (Ledger.init capacity ownNumber).Ascended capacity 0 := by
  refine ⟨?_, rfl, rfl, rfl, rfl, ?_⟩
  · intro i hi
    exact absurd hi (Nat.not_lt_zero i)
  · intro timer hmem
    cases hmem

theorem Ledger.run_ascending {capacity count : Nat}
    (hroom : count ≤ capacity) (hint : count ≤ 2 ^ 31) :
    Along Ledger.step Ledger.Allowed (Ledger.init capacity ownNumber)
        (ascending count) ∧
    ∃ s, run Ledger.step (Ledger.init capacity ownNumber)
        (ascending count) = some s ∧ s.Ascended capacity count := by
  induction count with
  | zero => exact ⟨trivial, _, rfl, init_ascended capacity⟩
  | succ count ih =>
      obtain ⟨halong, s, hrun, hs⟩ := ih (by omega) (by omega)
      obtain ⟨next, hnext, hascended⟩ := hs.push hroom (by omega)
      have hsnoc : ascending (count + 1) =
          ascending count ++ [.push (count + 1)] := by
        simp [ascending, List.range_succ]
      rw [hsnoc]
      constructor
      · apply halong.concat
        intro final hfinal
        rw [hrun] at hfinal
        cases hfinal
        exact hs.allowed hroom (Or.inr (Nat.lt_add_one count))
      · refine ⟨next, ?_, hascended⟩
        rw [run_append, hrun, Option.bind_some, run_cons, hnext,
          Option.bind_some, run_nil]

/-- The run that pushes `count` timers and then one due before all of them. -/
def dueFirst (count : Nat) : List (Op Nat) :=
  ascending count ++ [.push 0]

theorem Ledger.dueFirst_allowed {capacity count : Nat}
    (hroom : count < capacity) (hint : count ≤ 2 ^ 31) :
    Along Ledger.step Ledger.Allowed (Ledger.init capacity ownNumber)
      (dueFirst count) := by
  obtain ⟨halong, s, hrun, hs⟩ := run_ascending (Nat.le_of_lt hroom) hint
  apply halong.concat
  intro final hfinal
  rw [hrun] at hfinal
  cases hfinal
  exact hs.allowed hroom (Or.inl rfl)

/-- The last of `2 ^ 31` and one pushes finds a negative `h` and leaves its
timer at the bottom. -/
theorem Ledger.dueFirst_not_correct {capacity count : Nat}
    (hroom : count < capacity) (hcount : count = 2 ^ 31) :
    ¬ Always Ledger.step Ledger.Correct (Ledger.init capacity ownNumber)
      (dueFirst count) := by
  obtain ⟨_, s, hrun, hs⟩ :=
    run_ascending (Nat.le_of_lt hroom) (Nat.le_of_eq hcount)
  have hneg : asInt s.heap.nums = -2 ^ 31 := by
    rw [hs.nums_eq, hcount]
    decide
  let stored : TimerHeap Nat := { s.heap with
    nums := s.heap.nums + 1
    slots := Function.update s.heap.slots s.heap.nums (some 0) }
  have hstay : stored.siftUp (-2 ^ 31) = some (stored, -2 ^ 31) := by
    rw [siftUp, if_neg (by decide)]
  have hstep : s.step (.push 0) = some ⟨{ stored with
      index := Function.update stored.index 0 (-2 ^ 31) },
        0 :: s.pushed, 0 :: s.live⟩ := by
    rw [step, pushTimer]
    simp only []
    rw [if_pos (by rw [hs.nums_eq, hs.capacity_eq]; omega), hneg, hstay]
    rfl
  intro halways
  obtain ⟨last, hlast, hcorrect⟩ := halways.final
  rw [dueFirst, run_append, hrun, Option.bind_some, run_cons, hstep,
    Option.bind_some, run_nil] at hlast
  cases hlast
  obtain ⟨parent, timer, hparent, htimer, hle⟩ := hcorrect.order count
    (by omega) (by change count < s.heap.nums + 1; rw [hs.nums_eq]; omega)
  simp only [stored, hs.nums_eq, Function.update_self] at hparent htimer
  rw [Function.update_of_ne (by omega), hs.slots_eq _ (by omega)] at hparent
  cases hparent
  cases htimer
  have hexpire : stored.expire = ownNumber := hs.expire_eq
  simp only [hexpire, ownNumber] at hle
  omega

/-- In every run that respects the capacity the heap is correct throughout
exactly when each push finds fewer than `2 ^ 31` timers or a timer at its parent
slot that expires no later; so in all such runs exactly when the capacity lets
the last index fit in the `int` of `pushTimer`. -/
theorem timerHeap_correct_iff (capacity : Nat) :
    (∀ (expire : T → Int) (ops : List (Op T)),
      Along Ledger.step Ledger.Allowed (Ledger.init capacity expire) ops →
        (Always Ledger.step Ledger.Correct (Ledger.init capacity expire)
            ops ↔
          Along Ledger.step Ledger.InOrder (Ledger.init capacity expire)
            ops)) ∧
    ((∀ (expire : Nat → Int) (ops : List (Op Nat)),
      Along Ledger.step Ledger.Allowed (Ledger.init capacity expire) ops →
        Always Ledger.step Ledger.Correct (Ledger.init capacity expire)
          ops) ↔
      capacity ≤ 2 ^ 31) := by
  refine ⟨fun expire ops hallowed =>
    (Ledger.init_sound capacity expire).always_correct_iff hallowed, ?_, ?_⟩
  · intro hcorrect
    by_contra hbig
    obtain ⟨count, hcount⟩ : ∃ count, count = 2 ^ 31 := ⟨_, rfl⟩
    have hroom : count < capacity := by omega
    have hallowed := Ledger.dueFirst_allowed hroom (Nat.le_of_eq hcount)
    exact Ledger.dueFirst_not_correct hroom hcount
      (hcorrect ownNumber _ hallowed)
  · intro hint expire ops hallowed
    exact Ledger.always_correct hint expire ops hallowed

/-- One push more than an `int` can index, on a heap with room for it. -/
theorem push_beyond_int_breaks_order :
    Along Ledger.step Ledger.Allowed (Ledger.init (2 ^ 31 + 1) ownNumber)
        (dueFirst (2 ^ 31)) ∧
      ¬ Always Ledger.step Ledger.Correct
        (Ledger.init (2 ^ 31 + 1) ownNumber) (dueFirst (2 ^ 31)) := by
  obtain ⟨count, hcount⟩ : ∃ count, count = 2 ^ 31 := ⟨_, rfl⟩
  rw [← hcount]
  exact ⟨Ledger.dueFirst_allowed (Nat.lt_add_one count)
      (Nat.le_of_eq hcount),
    Ledger.dueFirst_not_correct (Nat.lt_add_one count) hcount⟩

end TimerHeap

end Sone

end LinuxTest
