/-
`TimerHeap::tick`: the loop that fires the expired timers, where a callback may
push new timers on the heap.
-/
import LinuxTest.TimerHeap

namespace LinuxTest

namespace Sone

universe u

variable {T : Type u}

namespace TimerHeap

/-- The timers in the slots below `_nums`. -/
def timers (heap : TimerHeap T) : List T :=
  (contents heap.slots heap.nums).filterMap id

/-- The timer that the loop of `tick` fires next; the inner none where the loop
ends, because the heap is empty or its top timer has not expired. -/
def due (heap : TimerHeap T) (cur : Int) : Option (Option T) :=
  if heap.nums = 0 then some none
  else match heap.topTimer with
    | none => none
    | some none => some none
    | some (some timer) =>
        if heap.expire timer > cur then some none else some (some timer)

section Tick

variable [DecidableEq T]

def pushAll (heap : TimerHeap T) : List T → Option (TimerHeap T)
  | [] => some heap
  | timer :: rest => (heap.pushTimer (some timer)).bind fun heap =>
      heap.pushAll rest

end Tick

end TimerHeap

/-- `tick` between two turns of its loop: the timers whose callbacks have run,
what `popTimer` took away after each, and what the callbacks have pushed. -/
structure Ticking (T : Type u) where
  heap : TimerHeap T
  fired : List T
  removed : List (Option T)
  spawned : List T

/-- What a timer does when it fires: none for a timer without a callback, else
the timers that its callback pushes, which may depend on what has fired
before. -/
abbrev Callbacks (T : Type u) := T → Option (List T → List T)

namespace Ticking

/-- What the callback of `timer` pushes now. -/
def spawn (cb : Callbacks T) (s : Ticking T) (timer : T) : List T :=
  match cb timer with
  | none => []
  | some push => push s.fired

variable [DecidableEq T]

/-- One turn: the callback, then `popTimer`. -/
def fire (cb : Callbacks T) (s : Ticking T) (timer : T) :
    Option (Ticking T) :=
  (s.heap.pushAll (s.spawn cb timer)).bind fun heap =>
    heap.topTimer.bind fun top => heap.popTimer.map fun next =>
      ⟨next, s.fired ++ [timer], s.removed ++ [top],
        s.spawned ++ s.spawn cb timer⟩

/-- The loop, for at most `fuel` turns. -/
def loop (cb : Callbacks T) (cur : Int) : Nat → Ticking T → Option (Ticking T)
  | 0, _ => none
  | fuel + 1, s => match s.heap.due cur with
    | none => none
    | some none => some s
    | some (some timer) => (s.fire cb timer).bind fun next =>
        loop cb cur fuel next

end Ticking

/-- `TimerHeap::tick` at the time `cur`. -/
def TimerHeap.tick [DecidableEq T] (cb : Callbacks T) (cur : Int)
    (fuel : Nat) (heap : TimerHeap T) : Option (Ticking T) :=
  Ticking.loop cb cur fuel ⟨heap, [], [], []⟩

namespace TimerHeap

variable {heap : TimerHeap T} {cur : Int}

theorem mem_timers {timer : T} :
    timer ∈ heap.timers ↔ ∃ i < heap.nums, heap.slots i = some timer := by
  simp [timers, mem_contents]

theorem timers_of_push {timer : T} {slots : Nat → Option T}
    (index : T → Int)
    (hperm : (contents slots (heap.nums + 1)).Perm
      (contents (heap.pushed timer) (heap.nums + 1))) :
    ({ heap with
      nums := heap.nums + 1
      slots := slots
      index := index } : TimerHeap T).timers.Perm
        (heap.timers ++ [timer]) := by
  have hall := hperm.filterMap id
  rw [contents_pushed, List.filterMap_append] at hall
  exact hall

theorem timers_of_pop (hfilled : heap.Filled) {top : T}
    (hne : heap.nums ≠ 0) (htop : heap.slots 0 = some top)
    {slots : Nat → Option T} (index : T → Int)
    (hperm : (contents slots (heap.nums - 1)).Perm
      (contents heap.popped (heap.nums - 1))) :
    (top :: ({ heap with
      nums := heap.nums - 1
      slots := slots
      index := index } : TimerHeap T).timers).Perm heap.timers := by
  obtain ⟨top', htop', hpopped⟩ := hfilled.popped hne
  rw [htop] at htop'
  cases htop'
  have hall := ((hperm.append_right [some top]).trans hpopped).filterMap id
  rw [List.filterMap_append] at hall
  exact (List.perm_append_singleton top _).symm.trans hall

/-- Times after `cur` count as one. -/
def clip (cur time : Int) : Int :=
  min time (cur + 1)

theorem clip_le_clip (cur : Int) {time later : Int} (hle : time ≤ later) :
    clip cur time ≤ clip cur later := by
  rw [clip, clip]
  omega

/-- In order up to `cur`: what has not expired need not be in order with the
rest that has not. -/
def OrderedUpTo (cur : Int) (heap : TimerHeap T) : Prop :=
  HeapOrder (clip cur ∘ heap.key) heap.nums

theorem orderedUpTo_of_heapOrder (horder : HeapOrder heap.key heap.nums) :
    OrderedUpTo cur heap :=
  fun i hpos hi => clip_le_clip cur (horder i hpos hi)

/-- A top timer that has expired is a least one. -/
theorem OrderedUpTo.root_le (horder : OrderedUpTo cur heap)
    (hroot : heap.key 0 ≤ cur) {i : Nat} (hi : i < heap.nums) :
    heap.key 0 ≤ heap.key i := by
  have hle : clip cur (heap.key 0) ≤ clip cur (heap.key i) :=
    HeapOrder.root_le horder hi
  rw [clip, clip] at hle
  omega

theorem OrderedUpTo.root_late (horder : OrderedUpTo cur heap)
    (hroot : cur < heap.key 0) {i : Nat} (hi : i < heap.nums) :
    cur < heap.key i := by
  have hle : clip cur (heap.key 0) ≤ clip cur (heap.key i) :=
    HeapOrder.root_le horder hi
  rw [clip, clip] at hle
  omega

/-- Filled, in order up to `cur`, with an expired timer on top. -/
structure Ripe (cur : Int) (top : T) (heap : TimerHeap T) : Prop where
  filled : heap.Filled
  order : OrderedUpTo cur heap
  top_eq : heap.slots 0 = some top
  nums_ne : heap.nums ≠ 0
  expired : heap.expire top ≤ cur

theorem Ripe.key_zero {top : T} (hripe : heap.Ripe cur top) :
    heap.key 0 = heap.expire top := by
  simp [key, hripe.top_eq]

theorem Ripe.mem_timers {top : T} (hripe : heap.Ripe cur top) :
    top ∈ heap.timers :=
  TimerHeap.mem_timers.mpr
    ⟨0, Nat.pos_of_ne_zero hripe.nums_ne, hripe.top_eq⟩

/-- What the loop does is decided by the timer on top. -/
theorem due_eq (cur : Int) (hfilled : heap.Filled) (hne : heap.nums ≠ 0) :
    ∃ top, heap.slots 0 = some top ∧ heap.key 0 = heap.expire top ∧
      heap.due cur = some (if heap.expire top > cur then none
        else some top) := by
  obtain ⟨top, htop, _, hkey⟩ := hfilled.timerAt (i := 0) (by omega)
  refine ⟨top, htop, hkey, ?_⟩
  rw [due, if_neg hne, hfilled.topTimer_eq hne htop]
  simp only []
  split <;> rfl

theorem due_eq_some {timer : T} (hfilled : heap.Filled)
    (horder : OrderedUpTo cur heap) (hdue : heap.due cur = some (some timer)) :
    heap.Ripe cur timer := by
  by_cases hne : heap.nums = 0
  · rw [due, if_pos hne] at hdue
    cases hdue
  · obtain ⟨top, htop, _, hwhich⟩ := due_eq cur hfilled hne
    rw [hdue] at hwhich
    split at hwhich
    · cases hwhich
    · case isFalse hcur =>
        cases hwhich
        exact ⟨hfilled, horder, htop, hne, not_lt.mp hcur⟩

/-- The loop ends only when nothing in the heap has expired. -/
theorem due_eq_none (hfilled : heap.Filled) (horder : OrderedUpTo cur heap)
    (hdue : heap.due cur = some none) :
    ∀ timer ∈ heap.timers, cur < heap.expire timer := by
  intro timer htimer
  obtain ⟨i, hi, hslot⟩ := mem_timers.mp htimer
  obtain ⟨top, _, hkey, hwhich⟩ := due_eq cur hfilled (by omega)
  rw [hdue] at hwhich
  split at hwhich
  · case isTrue hlate =>
      rw [← hkey] at hlate
      have hthis := horder.root_late hlate hi
      simpa [key, hslot] using hthis
  · cases hwhich

/-- A filled heap always tells. -/
theorem due_ne_none (hfilled : heap.Filled) : heap.due cur ≠ none := by
  by_cases hne : heap.nums = 0
  · rw [due, if_pos hne]
    simp
  · obtain ⟨top, _, _, hwhich⟩ := due_eq cur hfilled hne
    rw [hwhich]
    simp

section Steps

variable [DecidableEq T] {top : T}

/-- `pushTimer` adds its timer. -/
theorem Filled.push (hfilled : heap.Filled)
    (hroom : heap.nums + 1 ≤ heap.capacity) (timer : T) :
    ∃ next, heap.pushTimer (some timer) = some next ∧ next.Filled ∧
      next.timers.Perm (heap.timers ++ [timer]) := by
  obtain ⟨slots, place, hrun, hsift⟩ := pushTimer_sifts hfilled hroom timer
  have hperm : (contents slots (heap.nums + 1)).Perm
      (contents (heap.pushed timer) (heap.nums + 1)) := by
    rcases hsift with ⟨_, _, rfl⟩ | ⟨h, p, _, hle, _, hsift⟩
    · exact List.Perm.refl _
    · exact hsift.perm (Nat.lt_succ_of_le hle)
  exact ⟨_, hrun, hfilled.of_push hroom _ hperm, timers_of_push _ hperm⟩

/-- `popTimer` takes away what `topTimer` shows. -/
theorem Filled.pop (hfilled : heap.Filled) (hne : heap.nums ≠ 0)
    (htop : heap.slots 0 = some top) :
    heap.topTimer = some (some top) ∧
      ∃ next, heap.popTimer = some next ∧ next.Filled ∧
        (top :: next.timers).Perm heap.timers := by
  obtain ⟨slots, hrun, hsift⟩ := popTimer_sifts hfilled hne htop
  exact ⟨hfilled.topTimer_eq hne htop, _, hrun,
    hfilled.of_pop hne _ hsift.perm,
    timers_of_pop hfilled hne htop _ hsift.perm⟩

/-- A push of a timer that expires later leaves the top timer where it is. -/
theorem Ripe.push (hripe : heap.Ripe cur top) {timer : T}
    (hlate : cur < heap.expire timer)
    (hroom : heap.nums + 1 ≤ heap.capacity) :
    ∃ next, heap.pushTimer (some timer) = some next ∧ next.Ripe cur top ∧
      next.expire = heap.expire ∧ next.capacity = heap.capacity ∧
      next.nums = heap.nums + 1 ∧
      next.timers.Perm (heap.timers ++ [timer]) := by
  have hne := hripe.nums_ne
  have horder : HeapOrder (clip cur ∘ heap.rank ∘ heap.pushed timer)
      (heap.nums + 1) := by
    intro i hpos hi
    simp only [Function.comp_apply]
    rw [pushed_of_lt heap timer (by omega : (i - 1) / 2 < heap.nums)]
    by_cases hlast : i = heap.nums
    · have hclip : clip cur (heap.rank (some timer)) = cur + 1 :=
        min_eq_right hlate
      rw [hlast, pushed_last, hclip]
      exact min_le_right _ _
    · rw [pushed_of_lt heap timer (by omega)]
      exact hripe.order i hpos (by omega)
  have hroot : ∀ i < heap.nums + 1, heap.rank (heap.pushed timer 0) ≤
      heap.rank (heap.pushed timer i) := by
    intro i hi
    have hzero := hripe.key_zero
    have hexpired := hripe.expired
    rw [pushed_of_lt heap timer (by omega)]
    by_cases hlast : i = heap.nums
    · rw [hlast, pushed_last]
      change heap.key 0 ≤ heap.expire timer
      omega
    · rw [pushed_of_lt heap timer (by omega)]
      exact hripe.order.root_le (by omega) (by omega)
  obtain ⟨slots, place, hrun, hsift⟩ :=
    pushTimer_sifts hripe.filled hroom timer
  -- Whether or not `int h` still holds the count, the sift keeps the order up
  -- to `cur` and the top.
  have hsifted : (contents slots (heap.nums + 1)).Perm
        (contents (heap.pushed timer) (heap.nums + 1)) ∧
      HeapOrder (clip cur ∘ heap.rank ∘ slots) (heap.nums + 1) ∧
      slots 0 = heap.pushed timer 0 := by
    rcases hsift with ⟨_, _, rfl⟩ | ⟨h, p, _, hle, _, hsift⟩
    · exact ⟨List.Perm.refl _, horder, rfl⟩
    · have hlt := Nat.lt_succ_of_le hle
      exact ⟨hsift.perm hlt, hsift.heapOrder hlt (fun _ _ => clip_le_clip cur)
        (horder.orderedAbove h), hsift.root hlt hroot⟩
  obtain ⟨hperm, hnext, hzero⟩ := hsifted
  refine ⟨_, hrun, ⟨hripe.filled.of_push hroom _ hperm, hnext, ?_,
    Nat.succ_ne_zero _, hripe.expired⟩, rfl, rfl, rfl, ?_⟩
  · change slots 0 = some top
    rw [hzero, pushed_of_lt heap timer (by omega), hripe.top_eq]
  · exact timers_of_push _ hperm

/-- So does any number of them. -/
theorem Ripe.pushAll {new : List T} (hripe : heap.Ripe cur top)
    (hlate : ∀ timer ∈ new, cur < heap.expire timer)
    (hroom : heap.nums + new.length ≤ heap.capacity) :
    ∃ next, heap.pushAll new = some next ∧ next.Ripe cur top ∧
      next.expire = heap.expire ∧ next.timers.Perm (heap.timers ++ new) := by
  induction new generalizing heap with
  | nil => exact ⟨heap, rfl, hripe, rfl, by simp⟩
  | cons timer rest ih =>
      rw [List.length_cons] at hroom
      obtain ⟨mid, hmid, hmidRipe, hexpire, hcapacity, hnums, hperm⟩ :=
        hripe.push (hlate timer List.mem_cons_self) (by omega)
      have hrest : ∀ other ∈ rest, cur < mid.expire other := by
        intro other hother
        rw [hexpire]
        exact hlate other (List.mem_cons_of_mem timer hother)
      obtain ⟨next, hnext, hnextRipe, hnextExpire, hnextPerm⟩ :=
        ih hmidRipe hrest (by omega)
      refine ⟨next, ?_, hnextRipe, hnextExpire.trans hexpire, ?_⟩
      · rw [TimerHeap.pushAll, hmid]
        exact hnext
      · have hall := hnextPerm.trans (hperm.append_right rest)
        rwa [List.append_assoc] at hall

/-- `popTimer` takes the top timer and keeps the order up to `cur`. -/
theorem Ripe.pop (hripe : heap.Ripe cur top) :
    ∃ next, heap.popTimer = some next ∧ next.Filled ∧
      OrderedUpTo cur next ∧ next.expire = heap.expire ∧
      (top :: next.timers).Perm heap.timers := by
  obtain ⟨slots, hrun, hsift⟩ :=
    popTimer_sifts hripe.filled hripe.nums_ne hripe.top_eq
  exact ⟨_, hrun, hripe.filled.of_pop hripe.nums_ne _ hsift.perm,
    hsift.heapOrder (fun _ _ => clip_le_clip cur)
      (popped_orderedBelow hripe.order),
    rfl, timers_of_pop hripe.filled hripe.nums_ne hripe.top_eq _
      hsift.perm⟩

end Steps

end TimerHeap

namespace Ticking

variable {cb : Callbacks T} {cur : Int} {start : TimerHeap T}
  {s after : Ticking T} {timer : T}

section Turns

variable [DecidableEq T]

/-- The turns that `tick` comes to. -/
inductive Reaches (cb : Callbacks T) (cur : Int) (s : Ticking T) :
    Ticking T → Prop
  | refl : Reaches cb cur s s
  | turn {mid next : Ticking T} {timer : T} (hmid : Reaches cb cur s mid)
      (hdue : mid.heap.due cur = some (some timer))
      (hfire : mid.fire cb timer = some next) : Reaches cb cur s next

/-- Every callback that `tick` runs leaves the heap alone or pushes timers that
expire later, as many as there is room for. -/
def Behaved (cb : Callbacks T) (cur : Int) (s : Ticking T) : Prop :=
  ∀ mid, Reaches cb cur s mid → ∀ timer,
    mid.heap.due cur = some (some timer) →
      (∀ new ∈ mid.spawn cb timer, cur < mid.heap.expire new) ∧
        mid.heap.nums + (mid.spawn cb timer).length ≤ mid.heap.capacity

theorem Reaches.head (hdue : s.heap.due cur = some (some timer))
    (hfire : s.fire cb timer = some after) {final : Ticking T}
    (hreach : Reaches cb cur after final) : Reaches cb cur s final := by
  induction hreach with
  | refl => exact .turn .refl hdue hfire
  | turn _ hdue' hfire' ih => exact .turn ih hdue' hfire'

theorem Behaved.next (hbehaved : Behaved cb cur s)
    (hdue : s.heap.due cur = some (some timer))
    (hfire : s.fire cb timer = some after) : Behaved cb cur after :=
  fun mid hmid => hbehaved mid (hmid.head hdue hfire)

end Turns

/-- What the loop keeps, from the heap `start`: nothing is lost, and what has
fired is expired, in order, and not after what is left. -/
structure Sound (cur : Int) (start : TimerHeap T) (s : Ticking T) : Prop where
  filled : s.heap.Filled
  order : TimerHeap.OrderedUpTo cur s.heap
  expire_eq : s.heap.expire = start.expire
  balance : (s.fired ++ s.heap.timers).Perm (start.timers ++ s.spawned)
  late : ∀ new ∈ s.spawned, cur < start.expire new
  expired : ∀ timer ∈ s.fired, start.expire timer ≤ cur
  sorted : s.fired.Pairwise fun a b => start.expire a ≤ start.expire b
  least : ∀ timer ∈ s.fired, ∀ other ∈ s.heap.timers,
    start.expire timer ≤ start.expire other
  removed_eq : s.removed = s.fired.map some

theorem sound_start (hfilled : start.Filled)
    (horder : HeapOrder start.key start.nums) :
    Sound cur start ⟨start, [], [], []⟩ where
  filled := hfilled
  order := TimerHeap.orderedUpTo_of_heapOrder horder
  expire_eq := rfl
  balance := by simp
  late := by simp
  expired := by simp
  sorted := List.Pairwise.nil
  least := by simp
  removed_eq := rfl

/-- The expired timers of a heap. -/
def expiredCount (cur : Int) (start heap : TimerHeap T) : Nat :=
  heap.timers.countP fun timer => start.expire timer ≤ cur

theorem Sound.count_ne_zero (hs : Sound cur start s)
    (hdue : s.heap.due cur = some (some timer)) :
    expiredCount cur start s.heap ≠ 0 := by
  have hripe := TimerHeap.due_eq_some hs.filled hs.order hdue
  have hexpired : start.expire timer ≤ cur := by
    rw [← hs.expire_eq]
    exact hripe.expired
  rw [expiredCount, ← Nat.pos_iff_ne_zero, List.countP_pos_iff]
  exact ⟨timer, hripe.mem_timers, by simpa using hexpired⟩

/-- A loop that has ended has fired what was expired and left the rest. -/
theorem Sound.finished (hs : Sound cur start s)
    (hdue : s.heap.due cur = some none) :
    s.fired.Perm (start.timers.filter fun timer =>
        start.expire timer ≤ cur) ∧
      s.heap.timers.Perm ((start.timers.filter fun timer =>
        cur < start.expire timer) ++ s.spawned) := by
  have hleft : ∀ timer ∈ s.heap.timers, cur < start.expire timer := by
    rw [← hs.expire_eq]
    exact TimerHeap.due_eq_none hs.filled hs.order hdue
  constructor
  · have hall := hs.balance.filter fun timer => start.expire timer ≤ cur
    rw [List.filter_append, List.filter_append,
      List.filter_eq_self.mpr (by simpa using hs.expired),
      List.filter_eq_nil_iff.mpr (by simpa using hleft),
      (List.filter_eq_nil_iff (l := s.spawned)).mpr
        (by simpa using hs.late),
      List.append_nil, List.append_nil] at hall
    exact hall
  · have hall := hs.balance.filter fun timer => cur < start.expire timer
    rw [List.filter_append, List.filter_append,
      List.filter_eq_nil_iff.mpr (by simpa using hs.expired),
      List.filter_eq_self.mpr (by simpa using hleft),
      (List.filter_eq_self (l := s.spawned)).mpr
        (by simpa using hs.late),
      List.nil_append] at hall
    exact hall

variable [DecidableEq T]

/-- One turn: the timer whose callback ran is the one that `popTimer` takes. -/
theorem Sound.fire (hs : Sound cur start s)
    (hdue : s.heap.due cur = some (some timer))
    (hlate : ∀ new ∈ s.spawn cb timer, cur < s.heap.expire new)
    (hroom : s.heap.nums + (s.spawn cb timer).length ≤ s.heap.capacity) :
    ∃ next, s.fire cb timer = some next ∧ Sound cur start next ∧
      expiredCount cur start next.heap + 1 =
        expiredCount cur start s.heap := by
  have hripe := TimerHeap.due_eq_some hs.filled hs.order hdue
  obtain ⟨pushed, hpush, hpushed, hpushExpire, hpushPerm⟩ :=
    hripe.pushAll hlate hroom
  obtain ⟨heap, hpop, hfilled, horder, hpopExpire, hpopPerm⟩ := hpushed.pop
  have htop := hpushed.filled.topTimer_eq hpushed.nums_ne hpushed.top_eq
  have hexpire : heap.expire = start.expire :=
    hpopExpire.trans (hpushExpire.trans hs.expire_eq)
  have hlate' : ∀ new ∈ s.spawn cb timer, cur < start.expire new :=
    hs.expire_eq ▸ hlate
  have hexpired : start.expire timer ≤ cur := by
    rw [← hs.expire_eq]
    exact hripe.expired
  have hturn : (timer :: heap.timers).Perm
      (s.heap.timers ++ s.spawn cb timer) := hpopPerm.trans hpushPerm
  -- What is left was there before the turn or was just pushed.
  have hleft : ∀ other ∈ heap.timers,
      other ∈ s.heap.timers ∨ other ∈ s.spawn cb timer := fun other hother =>
    List.mem_append.mp (hturn.mem_iff.mp (List.mem_cons_of_mem timer hother))
  have hleast : ∀ other ∈ s.heap.timers,
      start.expire timer ≤ start.expire other := by
    intro other hother
    obtain ⟨i, hi, hslot⟩ := TimerHeap.mem_timers.mp hother
    have hzero := hripe.key_zero
    have hle := hs.order.root_le (hzero.trans_le hripe.expired) hi
    rw [hzero, TimerHeap.key, hslot] at hle
    rw [← hs.expire_eq]
    exact hle
  refine ⟨⟨heap, s.fired ++ [timer], s.removed ++ [some timer],
    s.spawned ++ s.spawn cb timer⟩, ?_, ?_, ?_⟩
  · rw [Ticking.fire, hpush, Option.bind_some, htop, Option.bind_some, hpop]
    rfl
  · refine ⟨hfilled, horder, hexpire, ?_, ?_, ?_, ?_, ?_, ?_⟩
    · have hall : (s.fired ++ (timer :: heap.timers)).Perm
          (s.fired ++ (s.heap.timers ++ s.spawn cb timer)) :=
        hturn.append_left s.fired
      rw [← List.append_assoc] at hall
      have hbalance := hall.trans (hs.balance.append_right (s.spawn cb timer))
      rwa [List.append_cons, List.append_assoc start.timers] at hbalance
    · intro new hnew
      rcases List.mem_append.mp hnew with hold | hnew
      · exact hs.late new hold
      · exact hlate' new hnew
    · intro other hother
      rcases List.mem_append.mp hother with hold | hnew
      · exact hs.expired other hold
      · rw [List.mem_singleton.mp hnew]
        exact hexpired
    · refine List.pairwise_append.mpr
        ⟨hs.sorted, List.pairwise_singleton _ _, ?_⟩
      intro before hbefore other hother
      rw [List.mem_singleton.mp hother]
      exact hs.least before hbefore timer hripe.mem_timers
    · intro before hbefore other hother
      rcases List.mem_append.mp hbefore with hold | hnew
      · rcases hleft other hother with hstayed | hspawned
        · exact hs.least before hold other hstayed
        · exact (hs.expired before hold).trans (hlate' other hspawned).le
      · rw [List.mem_singleton.mp hnew]
        rcases hleft other hother with hstayed | hspawned
        · exact hleast other hstayed
        · exact hexpired.trans (hlate' other hspawned).le
    · change s.removed ++ [some timer] = (s.fired ++ [timer]).map some
      rw [hs.removed_eq, List.map_append]
      rfl
  · have hcount := hturn.countP_eq fun other => start.expire other ≤ cur
    have hnone : (s.spawn cb timer).countP
        (fun other => start.expire other ≤ cur) = 0 := by
      rw [List.countP_eq_zero]
      intro new hnew
      simpa using hlate' new hnew
    rw [List.countP_append, hnone, List.countP_cons_of_pos
      (by simpa using hexpired)] at hcount
    exact hcount

/-- The loop ends after one turn for each expired timer. -/
theorem Sound.loop (hs : Sound cur start s) (hbehaved : Behaved cb cur s) :
    ∃ final, (∀ fuel, expiredCount cur start s.heap < fuel →
        Ticking.loop cb cur fuel s = some final) ∧
      Sound cur start final ∧ final.heap.due cur = some none := by
  induction hn : expiredCount cur start s.heap using Nat.strong_induction_on
    generalizing s with
  | _ n ih =>
      have hsucc : ∀ fuel, n < fuel → ∃ rest, fuel = rest + 1 := fun fuel hlt =>
        ⟨fuel - 1, by omega⟩
      cases hdue : s.heap.due cur with
      | none => exact absurd hdue (TimerHeap.due_ne_none hs.filled)
      | some top =>
          cases top with
          | none =>
              refine ⟨s, ?_, hs, hdue⟩
              intro fuel hfuel
              obtain ⟨rest, rfl⟩ := hsucc fuel hfuel
              rw [Ticking.loop, hdue]
          | some timer =>
              obtain ⟨hlate, hroom⟩ := hbehaved s .refl timer hdue
              obtain ⟨next, hnext, hsound, hcount⟩ :=
                hs.fire hdue hlate hroom
              obtain ⟨final, hfinal, hrest⟩ :=
                ih (n - 1) (by omega) hsound (hbehaved.next hdue hnext)
                  (by omega)
              refine ⟨final, ?_, hrest⟩
              intro fuel hfuel
              obtain ⟨rest, rfl⟩ := hsucc fuel hfuel
              rw [Ticking.loop, hdue]
              simp only []
              rw [hnext, Option.bind_some]
              exact hfinal rest (by omega)

end Ticking

namespace TimerHeap

/-- `tick` ends, having run the callbacks of the expired timers in the order of
their expiry and taken away each after its callback; the timers left are the
others and those the callbacks pushed. -/
theorem tick_fires_expired [DecidableEq T] (cb : Callbacks T) (cur : Int)
    (heap : TimerHeap T) (hfilled : heap.Filled)
    (horder : HeapOrder heap.key heap.nums)
    (hbehaved : Ticking.Behaved cb cur ⟨heap, [], [], []⟩) :
    ∃ final, (∃ turns, ∀ fuel ≥ turns,
        heap.tick cb cur fuel = some final) ∧
      final.fired.Perm (heap.timers.filter fun timer =>
        heap.expire timer ≤ cur) ∧
      final.fired.Pairwise (fun a b => heap.expire a ≤ heap.expire b) ∧
      final.removed = final.fired.map some ∧
      final.heap.timers.Perm ((heap.timers.filter fun timer =>
        cur < heap.expire timer) ++ final.spawned) := by
  obtain ⟨final, hloop, hsound, hdue⟩ :=
    (Ticking.sound_start hfilled horder).loop hbehaved
  obtain ⟨hfired, hleft⟩ := hsound.finished hdue
  exact ⟨final, ⟨_, fun fuel hfuel => hloop fuel hfuel⟩, hfired,
    hsound.sorted, hsound.removed_eq, hleft⟩

/-- One timer, which has expired at the time 1; the other will at 2. -/
def oneExpired : TimerHeap Bool :=
  ⟨Function.update (fun _ => none) 0 (some true), 2, 1,
    fun timer => if timer then 1 else 2, fun _ => 0⟩

/-- The callback of the first pushes the second. -/
def relay (timer : Bool) : Option (List Bool → List Bool) :=
  if timer then some fun _ => [false] else none

theorem oneExpired_filled : oneExpired.Filled :=
  ⟨by decide, by decide⟩

theorem oneExpired_order : HeapOrder oneExpired.key oneExpired.nums := by
  intro i hpos hi
  change i < 1 at hi
  omega

theorem behaved_relay :
    Ticking.Behaved relay 1 ⟨oneExpired, [], [], []⟩ := by
  have hstart : Ticking.Sound 1 oneExpired ⟨oneExpired, [], [], []⟩ :=
    Ticking.sound_start oneExpired_filled oneExpired_order
  have hspawn : (∀ new ∈ Ticking.spawn relay ⟨oneExpired, [], [], []⟩ true,
        1 < oneExpired.expire new) ∧
      oneExpired.nums + (Ticking.spawn relay
        ⟨oneExpired, [], [], []⟩ true).length ≤ oneExpired.capacity := by
    decide
  have hone : Ticking.expiredCount 1 oneExpired oneExpired = 1 := by decide
  -- There is one turn, and nothing is due after it.
  have hreach : ∀ mid, Ticking.Reaches relay 1 ⟨oneExpired, [], [], []⟩ mid →
      mid = ⟨oneExpired, [], [], []⟩ ∨ Ticking.Sound 1 oneExpired mid ∧
        Ticking.expiredCount 1 oneExpired mid.heap = 0 := by
    intro mid hmid
    induction hmid with
    | refl => exact Or.inl rfl
    | turn _ hdue hfire ih =>
        right
        rcases ih with rfl | ⟨hsound, hzero⟩
        · cases hdue
          obtain ⟨next, hnext, hsound, hcount⟩ :=
            hstart.fire rfl hspawn.1 hspawn.2
          rw [hfire] at hnext
          cases hnext
          exact ⟨hsound, Nat.succ.inj (hcount.trans hone)⟩
        · exact absurd hzero (hsound.count_ne_zero hdue)
  intro mid hmid timer hdue
  rcases hreach mid hmid with rfl | ⟨hsound, hzero⟩
  · cases hdue
    exact hspawn
  · exact absurd hzero (hsound.count_ne_zero hdue)

theorem tick_fires_expired_relay :
    oneExpired.Filled ∧ HeapOrder oneExpired.key oneExpired.nums ∧
      Ticking.Behaved relay 1 ⟨oneExpired, [], [], []⟩ ∧
      ∃ final, (∃ turns, ∀ fuel ≥ turns,
          oneExpired.tick relay 1 fuel = some final) ∧
        final.fired.Perm (oneExpired.timers.filter fun timer =>
          oneExpired.expire timer ≤ 1) ∧
        final.fired.Pairwise (fun a b =>
          oneExpired.expire a ≤ oneExpired.expire b) ∧
        final.removed = final.fired.map some ∧
        final.heap.timers.Perm ((oneExpired.timers.filter fun timer =>
          1 < oneExpired.expire timer) ++ final.spawned) :=
  ⟨oneExpired_filled, oneExpired_order, behaved_relay,
    tick_fires_expired relay 1 oneExpired oneExpired_filled
      oneExpired_order behaved_relay⟩

end TimerHeap

end Sone

end LinuxTest
