/-
`TimerHeap::tick`, run by the alarm handler, against the threads of the
connections.  The lock of the heap is held inside each call only, so between
`topTimer` and `popTimer` the others can push and refresh.
-/
import LinuxTest.TimerRefresh
import LinuxTest.TimerTick

namespace LinuxTest

namespace Sone

universe u

variable {T : Type u}

/-- The call that `tick` makes next, with the `cur` it has read. -/
inductive TickPc (T : Type u) where
  | idle
  | empty (cur : Int)
  | topTimer (cur : Int)
  | callback (cur : Int) (timer : T)
  | popTimer (cur : Int) (timer : T)

/-- The timer that `tick` has decided to fire and not yet taken away. -/
def TickPc.held : TickPc T → Option T
  | .callback _ timer => some timer
  | .popTimer _ timer => some timer
  | _ => none

def TickPc.cur : TickPc T → Option Int
  | .idle => none
  | .empty cur => some cur
  | .topTimer cur => some cur
  | .callback cur _ => some cur
  | .popTimer cur _ => some cur

/-- The heap and `tick`, with the timers pushed so far and, for each `popTimer`
of `tick`, the timer whose callback had run and the one that was taken. -/
structure TimerRace (T : Type u) where
  heap : TimerHeap T
  pc : TickPc T
  pushed : List T
  taken : List (T × Option T)

/-- The alarm goes off, `tick` makes its next call, or another thread pushes or
refreshes a timer. -/
inductive Move (T : Type u) where
  | alarm (cur : Int)
  | tick
  | push (timer : T)
  | refresh (timer : T) (time : Int)

namespace TimerRace

def init (capacity : Nat) (expire : T → Int) : TimerRace T :=
  ⟨TimerHeap.init capacity expire, .idle, [], []⟩

/-- Where `tick` goes on after `topTimer` returned `top`. -/
def pcAfterTop (s : TimerRace T) (cur : Int) : Option T → TickPc T
  | none => .idle
  | some timer =>
      if s.heap.expire timer > cur then .idle else .callback cur timer

section Steps

variable [DecidableEq T]

/-- The next call of `tick`. -/
def tick (s : TimerRace T) : Option (TimerRace T) :=
  match s.pc with
  | .idle => some s
  | .empty cur => some { s with
      pc := if s.heap.nums = 0 then .idle else .topTimer cur }
  | .topTimer cur => s.heap.topTimer.map fun top =>
      { s with pc := s.pcAfterTop cur top }
  | .callback cur timer => some { s with pc := .popTimer cur timer }
  | .popTimer cur timer => s.heap.topTimer.bind fun top =>
      s.heap.popTimer.map fun heap =>
        { s with
          heap := heap
          pc := .empty cur
          taken := s.taken ++ [(timer, top)] }

/-- The handler arms the next alarm when it returns, so an alarm finds no other
`tick` under way. -/
def step (s : TimerRace T) : Move T → Option (TimerRace T)
  | .alarm cur => match s.pc with
    | .idle => some { s with pc := .empty cur }
    | _ => some s
  | .tick => s.tick
  | .push timer => (s.heap.pushTimer (some timer)).map fun heap =>
      { s with
        heap := heap
        pushed := s.pushed ++ [timer] }
  | .refresh timer time => (s.heap.refresh timer time).map fun heap =>
      { s with heap := heap }

end Steps

/-- Other threads push new timers that expire after the time of a `tick` under
way, and refresh timers that have been pushed and not fired. -/
def Permits (s : TimerRace T) : Move T → Prop
  | .push timer => timer ∉ s.pushed ∧
      ∀ cur, s.pc.cur = some cur → cur < s.heap.expire timer
  | .refresh timer _ => timer ∈ s.pushed ∧ 0 ≤ s.heap.index timer
  | _ => True

/-- What `popTimer` took was each time the timer whose callback had run, and a
timer that has been pushed is in the heap or has fired. -/
structure Faithful (s : TimerRace T) : Prop where
  same : ∀ entry ∈ s.taken, entry.2 = some entry.1
  kept : (s.taken.map Prod.fst ++ s.heap.timers).Perm s.pushed

end TimerRace

/-- `setExpire` on a timer of the heap. -/
def TimerHeap.setExpire [DecidableEq T] (heap : TimerHeap T) (timer : T)
    (time : Int) : TimerHeap T :=
  { heap with expire := Function.update heap.expire timer time }

namespace TimerRace

/-- What an undisturbed run keeps: the timer that `tick` holds is on top. -/
structure Sound (s : TimerRace T) : Prop where
  filled : s.heap.Filled
  faithful : s.Faithful
  held : ∀ timer, s.pc.held = some timer →
    s.heap.nums ≠ 0 ∧ s.heap.slots 0 = some timer

theorem sound_init (capacity : Nat) (expire : T → Int) :
    (init capacity expire).Sound := by
  refine ⟨⟨Nat.zero_le _, ?_⟩, ⟨?_, List.Perm.refl _⟩, ?_⟩
  · intro i hi
    exact absurd hi (Nat.not_lt_zero i)
  · intro entry hentry
    cases hentry
  · intro timer hheld
    cases hheld

theorem Sound.goTo {s : TimerRace T} (hs : s.Sound) {pc : TickPc T}
    (hheld : ∀ timer, pc.held = some timer →
      s.heap.nums ≠ 0 ∧ s.heap.slots 0 = some timer) :
    ({ s with pc := pc } : TimerRace T).Sound :=
  ⟨hs.filled, ⟨hs.faithful.same, hs.faithful.kept⟩, hheld⟩

/-- What is pushed and what is taken tell what the heap holds. -/
theorem Faithful.timers_perm {s next : TimerRace T} (hs : s.Faithful)
    (hnext : next.Faithful) {gone : List (T × Option T)} {new : List T}
    (htaken : next.taken = s.taken ++ gone)
    (hpushed : next.pushed = s.pushed ++ new) :
    (gone.map Prod.fst ++ next.heap.timers).Perm
      (s.heap.timers ++ new) := by
  have hboth := hnext.kept
  rw [htaken, hpushed, List.map_append, List.append_assoc] at hboth
  have hall := hboth.trans (hs.kept.symm.append_right new)
  rw [List.append_assoc] at hall
  exact (List.perm_append_left_iff _).mp hall

theorem pcAfterTop_ne_popTimer (s : TimerRace T) (cur : Int)
    (top : Option T) (other : Int) (timer : T) :
    s.pcAfterTop cur top ≠ .popTimer other timer := by
  cases top with
  | none => simp [pcAfterTop]
  | some top =>
      rw [pcAfterTop]
      split <;> simp

section Moves

variable [DecidableEq T]

/-- A push finds room.  While `tick` holds a timer, a pushed timer meets on its
way to the top one that expires no later, and a refresh that sifts from the top
finds the children there in order. -/
def Undisturbed (s : TimerRace T) : Move T → Prop
  | .push timer => s.heap.nums + 1 ≤ s.heap.capacity ∧
      (s.pc.held.isSome → s.heap.nums < 2 ^ 31 ∧
        ∃ p, Above p s.heap.nums ∧ s.heap.key p ≤ s.heap.expire timer)
  | .refresh timer time => s.pc.held.isSome → s.heap.index timer = 0 →
      ∀ child, (child = 1 ∨ child = 2) → child < s.heap.nums →
        (s.heap.setExpire timer time).key 0 ≤
          (s.heap.setExpire timer time).key child
  | _ => True

variable {s : TimerRace T} {heap : TimerHeap T} {timer : T} {time : Int}

theorem step_push (hrun : s.heap.pushTimer (some timer) = some heap) :
    s.step (.push timer) = some { s with
      heap := heap
      pushed := s.pushed ++ [timer] } := by
  rw [step, hrun]
  rfl

theorem step_refresh (hrun : s.heap.refresh timer time = some heap) :
    s.step (.refresh timer time) = some { s with heap := heap } := by
  rw [step, hrun]
  rfl

theorem tick_popTimer {cur : Int} {top : Option T}
    (hpc : s.pc = .popTimer cur timer) (htop : s.heap.topTimer = some top)
    (hrun : s.heap.popTimer = some heap) :
    s.tick = some { s with
      heap := heap
      pc := .empty cur
      taken := s.taken ++ [(timer, top)] } := by
  rw [tick, hpc]
  simp only []
  rw [htop, Option.bind_some, hrun]
  rfl

theorem Sound.push (hs : s.Sound) (hcalm : s.Undisturbed (.push timer)) :
    ∃ heap, s.step (.push timer) = some { s with
        heap := heap
        pushed := s.pushed ++ [timer] } ∧
      ({ s with
        heap := heap
        pushed := s.pushed ++ [timer] } : TimerRace T).Sound := by
  obtain ⟨hroom, hgap⟩ := hcalm
  obtain ⟨heap, hrun, hfilled, htimers⟩ := hs.filled.push hroom timer
  refine ⟨_, step_push hrun, hfilled, ⟨hs.faithful.same, ?_⟩, ?_⟩
  · have hall := htimers.append_left (s.taken.map Prod.fst)
    rw [← List.append_assoc] at hall
    exact hall.trans (hs.faithful.kept.append_right [timer])
  · intro held hheld
    change s.pc.held = some held at hheld
    obtain ⟨hne, htop⟩ := hs.held held hheld
    obtain ⟨hint, p, habove, hle⟩ := hgap (by rw [hheld]; rfl)
    obtain ⟨slots, place, hsifted, hsift⟩ :=
      TimerHeap.pushTimer_sifts_of_lt hs.filled hroom hint timer
    rw [hrun] at hsifted
    cases hsifted
    have hroot : slots 0 = s.heap.pushed timer 0 := by
      apply hsift.root_of_above habove
      rw [TimerHeap.pushed_of_lt _ _ habove.lt, TimerHeap.pushed_last]
      exact hle
    refine ⟨Nat.succ_ne_zero _, ?_⟩
    change slots 0 = some held
    rw [hroot, TimerHeap.pushed_of_lt _ _ (Nat.pos_of_ne_zero hne), htop]

theorem Sound.refresh (hs : s.Sound)
    (hcalm : s.Undisturbed (.refresh timer time)) :
    ∃ heap, s.step (.refresh timer time) = some { s with heap := heap } ∧
      ({ s with heap := heap } : TimerRace T).Sound := by
  by_cases hindex : 0 ≤ s.heap.index timer
  · obtain ⟨i, hi⟩ := Int.eq_ofNat_of_zero_le hindex
    obtain ⟨slots, hrun, hsift⟩ :=
      TimerHeap.refresh_sifts hs.filled time hi
    refine ⟨_, step_refresh hrun, ?_, ⟨hs.faithful.same, ?_⟩, ?_⟩
    · exact hs.filled.of_mem hs.filled.nums_le fun slot hslot =>
        hsift.perm.mem_iff.mp hslot
    · exact ((hsift.perm.filterMap id).append_left _).trans hs.faithful.kept
    · intro held hheld
      obtain ⟨hne, htop⟩ := hs.held held hheld
      refine ⟨hne, ?_⟩
      change slots 0 = some held
      rw [← htop]
      -- Only a sift from the top can move what stands there.
      by_cases hzero : i = 0
      · subst hzero
        rw [hsift.eq_of_le]
        intro child hpos hchild hparent
        exact hcalm (by rw [show s.pc.held = some held from hheld]; rfl) hi
          child (by omega) hchild
      · exact hsift.frame (Nat.pos_of_ne_zero hzero)
  · exact ⟨s.heap, step_refresh (by rw [TimerHeap.refresh, if_neg hindex]),
      hs⟩

theorem Sound.popTimer (hs : s.Sound) {cur : Int}
    (hpc : s.pc = .popTimer cur timer) :
    ∃ heap, s.tick = some { s with
        heap := heap
        pc := .empty cur
        taken := s.taken ++ [(timer, some timer)] } ∧
      ({ s with
        heap := heap
        pc := .empty cur
        taken := s.taken ++ [(timer, some timer)] } : TimerRace T).Sound := by
  obtain ⟨hne, htop⟩ := hs.held timer (by rw [hpc]; rfl)
  obtain ⟨hlook, heap, hrun, hfilled, htimers⟩ := hs.filled.pop hne htop
  refine ⟨_, tick_popTimer hpc hlook hrun, hfilled, ⟨?_, ?_⟩, ?_⟩
  · intro entry hentry
    rcases List.mem_append.mp hentry with hold | hnew
    · exact hs.faithful.same entry hold
    · rw [List.mem_singleton.mp hnew]
  · have hall := htimers.append_left (s.taken.map Prod.fst)
    rw [List.append_cons] at hall
    change ((s.taken ++ [(timer, some timer)]).map Prod.fst ++ _).Perm _
    rw [List.map_append]
    exact hall.trans hs.faithful.kept
  · intro held hheld
    cases hheld

/-- `topTimer` either ends `tick` or gives it the timer on top. -/
theorem Sound.topTimer (hs : s.Sound) {cur : Int}
    (hpc : s.pc = .topTimer cur) :
    ∃ top, s.tick = some { s with pc := s.pcAfterTop cur top } ∧
      ({ s with pc := s.pcAfterTop cur top } : TimerRace T).Sound := by
  have hrun : ∀ top, s.heap.topTimer = some top →
      s.tick = some { s with pc := s.pcAfterTop cur top } := by
    intro top hlook
    rw [tick, hpc]
    simp only []
    rw [hlook]
    rfl
  by_cases hzero : s.heap.nums = 0
  · have hlook : s.heap.topTimer = some none := by
      rw [TimerHeap.topTimer, if_pos hzero]
    refine ⟨none, hrun none hlook, hs.goTo fun _ hheld => ?_⟩
    cases hheld
  · obtain ⟨top, htop, _⟩ := hs.filled.timerAt (i := 0) (by omega)
    have hlook := hs.filled.topTimer_eq hzero htop
    refine ⟨some top, hrun _ hlook, hs.goTo fun _ hheld => ?_⟩
    rw [pcAfterTop] at hheld
    split at hheld
    · cases hheld
    · cases hheld
      exact ⟨hzero, htop⟩

/-- A call of `tick` only moves it on, to `popTimer` after the callback, or it
is `popTimer` itself. -/
theorem Sound.tick_cases (hs : s.Sound) :
    (∃ pc, s.tick = some { s with pc := pc } ∧
      ({ s with pc := pc } : TimerRace T).Sound ∧
      (∀ cur timer, s.pc ≠ .popTimer cur timer) ∧
      ∀ cur timer, pc = .popTimer cur timer →
        s.pc = .callback cur timer) ∨
    ∃ cur timer heap, s.pc = .popTimer cur timer ∧
      s.tick = some { s with
        heap := heap
        pc := .empty cur
        taken := s.taken ++ [(timer, some timer)] } ∧
      ({ s with
        heap := heap
        pc := .empty cur
        taken := s.taken ++ [(timer, some timer)] } : TimerRace T).Sound := by
  cases hpc : s.pc with
  | idle =>
      have hrun : s.tick = some { s with pc := .idle } := by
        rw [tick, hpc]
        simp only []
        rw [← hpc]
      exact Or.inl ⟨_, hrun, hs.goTo (by simp [TickPc.held]), by simp,
        by simp⟩
  | empty cur =>
      have hrun : s.tick = some { s with
          pc := if s.heap.nums = 0 then .idle else .topTimer cur } := by
        rw [tick, hpc]
      refine Or.inl ⟨_, hrun, hs.goTo fun _ hheld => ?_, by simp, ?_⟩
      · split at hheld <;> cases hheld
      · intro other timer hnext
        split at hnext <;> cases hnext
  | topTimer cur =>
      obtain ⟨top, hrun, hsound⟩ := hs.topTimer hpc
      refine Or.inl ⟨_, hrun, hsound, by simp, ?_⟩
      intro other timer hnext
      exact absurd hnext (s.pcAfterTop_ne_popTimer cur top other timer)
  | callback cur timer =>
      have hrun : s.tick = some { s with pc := .popTimer cur timer } := by
        rw [tick, hpc]
      refine Or.inl ⟨_, hrun, hs.goTo fun held hheld => ?_, by simp, ?_⟩
      · refine hs.held held ?_
        rw [hpc]
        exact hheld
      · intro other timer hnext
        cases hnext
        rfl
  | popTimer cur timer =>
      obtain ⟨heap, hrun, hsound⟩ := hs.popTimer hpc
      exact Or.inr ⟨cur, timer, heap, rfl, hrun, hsound⟩

theorem Sound.tick (hs : s.Sound) :
    ∃ next, s.tick = some next ∧ next.Sound := by
  rcases hs.tick_cases with ⟨pc, hrun, hsound, _⟩ |
    ⟨cur, timer, heap, _, hrun, hsound⟩
  · exact ⟨_, hrun, hsound⟩
  · exact ⟨_, hrun, hsound⟩

theorem Sound.step (hs : s.Sound) {move : Move T}
    (hcalm : s.Undisturbed move) :
    ∃ next, s.step move = some next ∧ next.Sound := by
  cases move with
  | alarm cur =>
      rw [TimerRace.step]
      cases hpc : s.pc with
      | idle =>
          refine ⟨_, rfl, hs.goTo fun _ hheld => ?_⟩
          cases hheld
      | _ => exact ⟨s, rfl, hs⟩
  | tick => exact hs.tick
  | push timer =>
      obtain ⟨heap, hrun, hsound⟩ := hs.push hcalm
      exact ⟨_, hrun, hsound⟩
  | refresh timer time =>
      obtain ⟨heap, hrun, hsound⟩ := hs.refresh hcalm
      exact ⟨_, hrun, hsound⟩

/-- No call of `tick` on a filled heap goes wrong, whatever is on top. -/
theorem tick_filled (hfilled : s.heap.Filled) :
    ∃ next, s.tick = some next ∧ next.heap.Filled := by
  have hle := hfilled.nums_le
  rw [TimerRace.tick]
  cases hpc : s.pc with
  | idle => exact ⟨s, rfl, hfilled⟩
  | empty cur => exact ⟨_, rfl, hfilled⟩
  | callback cur timer => exact ⟨_, rfl, hfilled⟩
  | topTimer cur =>
      simp only []
      rw [TimerHeap.topTimer]
      split
      · exact ⟨_, rfl, hfilled⟩
      · rw [if_pos (by omega)]
        exact ⟨_, rfl, hfilled⟩
  | popTimer cur timer =>
      simp only []
      by_cases hzero : s.heap.nums = 0
      · rw [TimerHeap.topTimer, if_pos hzero, Option.bind_some,
          TimerHeap.popTimer, if_pos hzero]
        exact ⟨_, rfl, hfilled⟩
      · obtain ⟨top, htop, _⟩ := hfilled.timerAt (i := 0) (by omega)
        obtain ⟨hlook, heap, hrun, hnext, _⟩ := hfilled.pop hzero htop
        rw [hlook, Option.bind_some, hrun]
        exact ⟨_, rfl, hnext⟩

/-- In a run whose moves leave the timer that `tick` holds on top, `popTimer`
takes the timer whose callback has run, and none leaves without having
fired. -/
theorem tick_takes_fired (capacity : Nat) (expire : T → Int)
    (moves : List (Move T))
    (hcalm : Along TimerRace.step Undisturbed (init capacity expire) moves) :
    Always TimerRace.step Faithful (init capacity expire) moves :=
  (Always.of_along (fun _ _ hs hcalm => Sound.step hs hcalm)
    (sound_init capacity expire) hcalm).mono fun _ hs => hs.faithful

end Moves

/-- The first of two timers, the one that expires first, has been pushed. -/
def onePushed : TimerHeap Bool :=
  ⟨Function.update (fun _ => none) 0 (some true), 2, 1, TimerHeap.earlier,
    Function.update (fun _ => -1) true 0⟩

def bothPushed : TimerHeap Bool :=
  ⟨Function.update onePushed.slots 1 (some false), 2, 2, TimerHeap.earlier,
    Function.update onePushed.index false 1⟩

/-- A read on the connection of the first timer has put it off. -/
def firstPutOff : TimerHeap Bool :=
  { bothPushed with
    slots := swapAt bothPushed.slots 0 1
    expire := Function.update TimerHeap.earlier true 3 }

theorem pushTimer_onePushed :
    (TimerHeap.init 2 TimerHeap.earlier).pushTimer (some true) =
      some onePushed := by
  have hcount : asInt 0 = 0 := by decide
  simp [TimerHeap.init, TimerHeap.pushTimer, TimerHeap.siftUp, hcount,
    onePushed]

theorem pushTimer_bothPushed :
    onePushed.pushTimer (some false) = some bothPushed := by
  have hcount : asInt 1 = 1 := by decide
  simp only [TimerHeap.pushTimer, onePushed, Nat.cast_one, hcount]
  rw [TimerHeap.siftUp]
  simp [TimerHeap.timerAt, TimerHeap.earlier, bothPushed, onePushed]

theorem refresh_firstPutOff :
    bothPushed.refresh true 3 = some firstPutOff := by
  simp only [TimerHeap.refresh, bothPushed, onePushed]
  -- The timer sinks below the other one and stays there.
  rw [TimerHeap.down]
  simp [TimerHeap.childOf, TimerHeap.timerAt, TimerHeap.earlier,
    TimerHeap.swap]
  rw [TimerHeap.down]
  simp [TimerHeap.childOf, firstPutOff, bothPushed, onePushed]

theorem popTimer_firstPutOff :
    ∃ heap, firstPutOff.popTimer = some heap := by
  have hfilled : firstPutOff.Filled := ⟨by decide, by decide⟩
  have htop : firstPutOff.slots 0 = some false := rfl
  obtain ⟨_, heap, hrun, _⟩ := hfilled.pop (by decide) htop
  exact ⟨heap, hrun⟩

theorem tick_takes_fired_pushing :
    Along step Undisturbed (init 2 TimerHeap.earlier)
        [.push true, .alarm 1, .tick, .tick, .push false, .tick, .tick] ∧
      Always step Faithful (init 2 TimerHeap.earlier)
        [.push true, .alarm 1, .tick, .tick, .push false, .tick, .tick] := by
  have hfirst : (init 2 TimerHeap.earlier).step (.push true) =
      some ⟨onePushed, .idle, [true], []⟩ :=
    step_push pushTimer_onePushed
  have hcalm : Along step Undisturbed (init 2 TimerHeap.earlier)
      [.push true, .alarm 1, .tick, .tick, .push false, .tick, .tick] := by
    refine .cons ⟨by decide, by simp [init, TickPc.held]⟩ hfirst ?_
    refine .cons trivial rfl (.cons trivial rfl (.cons trivial rfl ?_))
    have habove : Above 0 1 := Above.parent (h := 1) Nat.one_pos
    refine ⟨⟨by decide, fun _ => ⟨by decide, 0, habove, by decide⟩⟩, ?_⟩
    exact fun _ _ => ⟨trivial, fun _ _ => ⟨trivial, fun _ _ => trivial⟩⟩
  exact ⟨hcalm, tick_takes_fired 2 TimerHeap.earlier _ hcalm⟩

/-- Between its `topTimer` and its `popTimer` a refresh moves the timer that
`tick` has looked at: the callback of the first timer runs, and the second is
taken away. -/
theorem tick_takes_other :
    Along step Permits (init 2 TimerHeap.earlier)
        [.push true, .push false, .alarm 1, .tick, .tick, .refresh true 3,
          .tick, .tick] ∧
      ¬ Always step Faithful (init 2 TimerHeap.earlier)
        [.push true, .push false, .alarm 1, .tick, .tick, .refresh true 3,
          .tick, .tick] := by
  obtain ⟨heap, hpop⟩ := popTimer_firstPutOff
  have hfirst : (init 2 TimerHeap.earlier).step (.push true) =
      some ⟨onePushed, .idle, [true], []⟩ :=
    step_push pushTimer_onePushed
  have hsecond : step ⟨onePushed, .idle, [true], []⟩ (.push false) =
      some ⟨bothPushed, .idle, [true, false], []⟩ :=
    step_push pushTimer_bothPushed
  have hrefresh : step ⟨bothPushed, .callback 1 true, [true, false], []⟩
      (.refresh true 3) =
        some ⟨firstPutOff, .callback 1 true, [true, false], []⟩ :=
    step_refresh refresh_firstPutOff
  have htake : tick ⟨firstPutOff, .popTimer 1 true, [true, false], []⟩ =
      some ⟨heap, .empty 1, [true, false], [(true, some false)]⟩ :=
    tick_popTimer (s := ⟨_, _, _, _⟩) rfl rfl hpop
  constructor
  · refine .cons ⟨by simp [init], by simp [init, TickPc.cur]⟩ hfirst ?_
    refine .cons ⟨by simp, by simp [TickPc.cur]⟩ hsecond ?_
    refine .cons trivial rfl (.cons trivial rfl (.cons trivial rfl ?_))
    refine .cons ⟨by simp, by decide⟩ hrefresh ?_
    exact .cons trivial rfl (.cons trivial htake trivial)
  · intro halways
    obtain ⟨final, hrun, hfaithful⟩ := halways.final
    have hend : run step (init 2 TimerHeap.earlier)
        [.push true, .push false, .alarm 1, .tick, .tick, .refresh true 3,
          .tick, .tick] =
        some ⟨heap, .empty 1, [true, false], [(true, some false)]⟩ := by
      rw [run_cons, hfirst, Option.bind_some, run_cons, hsecond]
      change run step ⟨bothPushed, .callback 1 true, [true, false], []⟩
        [.refresh true 3, .tick, .tick] = _
      rw [run_cons, hrefresh]
      change (tick ⟨firstPutOff, .popTimer 1 true, [true, false], []⟩).bind
        _ = _
      rw [htake]
      rfl
    rw [hend] at hrun
    cases hrun
    have hsame := hfaithful.same (true, some false) List.mem_cons_self
    cases hsame

end TimerRace

end Sone

end LinuxTest
