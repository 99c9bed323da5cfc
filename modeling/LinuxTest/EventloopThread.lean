/-
The start of the loop threads.  `Thread`'s constructor waits for a semaphore
that the new thread posts, also where `pthread_create` has failed and there is
no new thread; `eventloopThread::start` then waits on a condition until the
thread has published its loop; `eventloopThreadPool::start` does this for one
thread after another.
-/
import Mathlib.Algebra.BigOperators.Group.Finset.Basic
import Mathlib.Data.List.GetD
import LinuxTest.Runs

namespace LinuxTest

namespace Sone

universe u

/-- Where the starting thread is, from `pthread_create` to the return of
`start`.  Behind the loop it carries the pointer it has read. -/
inductive StartPc (P : Type u) where
  | create
  | semWait
  | lock
  | check
  | asleep
  | woken
  | unlock (l : Option P)
  | returned (l : Option P)

/-- Where the new thread is: in `Thread::run`, then in `threadfunc`. -/
inductive WorkPc where
  | absent
  | setup
  | post
  | construct
  | lock
  | publish
  | notify
  | unlock
  | looping
deriving DecidableEq

inductive Party where
  | starter
  | worker
deriving DecidableEq

/-- The two threads, the owner of `_mutex`, the count of `m_sem`, the member
`_loop`, and whether the new thread has set its id and name. -/
structure EventloopThread (P : Type u) where
  start : StartPc P
  work : WorkPc
  owner : Option Party
  m_sem : Nat
  loop : Option P
  named : Bool

namespace EventloopThread

variable {P : Type u}

/-- The constructor leaves `_loop` as the memory was. -/
def new (garbage : Option P) : EventloopThread P :=
  ⟨.create, .absent, none, 0, garbage, false⟩

/-- A step of the starting thread, which may have to wait. -/
def starterStep (t : EventloopThread P) : Option (EventloopThread P) :=
  match t.start with
  | .create => some { t with start := .semWait, work := .setup }
  | .semWait =>
      if t.m_sem = 0 then none
      else some { t with start := .lock, m_sem := t.m_sem - 1 }
  | .lock =>
      if t.owner = none then
        some { t with start := .check, owner := some .starter }
      else none
  | .check =>
      match t.loop with
      | none => some { t with start := .asleep, owner := none }
      | some l => some { t with start := .unlock (some l) }
  | .asleep => none
  | .woken =>
      if t.owner = none then
        some { t with start := .check, owner := some .starter }
      else none
  | .unlock l => some { t with start := .returned l, owner := none }
  | .returned _ => none

/-- `pthread_create` fails: the constructor goes on to wait all the same. -/
def createFails (t : EventloopThread P) : Option (EventloopThread P) :=
  match t.start with
  | .create => some { t with start := .semWait }
  | _ => none

/-- A sleeper goes on to take the mutex back. -/
def wake (t : EventloopThread P) : EventloopThread P :=
  match t.start with
  | .asleep => { t with start := .woken }
  | _ => t

/-- A step of the new thread, whose loop is at `addr`. -/
def workerStep (addr : P) (t : EventloopThread P) :
    Option (EventloopThread P) :=
  match t.work with
  | .absent => none
  | .setup => some { t with work := .post, named := true }
  | .post => some { t with work := .construct, m_sem := t.m_sem + 1 }
  | .construct => some { t with work := .lock }
  | .lock =>
      if t.owner = none then
        some { t with work := .publish, owner := some .worker }
      else none
  | .publish => some { t with work := .notify, loop := some addr }
  | .notify => some { t.wake with work := .unlock }
  | .unlock => some { t with work := .looping, owner := none }
  | .looping => none

/-! ### One thread -/

/-- How far the new thread is: it has its id and name from 2 on, has posted from
3 on and published its loop from 6 on. -/
@[grind] def age : WorkPc → Nat
  | .absent => 0
  | .setup => 1
  | .post => 2
  | .construct => 3
  | .lock => 4
  | .publish => 5
  | .notify => 6
  | .unlock => 7
  | .looping => 8

/-- The starting thread is inside the mutex. -/
@[grind] def holds : StartPc P → Prop
  | .check => True
  | .unlock _ => True
  | _ => False

/-- The starting thread is behind the constructor of `Thread`. -/
@[grind] def constructed : StartPc P → Prop
  | .create => False
  | .semWait => False
  | _ => True

/-- The pointer the starting thread has read. -/
@[grind] def read : StartPc P → Option (Option P)
  | .unlock l => some l
  | .returned l => some l
  | _ => none

/-- What holds of the two threads if `_loop` was null at first.  A sleeping
starter has its wake-up before it. -/
structure Sound (addr : P) (t : EventloopThread P) : Prop where
  created : t.start = .create → t.work = .absent
  loop : t.loop = if 6 ≤ age t.work then some addr else none
  starter : t.owner = some .starter ↔ holds t.start
  worker : t.owner = some .worker ↔ 5 ≤ age t.work ∧ age t.work ≤ 7
  posted : constructed t.start → 3 ≤ age t.work
  sem : t.m_sem ≤ 1 ∧ (t.m_sem = 1 ↔ 3 ≤ age t.work ∧ t.start = .semWait)
  awake : t.start = .asleep → age t.work ≤ 6
  read : ∀ l, read t.start = some l → l = some addr ∧ 6 ≤ age t.work
  named : t.named = true ↔ 2 ≤ age t.work

variable {t next : EventloopThread P} {addr : P}

theorem sound_new : (new none : EventloopThread P).Sound addr := by
  constructor <;> grind [new]

theorem Sound.starterStep (ht : t.Sound addr)
    (hnext : t.starterStep = some next) : next.Sound addr := by
  obtain ⟨start, work, owner, m_sem, loop, named⟩ := t
  obtain ⟨hcreated, hloop, hstarter, hworker, hposted, hsem, hawake, hread,
    hnamed⟩ := ht
  cases start with
  | create =>
      cases hnext
      constructor <;> grind
  | semWait =>
      simp only [EventloopThread.starterStep] at hnext
      split at hnext <;> cases hnext
      constructor <;> grind
  | lock =>
      simp only [EventloopThread.starterStep] at hnext
      split at hnext <;> cases hnext
      constructor <;> grind
  | check =>
      -- The starter holds the mutex: the loop is null or published.
      simp only [EventloopThread.starterStep] at hnext
      split at hnext <;> cases hnext
      · constructor <;> grind
      · constructor <;> grind
  | asleep => cases hnext
  | woken =>
      simp only [EventloopThread.starterStep] at hnext
      split at hnext <;> cases hnext
      constructor <;> grind
  | unlock l =>
      cases hnext
      constructor <;> grind
  | returned l => cases hnext

theorem Sound.createFails (ht : t.Sound addr)
    (hnext : t.createFails = some next) : next.Sound addr := by
  obtain ⟨start, work, owner, m_sem, loop, named⟩ := t
  obtain ⟨hcreated, hloop, hstarter, hworker, hposted, hsem, hawake, hread,
    hnamed⟩ := ht
  simp only [EventloopThread.createFails] at hnext
  split at hnext <;> cases hnext
  constructor <;> grind

theorem Sound.wake (ht : t.Sound addr) : t.wake.Sound addr := by
  obtain ⟨start, work, owner, m_sem, loop, named⟩ := t
  obtain ⟨hcreated, hloop, hstarter, hworker, hposted, hsem, hawake, hread,
    hnamed⟩ := ht
  rw [EventloopThread.wake]
  split
  · constructor <;> grind
  · exact ⟨hcreated, hloop, hstarter, hworker, hposted, hsem, hawake, hread,
      hnamed⟩

theorem wake_work (t : EventloopThread P) : t.wake.work = t.work := by
  rw [EventloopThread.wake]
  split <;> rfl

theorem wake_start_ne (t : EventloopThread P) : t.wake.start ≠ .asleep := by
  rw [EventloopThread.wake]
  split
  · simp
  · case h_2 hne => exact hne

theorem Sound.workerStep (ht : t.Sound addr)
    (hnext : t.workerStep addr = some next) : next.Sound addr := by
  cases hwork : t.work with
  | notify =>
      have hawake := wake_start_ne t
      have hwoken := ht.wake
      have hkept : t.wake.work = .notify := (wake_work t).trans hwork
      simp only [EventloopThread.workerStep, hwork] at hnext
      cases hnext
      obtain ⟨hcreated, hloop, hstarter, hworker, hposted, hsem, _, hread,
        hnamed⟩ := hwoken
      constructor <;> grind
  | absent =>
      simp only [EventloopThread.workerStep, hwork] at hnext
      cases hnext
  | looping =>
      simp only [EventloopThread.workerStep, hwork] at hnext
      cases hnext
  | lock =>
      obtain ⟨hcreated, hloop, hstarter, hworker, hposted, hsem, hawake, hread,
        hnamed⟩ := ht
      simp only [EventloopThread.workerStep, hwork] at hnext
      split at hnext <;> cases hnext
      constructor <;> grind
  | setup | post | construct | publish | unlock =>
      obtain ⟨hcreated, hloop, hstarter, hworker, hposted, hsem, hawake, hread,
        hnamed⟩ := ht
      simp only [EventloopThread.workerStep, hwork] at hnext
      cases hnext
      constructor <;> grind

theorem wake_returned {l : Option P} (hstart : t.start = .returned l) :
    t.wake.start = .returned l := by
  rw [EventloopThread.wake, hstart]
  exact hstart

/-- The new thread leaves a `start` that has returned as it is. -/
theorem workerStep_returned {l : Option P} (hstart : t.start = .returned l)
    (hnext : t.workerStep addr = some next) : next.start = .returned l := by
  cases hwork : t.work with
  | notify =>
      simp only [EventloopThread.workerStep, hwork] at hnext
      cases hnext
      exact wake_returned hstart
  | lock =>
      simp only [EventloopThread.workerStep, hwork] at hnext
      split at hnext <;> cases hnext
      exact hstart
  | absent | looping =>
      simp only [EventloopThread.workerStep, hwork] at hnext
      cases hnext
  | setup | post | construct | publish | unlock =>
      simp only [EventloopThread.workerStep, hwork] at hnext
      cases hnext
      exact hstart

/-- The starting thread waits for a thread that was not created. -/
def Lost (t : EventloopThread P) : Prop :=
  t.start = .semWait ∧ t.work = .absent

theorem starterStep_not_lost (hnext : t.starterStep = some next) :
    ¬next.Lost := by
  obtain ⟨start, work, owner, m_sem, loop, named⟩ := t
  cases start with
  | create | unlock l =>
      cases hnext
      simp [Lost]
  | asleep | returned l => cases hnext
  | semWait | lock | check | woken =>
      simp only [EventloopThread.starterStep] at hnext
      split at hnext <;> cases hnext <;> simp [Lost]

theorem wake_lost (t : EventloopThread P) : t.wake.Lost ↔ t.Lost := by
  rw [EventloopThread.wake]
  split
  · case h_1 hasleep => simp [Lost, hasleep]
  · exact Iff.rfl

theorem workerStep_not_lost (hnext : t.workerStep addr = some next) :
    ¬next.Lost := by
  intro hlost
  have habsent : next.work = .absent := hlost.2
  cases hwork : t.work with
  | notify | setup | post | construct | publish | unlock =>
      simp only [EventloopThread.workerStep, hwork] at hnext
      cases hnext
      cases habsent
  | lock =>
      simp only [EventloopThread.workerStep, hwork] at hnext
      split at hnext <;> cases hnext
      cases habsent
  | absent | looping =>
      simp only [EventloopThread.workerStep, hwork] at hnext
      cases hnext

/-- How many steps the starting thread has before it at most, if it is not woken
for no reason. -/
@[grind] def rank : StartPc P → Nat
  | .create => 7
  | .semWait => 6
  | .lock => 5
  | .woken => 5
  | .check => 4
  | .unlock _ => 2
  | .asleep => 1
  | .returned _ => 0

end EventloopThread

/-- A step of one of the threads, a `pthread_create` that fails, a wake-up for
no reason, or the return of `start` to the pool. -/
inductive PoolStep where
  | starter
  | createFails
  | worker (i : Nat)
  | spurious (i : Nat)
  | push
deriving DecidableEq

/-- `_threads` and `_loops`. -/
structure EventloopThreadPool (P : Type u) where
  threads : Nat → EventloopThread P
  loops : List (Option P)

namespace EventloopThreadPool

variable {P : Type u}

def init (garbage : Nat → Option P) : EventloopThreadPool P :=
  ⟨fun i => .new (garbage i), []⟩

def setThread (s : EventloopThreadPool P) (i : Nat) (t : EventloopThread P) :
    EventloopThreadPool P :=
  { s with threads := Function.update s.threads i t }

/-- The thread being started is the one after those whose loops are there. -/
def step (threadNums : Nat) (addr : Nat → P) (s : EventloopThreadPool P) :
    PoolStep → Option (EventloopThreadPool P)
  | .starter =>
      if s.loops.length < threadNums then
        ((s.threads s.loops.length).starterStep).map
          (s.setThread s.loops.length)
      else none
  | .createFails =>
      if s.loops.length < threadNums then
        ((s.threads s.loops.length).createFails).map
          (s.setThread s.loops.length)
      else none
  | .worker i => ((s.threads i).workerStep (addr i)).map (s.setThread i)
  | .spurious i => some (s.setThread i (s.threads i).wake)
  | .push =>
      if s.loops.length < threadNums then
        match (s.threads s.loops.length).start with
        | .returned l => some { s with loops := s.loops ++ [l] }
        | _ => none
      else none

/-- `getLoop`, `none` for a null pointer. -/
def getLoop (threadNums : Nat) (s : EventloopThreadPool P) (fd : Nat) :
    Option P :=
  if s.loops.isEmpty then none else s.loops.getD (fd % threadNums) none

/-! ### The pool -/

variable {threadNums : Nat} {addr : Nat → P} {garbage : Nat → Option P}
  {s next : EventloopThreadPool P}

/-- Every loop handed out is the one its thread has published; once all threads
are started, each descriptor has the loop of its remainder. -/
structure Started (threadNums : Nat) (addr : Nat → P)
    (s : EventloopThreadPool P) : Prop where
  loops : s.loops = (List.range s.loops.length).map fun i => some (addr i)
  published : ∀ i < s.loops.length,
    6 ≤ EventloopThread.age (s.threads i).work ∧ (s.threads i).named = true
  getLoop : s.loops.length = threadNums → 0 < threadNums → ∀ fd,
    s.getLoop threadNums fd = some (addr (fd % threadNums))

theorem getLoop_eq (hloops : s.loops = (List.range s.loops.length).map
      fun i => some (addr i)) (hall : s.loops.length = threadNums)
    (hpos : 0 < threadNums) (fd : Nat) :
    s.getLoop threadNums fd = some (addr (fd % threadNums)) := by
  have hlt : fd % threadNums < threadNums := Nat.mod_lt fd hpos
  rw [hall] at hloops
  have hsome : s.loops.isEmpty = false := by
    rw [hloops, List.isEmpty_eq_false_iff]
    simp [Nat.pos_iff_ne_zero.mp hpos]
  rw [getLoop, hsome, hloops]
  simp [List.getD, hlt]

/-- What holds of the pool if each `_loop` was null at first. -/
structure Good (threadNums : Nat) (addr : Nat → P)
    (s : EventloopThreadPool P) : Prop where
  bound : s.loops.length ≤ threadNums
  loops : s.loops = (List.range s.loops.length).map fun i => some (addr i)
  sound : ∀ i < threadNums, (s.threads i).Sound (addr i)
  returned : ∀ i < s.loops.length,
    (s.threads i).start = .returned (some (addr i))
  outside : ∀ i, threadNums ≤ i → (s.threads i).work = .absent

theorem good_init (addr : Nat → P)
    (hnull : ∀ i < threadNums, garbage i = none) :
    (init garbage).Good threadNums addr := by
  refine ⟨Nat.zero_le threadNums, rfl, ?_, ?_, fun i _ => rfl⟩
  · intro i hi
    change (EventloopThread.new (garbage i)).Sound (addr i)
    rw [hnull i hi]
    exact EventloopThread.sound_new
  · intro i hi
    exact absurd hi (Nat.not_lt_zero i)

theorem Good.started (hs : s.Good threadNums addr) :
    s.Started threadNums addr := by
  refine ⟨hs.loops, ?_, getLoop_eq hs.loops⟩
  intro i hi
  have hsound := hs.sound i (hi.trans_le hs.bound)
  have hread : EventloopThread.read (s.threads i).start =
      some (some (addr i)) := by
    rw [hs.returned i hi, EventloopThread.read]
  have hage := (hsound.read (some (addr i)) hread).2
  exact ⟨hage, hsound.named.mpr (by omega)⟩

/-- A thread before `threadNums` goes on, and a `start` that has returned stays
so. -/
theorem Good.setThread (hs : s.Good threadNums addr) {i : Nat}
    {t : EventloopThread P} (hi : i < threadNums) (ht : t.Sound (addr i))
    (hreturned : i < s.loops.length → t.start = (s.threads i).start) :
    (s.setThread i t).Good threadNums addr := by
  refine ⟨hs.bound, hs.loops, ?_, ?_, ?_⟩
  · intro j hj
    by_cases hij : j = i
    · subst hij
      simpa [EventloopThreadPool.setThread] using ht
    · simpa [EventloopThreadPool.setThread, hij] using hs.sound j hj
  · intro j hj
    by_cases hij : j = i
    · subst hij
      have hsame := (hreturned hj).trans (hs.returned j hj)
      simpa [EventloopThreadPool.setThread] using hsame
    · simpa [EventloopThreadPool.setThread, hij] using hs.returned j hj
  · intro j hj
    have hij : j ≠ i := fun heq => absurd hj (by omega)
    simpa [EventloopThreadPool.setThread, hij] using hs.outside j hj

/-- The thread being started returns its loop to the pool. -/
theorem Good.push (hs : s.Good threadNums addr) {l : Option P}
    (hlt : s.loops.length < threadNums)
    (hstart : (s.threads s.loops.length).start = .returned l) :
    ({ s with loops := s.loops ++ [l] } : EventloopThreadPool P).Good
      threadNums addr := by
  have hsound := hs.sound s.loops.length hlt
  have hl : l = some (addr s.loops.length) := by
    refine (hsound.read l ?_).1
    rw [hstart, EventloopThread.read]
  have hlength : (s.loops ++ [l]).length = s.loops.length + 1 := by simp
  refine ⟨?_, ?_, hs.sound, ?_, hs.outside⟩
  · change (s.loops ++ [l]).length ≤ threadNums
    omega
  · change s.loops ++ [l] = _
    rw [hlength, List.range_succ, List.map_append, ← hs.loops, hl]
    rfl
  · intro i hi
    change i < (s.loops ++ [l]).length at hi
    by_cases hlast : i = s.loops.length
    · rw [hlast, ← hl]
      exact hstart
    · exact hs.returned i (by omega)

/-- What a step does, with what has let it be taken. -/
inductive Stepped (threadNums : Nat) (addr : Nat → P)
    (s : EventloopThreadPool P) : PoolStep → EventloopThreadPool P → Prop where
  | starter {t : EventloopThread P} (hlt : s.loops.length < threadNums)
      (ht : (s.threads s.loops.length).starterStep = some t) :
      Stepped threadNums addr s .starter (s.setThread s.loops.length t)
  | createFails {t : EventloopThread P} (hlt : s.loops.length < threadNums)
      (ht : (s.threads s.loops.length).createFails = some t) :
      Stepped threadNums addr s .createFails (s.setThread s.loops.length t)
  | worker {i : Nat} {t : EventloopThread P}
      (ht : (s.threads i).workerStep (addr i) = some t) :
      Stepped threadNums addr s (.worker i) (s.setThread i t)
  | spurious (i : Nat) :
      Stepped threadNums addr s (.spurious i)
        (s.setThread i (s.threads i).wake)
  | push {l : Option P} (hlt : s.loops.length < threadNums)
      (hstart : (s.threads s.loops.length).start = .returned l) :
      Stepped threadNums addr s .push { s with loops := s.loops ++ [l] }

theorem stepped {label : PoolStep}
    (hnext : s.step threadNums addr label = some next) :
    Stepped threadNums addr s label next := by
  cases label with
  | starter =>
      simp only [step] at hnext
      split at hnext
      · case isTrue hlt =>
          obtain ⟨t, ht, rfl⟩ := Option.map_eq_some_iff.mp hnext
          exact .starter hlt ht
      · cases hnext
  | createFails =>
      simp only [step] at hnext
      split at hnext
      · case isTrue hlt =>
          obtain ⟨t, ht, rfl⟩ := Option.map_eq_some_iff.mp hnext
          exact .createFails hlt ht
      · cases hnext
  | worker i =>
      obtain ⟨t, ht, rfl⟩ := Option.map_eq_some_iff.mp hnext
      exact .worker ht
  | spurious i =>
      cases hnext
      exact .spurious i
  | push =>
      simp only [step] at hnext
      split at hnext
      · case isTrue hlt =>
          split at hnext
          · case h_1 l hstart =>
              cases hnext
              exact .push hlt hstart
          · cases hnext
      · cases hnext

/-- Only the threads of the pool go on. -/
theorem Good.lt_of_workerStep (hs : s.Good threadNums addr) {i : Nat}
    {t : EventloopThread P}
    (ht : (s.threads i).workerStep (addr i) = some t) : i < threadNums := by
  by_contra hge
  have habsent := hs.outside i (Nat.le_of_not_lt hge)
  simp [EventloopThread.workerStep, habsent] at ht

theorem Good.step (hs : s.Good threadNums addr) {label : PoolStep}
    (hnext : s.step threadNums addr label = some next) :
    next.Good threadNums addr := by
  cases stepped hnext with
  | starter hlt ht =>
      exact hs.setThread hlt ((hs.sound _ hlt).starterStep ht)
        fun h => absurd h (lt_irrefl _)
  | createFails hlt ht =>
      exact hs.setThread hlt ((hs.sound _ hlt).createFails ht)
        fun h => absurd h (lt_irrefl _)
  | @worker i t ht =>
      have hi : i < threadNums := hs.lt_of_workerStep ht
      refine hs.setThread hi ((hs.sound i hi).workerStep ht) ?_
      intro hbefore
      have hstart := hs.returned i hbefore
      rw [hstart]
      exact EventloopThread.workerStep_returned hstart ht
  | spurious i =>
      by_cases hi : i < threadNums
      · refine hs.setThread hi (hs.sound i hi).wake ?_
        intro hbefore
        have hstart := hs.returned i hbefore
        rw [hstart]
        exact EventloopThread.wake_returned hstart
      · refine ⟨hs.bound, hs.loops, ?_, ?_, ?_⟩
        · intro j hj
          have hij : j ≠ i := fun heq => hi (heq ▸ hj)
          simpa [EventloopThreadPool.setThread, hij] using hs.sound j hj
        · intro j hj
          have hij : j ≠ i := fun heq => hi (heq ▸ hj.trans_le hs.bound)
          simpa [EventloopThreadPool.setThread, hij] using hs.returned j hj
        · intro j hj
          by_cases hij : j = i
          · subst hij
            have habsent := hs.outside j hj
            simpa [EventloopThreadPool.setThread,
              EventloopThread.wake_work] using habsent
          · simpa [EventloopThreadPool.setThread, hij] using hs.outside j hj
  | push hlt hstart => exact hs.push hlt hstart

theorem good_run (hnull : ∀ i < threadNums, garbage i = none)
    {labels : List PoolStep}
    (hrun : run (step threadNums addr) (init garbage) labels = some s) :
    s.Good threadNums addr :=
  run_invariant (fun _ _ _ hs hnext => hs.step hnext) (good_init addr hnull)
    hrun

/-! ### What the memory held before -/

/-- A loop that was null at first is waited for. -/
theorem exists_run_null (addr : Nat → P)
    (hlt : s.loops.length < threadNums)
    (hnew : s.threads s.loops.length = .new none) :
    ∃ labels next, run (step threadNums addr) s labels = some next ∧
      next.loops.length = s.loops.length + 1 ∧
      ∀ i, s.loops.length < i → next.threads i = s.threads i := by
  obtain ⟨threads, loops⟩ := s
  have hthread : threads loops.length = .new none := hnew
  have hlength : loops.length < threadNums := hlt
  let work : PoolStep := .worker loops.length
  let t : EventloopThread P :=
    ⟨.returned (some (addr loops.length)), .looping, none, 0,
      some (addr loops.length), true⟩
  refine ⟨[.starter, work, work, .starter, work, work, work, work, work,
    .starter, .starter, .starter, .push],
    ⟨Function.update threads loops.length t,
      loops ++ [some (addr loops.length)]⟩, ?_, by simp, ?_⟩
  · simp [work, t, run_cons, step, setThread, hthread, hlength,
      EventloopThread.new, EventloopThread.starterStep,
      EventloopThread.workerStep, EventloopThread.wake]
  · intro i hi
    have hne : i ≠ loops.length := Nat.ne_of_gt hi
    simp [hne]

/-- A loop that was not null at first is handed out as it is, before its thread
has one. -/
theorem exists_run_garbage (addr : Nat → P) {l : P}
    (hlt : s.loops.length < threadNums)
    (hnew : s.threads s.loops.length = .new (some l)) :
    ∃ labels next, run (step threadNums addr) s labels = some next ∧
      next.loops.length = s.loops.length + 1 ∧
      (next.threads s.loops.length).work = .construct := by
  obtain ⟨threads, loops⟩ := s
  have hthread : threads loops.length = .new (some l) := hnew
  have hlength : loops.length < threadNums := hlt
  let work : PoolStep := .worker loops.length
  let t : EventloopThread P :=
    ⟨.returned (some l), .construct, none, 0, some l, true⟩
  refine ⟨[.starter, work, work, .starter, .starter, .starter, .starter,
    .push], ⟨Function.update threads loops.length t, loops ++ [some l]⟩, ?_,
    by simp, by simp [t]⟩
  simp [work, t, run_cons, step, setThread, hthread, hlength,
    EventloopThread.new, EventloopThread.starterStep,
    EventloopThread.workerStep]

/-- The threads are started one after another as long as their loops were
null. -/
theorem exists_run_upto (addr : Nat → P) {k : Nat} (hk : k ≤ threadNums)
    (hnull : ∀ i < k, garbage i = none) :
    ∃ labels s, run (step threadNums addr) (init garbage) labels = some s ∧
      s.loops.length = k ∧ ∀ i, k ≤ i → s.threads i = .new (garbage i) := by
  induction k with
  | zero => exact ⟨[], init garbage, rfl, rfl, fun i _ => rfl⟩
  | succ k ih =>
      have hbefore : ∀ i < k, garbage i = none := fun i hi =>
        hnull i (Nat.lt_succ_of_lt hi)
      obtain ⟨first, s, hfirst, hlength, hrest⟩ :=
        ih (Nat.le_of_succ_le hk) hbefore
      have hnew : s.threads s.loops.length = .new none := by
        rw [hlength, hrest k (le_refl k), hnull k (Nat.lt_succ_self k)]
      obtain ⟨last, next, hlast, hnext, hkept⟩ :=
        exists_run_null addr (hlength ▸ hk) hnew
      refine ⟨first ++ last, next, ?_, by omega, ?_⟩
      · rw [run_append, hfirst]
        exact hlast
      · intro i hi
        rw [hkept i (by omega)]
        exact hrest i (by omega)

/-- The pool hands out published loops only, however its threads are
interleaved, exactly when each `_loop`, which no constructor sets, was null. -/
theorem started_iff (threadNums : Nat) (addr : Nat → P)
    (garbage : Nat → Option P) :
    (∀ labels s, run (step threadNums addr) (init garbage) labels = some s →
      s.Started threadNums addr) ↔ ∀ i < threadNums, garbage i = none := by
  constructor
  · intro hstarted i
    -- The first loop that was not null is the one handed out.
    induction i using Nat.strong_induction_on with
    | h i ih =>
        intro hi
        by_contra hsome
        obtain ⟨l, hl⟩ := Option.ne_none_iff_exists'.mp hsome
        obtain ⟨first, s, hfirst, hlength, hrest⟩ := exists_run_upto addr
          (le_of_lt hi) fun j hj => ih j hj (hj.trans hi)
        have hnew : s.threads s.loops.length = .new (some l) := by
          rw [hlength, hrest i (le_refl i), hl]
        obtain ⟨last, next, hlast, hnext, hwork⟩ :=
          exists_run_garbage addr (hlength ▸ hi) hnew
        have hrun : run (step threadNums addr) (init garbage)
            (first ++ last) = some next := by
          rw [run_append, hfirst]
          exact hlast
        have hage := ((hstarted _ next hrun).published s.loops.length
          (by omega)).1
        rw [hwork] at hage
        exact absurd hage (by decide)
  · intro hnull labels s hrun
    exact (good_run hnull hrun).started

/-! ### Every start returns -/

/-- No thread that is waited for was not created. -/
def Created (s : EventloopThreadPool P) : Prop :=
  ∀ i, ¬(s.threads i).Lost

theorem Created.setThread (hs : s.Created) {i : Nat} {t : EventloopThread P}
    (ht : ¬t.Lost) : (s.setThread i t).Created := by
  intro j
  by_cases hij : j = i
  · subst hij
    simpa [EventloopThreadPool.setThread] using ht
  · simpa [EventloopThreadPool.setThread, hij] using hs j

theorem Created.step (hs : s.Created) {label : PoolStep}
    (hlabel : label ≠ .createFails)
    (hnext : s.step threadNums addr label = some next) : next.Created := by
  cases stepped hnext with
  | createFails _ _ => exact absurd rfl hlabel
  | starter _ ht =>
      exact hs.setThread (EventloopThread.starterStep_not_lost ht)
  | worker ht => exact hs.setThread (EventloopThread.workerStep_not_lost ht)
  | spurious i =>
      exact hs.setThread fun h =>
        hs i ((EventloopThread.wake_lost (s.threads i)).mp h)
  | push _ _ => exact hs

theorem Created.run (hs : s.Created) {labels : List PoolStep}
    (hlabels : .createFails ∉ labels)
    (hrun : run (EventloopThreadPool.step threadNums addr) s labels =
      some next) : next.Created := by
  induction labels generalizing s with
  | nil =>
      cases hrun
      exact hs
  | cons label rest ih =>
      rw [run_cons, Option.bind_eq_some_iff] at hrun
      obtain ⟨middle, hmiddle, hrest⟩ := hrun
      rw [List.mem_cons, not_or] at hlabels
      exact ih (hs.step (Ne.symm hlabels.1) hmiddle) hlabels.2 hrest

/-- The pool waits for a thread that was not created. -/
def Waiting (threadNums : Nat) (s : EventloopThreadPool P) : Prop :=
  s.loops.length < threadNums ∧ (s.threads s.loops.length).Lost

/-- The other threads go on, and the pool waits. -/
theorem Waiting.setThread (hs : s.Waiting threadNums) {i : Nat}
    {t : EventloopThread P}
    (ht : i = s.loops.length → t.Lost) :
    (s.setThread i t).Waiting threadNums := by
  refine ⟨hs.1, ?_⟩
  change (Function.update s.threads i t s.loops.length).Lost
  by_cases hi : s.loops.length = i
  · subst hi
    rw [Function.update_self]
    exact ht rfl
  · rw [Function.update_of_ne hi]
    exact hs.2

end EventloopThreadPool

end Sone

end LinuxTest
