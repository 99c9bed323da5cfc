/-
The lock of the timer heap among the connections and `tick`.  A callback that
needs the heap waits for the lock, does its work and lets the lock go; the steps
of different callbacks interleave.  What `handleClose` does is left out here: it
does not take this lock.
-/
import LinuxTest.Mutex
import LinuxTest.TimerRace

namespace LinuxTest

namespace Sone

universe u

/-- What becomes of a response: part of it is left over, or all of it was
written and the connection closes or is kept alive. -/
inductive Written where
  | partly
  | close
  | keepAlive

/-- Where a connection is in its callbacks.  A read carries the expiry it will
give to its timer and, if it completes a request, what becomes of the
response. -/
inductive ConnPc where
  | idle
  | readLock (time : Int) (sent : Option Written)
  | readCheck (time : Int) (sent : Option Written)
  | readInput (sent : Option Written)
  | pushLock
  | pushTimer
  | setTim

/-- Inside the lock of the heap. -/
def ConnPc.holds : ConnPc → Bool
  | .readCheck _ _ => true
  | .pushTimer => true
  | _ => false

/-- Who can take the lock. -/
inductive HeapUser (C : Type u) where
  | tick
  | conn (c : C)
deriving DecidableEq

/-- The heap, its lock and its users.  A connection has at most one timer in its
life, so the connection stands for it; `tim` says whether `_tim` is set.
`ticking` says whether `tick` is inside the call it is at. -/
structure HeapSharing (C : Type u) where
  heap : TimerHeap C
  lock : Option (HeapUser C)
  tim : C → Bool
  conn : C → ConnPc
  pc : TickPc C
  ticking : Bool

/-- A callback begins, or the connection or `tick` takes its next step. -/
inductive Turn (C : Type u) where
  | handleRead (c : C) (time : Int) (sent : Option Written)
  | handleWrite (c : C) (written : Written)
  | send (c : C) (written : Written)
  | conn (c : C)
  | alarm (cur : Int)
  | tick

namespace HeapSharing

variable {C : Type u}

def init (capacity : Nat) (expire : C → Int) : HeapSharing C :=
  ⟨TimerHeap.init capacity expire, none, fun _ => false, fun _ => .idle,
    .idle, false⟩

/-- The end of `handleWrite` and of `send`: only a connection that is kept alive
and has no timer yet goes on, to `pushTimer`. -/
def afterWrite (s : HeapSharing C) (c : C) : Written → ConnPc
  | .partly => .idle
  | .close => .idle
  | .keepAlive => if s.tim c then .idle else .pushLock

/-- The call of `tick` that comes next needs the lock. -/
def tickLocks : TickPc C → Bool
  | .idle => false
  | .callback _ _ => false
  | _ => true

section Steps

variable [DecidableEq C]

def goTo (s : HeapSharing C) (c : C) (pc : ConnPc) : HeapSharing C :=
  { s with conn := Function.update s.conn c pc }

/-- A callback that begins while another of its connection runs does not: the
loop of a connection runs them one by one. -/
def begin (s : HeapSharing C) (c : C) (pc : ConnPc) : HeapSharing C :=
  match s.conn c with
  | .idle => s.goTo c pc
  | _ => s

/-- `handleRead` with the lock: for a timer that has fired it returns as it is,
else it refreshes a live timer and unlocks. -/
def readCheck (s : HeapSharing C) (c : C) (time : Int)
    (sent : Option Written) : Option (HeapSharing C) :=
  if s.tim c ∧ s.heap.index c = -2 then some (s.goTo c .idle)
  else (if s.tim c then s.heap.refresh c time else some s.heap).map fun heap =>
    { s.goTo c (.readInput sent) with
      heap := heap
      lock := none }

/-- The next step of a connection; one that waits for the lock stays where it
is. -/
def stepConn (s : HeapSharing C) (c : C) : Option (HeapSharing C) :=
  match s.conn c with
  | .idle => some s
  | .readLock time sent =>
      if s.lock = none then
        some { s.goTo c (.readCheck time sent) with lock := some (.conn c) }
      else some s
  | .readCheck time sent => s.readCheck c time sent
  | .readInput none => some (s.goTo c .idle)
  | .readInput (some written) => some (s.goTo c (s.afterWrite c written))
  | .pushLock =>
      if s.lock = none then
        some { s.goTo c .pushTimer with lock := some (.conn c) }
      else some s
  | .pushTimer => (s.heap.pushTimer (some c)).map fun heap =>
      { s.goTo c .setTim with
        heap := heap
        lock := none }
  | .setTim => some { s.goTo c .idle with
      tim := Function.update s.tim c true }

/-- `tick` inside a call that has the lock: what it does and where it goes on.
The calls let the lock go when they return. -/
def tickCall (s : HeapSharing C) : Option (TimerHeap C × TickPc C) :=
  (TimerRace.tick ⟨s.heap, s.pc, [], []⟩).map fun next =>
    (next.heap, next.pc)

def stepTick (s : HeapSharing C) : Option (HeapSharing C) :=
  if tickLocks s.pc then
    if s.ticking then
      s.tickCall.map fun (heap, pc) =>
        { s with
          heap := heap
          pc := pc
          lock := none
          ticking := false }
    else if s.lock = none then
      some { s with
        lock := some .tick
        ticking := true }
    else some s
  else s.tickCall.map fun (heap, pc) =>
    { s with
      heap := heap
      pc := pc }

def step (s : HeapSharing C) : Turn C → Option (HeapSharing C)
  | .handleRead c time sent => some (s.begin c (.readLock time sent))
  | .handleWrite c written => some (s.begin c (s.afterWrite c written))
  | .send c written => some (s.begin c (s.afterWrite c written))
  | .conn c => s.stepConn c
  | .alarm cur => match s.pc with
    | .idle => some { s with pc := .empty cur }
    | _ => some s
  | .tick => s.stepTick

end Steps

/-- The lock is free when no callback and no `tick` runs, and a connection has
let it go when its callback returns. -/
structure Unlocked (s : HeapSharing C) : Prop where
  quiet : (∀ c, s.conn c = .idle) → s.pc = .idle → s.lock = none
  returned : ∀ c, s.conn c = .idle → s.lock ≠ some (.conn c)

/-- No read finds that its timer has fired, and a push finds room. -/
def Orderly (s : HeapSharing C) : Turn C → Prop
  | .conn c => match s.conn c with
    | .readCheck _ _ => ¬ (s.tim c = true ∧ s.heap.index c = -2)
    | .pushTimer => s.heap.nums + 1 ≤ s.heap.capacity
    | _ => True
  | _ => True

/-- Who is inside the lock. -/
def inside (s : HeapSharing C) : HeapUser C → Bool
  | .tick => s.ticking
  | .conn c => (s.conn c).holds

/-- What an orderly run keeps. -/
structure Sound (s : HeapSharing C) : Prop where
  filled : s.heap.Filled
  owned : Owned s.lock s.inside
  ticking : s.ticking = true → tickLocks s.pc = true

variable {s : HeapSharing C} {c : C}

theorem sound_init (capacity : Nat) (expire : C → Int) :
    (init capacity expire).Sound := by
  refine ⟨⟨Nat.zero_le _, ?_⟩, ?_, ?_⟩
  · intro i hi
    exact absurd hi (Nat.not_lt_zero i)
  · intro user
    cases user <;> simp [init, inside, ConnPc.holds]
  · intro hticking
    cases hticking

theorem Sound.unlocked (hs : s.Sound) : s.Unlocked := by
  constructor
  · intro hconn hpc
    apply hs.owned.free
    intro user
    cases user with
    | tick =>
        change s.ticking = false
        by_contra htrue
        have hlocks := hs.ticking (Bool.eq_true_of_not_eq_false htrue)
        rw [hpc] at hlocks
        cases hlocks
    | conn c =>
        rw [inside, hconn c]
        rfl
  · intro c hconn hlock
    have hin := (hs.owned (.conn c)).mp hlock
    rw [inside, hconn] at hin
    cases hin

theorem afterWrite_holds (s : HeapSharing C) (c : C) (written : Written) :
    (s.afterWrite c written).holds = false := by
  cases written with
  | partly => rfl
  | close => rfl
  | keepAlive =>
      rw [afterWrite]
      split <;> rfl

variable [DecidableEq C]

theorem inside_goTo (s : HeapSharing C) (c : C) (pc : ConnPc) :
    (s.goTo c pc).inside = Function.update s.inside (.conn c) pc.holds := by
  funext user
  cases user with
  | tick => rfl
  | conn other =>
      by_cases hsame : other = c
      · subst hsame
        simp [inside, goTo]
      · have hne : HeapUser.conn other ≠ .conn c := by simpa using hsame
        rw [Function.update_of_ne hne, inside, goTo]
        simp [hsame, inside]

/-- A connection that moves on outside the lock, or inside it. -/
theorem Sound.goTo (hs : s.Sound) {pc : ConnPc}
    (hsame : pc.holds = (s.conn c).holds) : (s.goTo c pc).Sound := by
  refine ⟨hs.filled, ?_, hs.ticking⟩
  rw [inside_goTo, hsame]
  change Owned s.lock
    (Function.update s.inside (.conn c) (s.inside (.conn c)))
  rw [Function.update_eq_self]
  exact hs.owned

theorem Sound.acquire (hs : s.Sound) (hfree : s.lock = none) {pc : ConnPc}
    (hin : pc.holds = true) :
    ({ s.goTo c pc with lock := some (.conn c) } : HeapSharing C).Sound := by
  refine ⟨hs.filled, ?_, hs.ticking⟩
  change Owned (some (HeapUser.conn c)) (s.goTo c pc).inside
  rw [inside_goTo, hin]
  exact Owned.acquire (hfree ▸ hs.owned) (.conn c)

theorem Sound.release (hs : s.Sound) (hin : (s.conn c).holds = true)
    {pc : ConnPc} (hout : pc.holds = false) {heap : TimerHeap C}
    (hfilled : heap.Filled) :
    ({ s.goTo c pc with
      heap := heap
      lock := none } : HeapSharing C).Sound := by
  refine ⟨hfilled, ?_, hs.ticking⟩
  change Owned none (s.goTo c pc).inside
  rw [inside_goTo, hout]
  exact hs.owned.release hin

theorem Sound.begin (hs : s.Sound) {pc : ConnPc}
    (hout : pc.holds = false) : (s.begin c pc).Sound := by
  rw [HeapSharing.begin]
  split
  · case h_1 hidle =>
      apply hs.goTo
      rw [hidle, hout]
      rfl
  · exact hs

theorem Sound.stepConn (hs : s.Sound) (horderly : s.Orderly (.conn c)) :
    ∃ next, s.stepConn c = some next ∧ next.Sound := by
  rw [HeapSharing.stepConn]
  rw [Orderly] at horderly
  cases hpc : s.conn c with
  | idle => exact ⟨s, rfl, hs⟩
  | readLock time sent =>
      simp only []
      split
      · case isTrue hfree => exact ⟨_, rfl, hs.acquire hfree rfl⟩
      · exact ⟨s, rfl, hs⟩
  | readCheck time sent =>
      rw [hpc] at horderly
      simp only [readCheck]
      rw [if_neg horderly]
      have hheap : ∃ heap, (if s.tim c = true then s.heap.refresh c time
          else some s.heap) = some heap ∧ heap.Filled := by
        split
        · exact hs.filled.refresh c time
        · exact ⟨s.heap, rfl, hs.filled⟩
      obtain ⟨heap, hrun, hfilled⟩ := hheap
      rw [hrun]
      exact ⟨_, rfl, hs.release (by rw [hpc]; rfl) rfl hfilled⟩
  | readInput sent =>
      cases sent with
      | none => exact ⟨_, rfl, hs.goTo (by rw [hpc]; rfl)⟩
      | some written =>
          refine ⟨_, rfl, hs.goTo ?_⟩
          rw [hpc, afterWrite_holds]
          rfl
  | pushLock =>
      simp only []
      split
      · case isTrue hfree => exact ⟨_, rfl, hs.acquire hfree rfl⟩
      · exact ⟨s, rfl, hs⟩
  | pushTimer =>
      rw [hpc] at horderly
      obtain ⟨heap, hrun, hfilled, _⟩ := hs.filled.push horderly c
      simp only []
      rw [hrun]
      exact ⟨_, rfl, hs.release (by rw [hpc]; rfl) rfl hfilled⟩
  | setTim =>
      have hnext : (s.goTo c .idle).Sound := hs.goTo (by rw [hpc]; rfl)
      exact ⟨_, rfl, hnext.filled, hnext.owned, hnext.ticking⟩

/-- The same for `tick`. -/
theorem inside_ticking (s : HeapSharing C) (heap : TimerHeap C)
    (lock : Option (HeapUser C)) (pc : TickPc C) (ticking : Bool) :
    ({ s with
      heap := heap
      lock := lock
      pc := pc
      ticking := ticking } : HeapSharing C).inside =
        Function.update s.inside .tick ticking := by
  funext user
  cases user with
  | tick => rfl
  | conn c => rw [Function.update_of_ne (by simp), inside, inside]

theorem Sound.stepTick (hs : s.Sound) :
    ∃ next, s.stepTick = some next ∧ next.Sound := by
  obtain ⟨next, hcall, hfilled⟩ :=
    @TimerRace.tick_filled C _ ⟨s.heap, s.pc, [], []⟩ hs.filled
  have hrun : s.tickCall = some (next.heap, next.pc) := by
    rw [tickCall, hcall]
    rfl
  rw [HeapSharing.stepTick, hrun]
  split
  · split
    · case isTrue.isTrue hticking =>
        refine ⟨_, rfl, hfilled, ?_, ?_⟩
        · rw [inside_ticking]
          exact hs.owned.release hticking
        · intro htrue
          cases htrue
    · split
      · case isTrue hlocks _ hfree =>
          refine ⟨_, rfl, hs.filled, ?_, fun _ => hlocks⟩
          rw [inside_ticking]
          exact Owned.acquire (hfree ▸ hs.owned) .tick
      · exact ⟨s, rfl, hs⟩
  · case isFalse hlocks =>
      refine ⟨_, rfl, hfilled, ?_, ?_⟩
      · exact hs.owned
      · intro hticking
        exact absurd (hs.ticking hticking) hlocks

theorem Sound.step (hs : s.Sound) {turn : Turn C}
    (horderly : s.Orderly turn) :
    ∃ next, s.step turn = some next ∧ next.Sound := by
  cases turn with
  | handleRead c time sent => exact ⟨_, rfl, hs.begin rfl⟩
  | handleWrite c written =>
      exact ⟨_, rfl, hs.begin (s.afterWrite_holds c written)⟩
  | send c written =>
      exact ⟨_, rfl, hs.begin (s.afterWrite_holds c written)⟩
  | conn c => exact hs.stepConn horderly
  | alarm cur =>
      rw [HeapSharing.step]
      cases hpc : s.pc with
      | idle => exact ⟨_, rfl, hs.filled, hs.owned, fun _ => rfl⟩
      | _ => exact ⟨s, rfl, hs⟩
  | tick => exact hs.stepTick

/-- In a run where no read comes upon a timer that has fired, the lock is free
whenever nothing runs. -/
theorem heap_lock_released (capacity : Nat) (expire : C → Int)
    (turns : List (Turn C))
    (horderly : Along HeapSharing.step Orderly (init capacity expire) turns) :
    Always HeapSharing.step Unlocked (init capacity expire) turns :=
  (Always.of_along (fun _ _ hs horderly => Sound.step hs horderly)
    (sound_init capacity expire) horderly).mono fun _ hs => hs.unlocked

/-! ### One connection -/

/-- The timer of the only connection has been pushed. -/
def onlyPushed : TimerHeap Unit :=
  ⟨Function.update (fun _ => none) 0 (some ()), 1, 1, fun _ => 0, fun _ => 0⟩

/-- It has fired. -/
def onlyPopped : TimerHeap Unit :=
  ⟨fun _ => none, 1, 0, fun _ => 0, fun _ => -2⟩

theorem pushTimer_only :
    (TimerHeap.init 1 fun _ => 0).pushTimer (some ()) = some onlyPushed := by
  have hcount : asInt 0 = 0 := by decide
  simp [TimerHeap.init, TimerHeap.pushTimer, TimerHeap.siftUp, hcount,
    onlyPushed]
  rfl

theorem popTimer_only : onlyPushed.popTimer = some onlyPopped := by
  have hslots : Function.update (swapAt onlyPushed.slots 0 0) 0 none =
      fun _ => none := by
    funext i
    by_cases hi : i = 0
    · rw [hi, Function.update_self]
    · rw [Function.update_of_ne hi, swapAt_of_ne _ hi hi, onlyPushed]
      simp [hi]
  have hrun : onlyPushed.popTimer = TimerHeap.down { onlyPushed with
      slots := Function.update (swapAt onlyPushed.slots 0 0) 0 none
      nums := 0
      index := fun _ => -2 } 0 := rfl
  rw [hrun, hslots, TimerHeap.down, if_neg (by decide)]
  rfl

def only (heap : TimerHeap Unit) (lock : Option (HeapUser Unit)) (tim : Bool)
    (conn : ConnPc) (pc : TickPc Unit) (ticking : Bool) :
    HeapSharing Unit :=
  ⟨heap, lock, fun _ => tim, fun _ => conn, pc, ticking⟩

/-- `send` keeps the connection alive and pushes its timer. -/
def keeping : List (Turn Unit) :=
  [.send () .keepAlive, .conn (), .conn (), .conn ()]

/-- The alarm goes off and the timer fires. -/
def firing : List (Turn Unit) :=
  .alarm 0 :: List.replicate 9 .tick

/-- Then a read comes. -/
def reading : List (Turn Unit) :=
  [.handleRead () 30 none, .conn (), .conn ()]

theorem step_push_only :
    step (only (TimerHeap.init 1 fun _ => 0) (some (.conn ())) false
        .pushTimer .idle false) (.conn ()) =
      some (only onlyPushed none false .setTim .idle false) := by
  simp only [step, stepConn, only, pushTimer_only]
  rfl

theorem step_pop_only :
    step (only onlyPushed (some .tick) true .idle (.popTimer 0 ()) true)
        .tick =
      some (only onlyPopped none true .idle (.empty 0) false) := by
  have htick : TimerRace.tick ⟨onlyPushed, .popTimer 0 (), [], []⟩ =
      some ⟨onlyPopped, .empty 0, [], [((), some ())]⟩ :=
    TimerRace.tick_popTimer (s := ⟨_, _, _, _⟩) rfl rfl popTimer_only
  simp only [step, stepTick, tickCall, only, htick]
  rfl

theorem heap_lock_released_keeping :
    Along step Orderly (init 1 fun _ => 0) keeping ∧
      Always step Unlocked (init 1 fun _ => 0) keeping := by
  have horderly : Along step Orderly (init 1 fun _ => 0) keeping := by
    refine .cons trivial rfl (.cons trivial rfl ?_)
    refine .cons ?_ step_push_only ⟨trivial, fun _ _ => trivial⟩
    change 0 + 1 ≤ 1
    exact le_refl _
  exact ⟨horderly, heap_lock_released 1 _ keeping horderly⟩

theorem run_keeping :
    run step (init 1 fun _ => 0) keeping =
      some (only onlyPushed none true .idle .idle false) := by
  change (step (only (TimerHeap.init 1 fun _ => 0) (some (.conn ())) false
    .pushTimer .idle false) (.conn ())).bind _ = _
  rw [step_push_only]
  rfl

theorem run_firing :
    run step (only onlyPushed none true .idle .idle false) firing =
      some (only onlyPopped none true .idle .idle false) := by
  change (step (only onlyPushed (some .tick) true .idle (.popTimer 0 ())
    true) .tick).bind _ = _
  rw [step_pop_only]
  rfl

/-- A read that comes upon a timer that has fired returns with the lock. -/
theorem heap_lock_kept :
    ¬ Always step Unlocked (init 1 fun _ => 0)
      (keeping ++ (firing ++ reading)) := by
  intro halways
  obtain ⟨final, hrun, hunlocked⟩ := halways.final
  rw [run_append, run_keeping, Option.bind_some, run_append, run_firing]
    at hrun
  change some (only onlyPopped (some (.conn ())) true .idle .idle false) =
    some final at hrun
  cases hrun
  have hfree := hunlocked.quiet (fun _ => rfl) rfl
  cases hfree

end HeapSharing

end Sone

end LinuxTest
