/-
The thread pool of `http_server/FixedThreadPool.cpp`: workers in `thread_func`,
producers in `addTask` and a thread that calls `stop`.  A critical section is
one step; a `wait` inside it ends the step with the thread asleep, and the
thread evaluates its loop again in a step of its own once it has been woken.
-/
import LinuxTest.CondVar
import LinuxTest.Runs

namespace LinuxTest

namespace Sone

/-- Where a worker is in `thread_func`: about to test `isRunning`, about to
evaluate the loop of `take` under the lock, asleep on `_empty`, running the task
it took, or gone. -/
inductive Worker (T : Type) where
  | check
  | ready
  | waiting
  | running (task : T)
  | exited
deriving DecidableEq

/-- Where a producer is in `addTask`: outside, about to evaluate its loop under
the lock, or asleep on `_full`.  No task is a `std::function` without a
target. -/
inductive Producer (T : Type) where
  | idle
  | adding (task : Option T)
  | waiting (task : Option T)
deriving DecidableEq

/-- Where the thread that calls `stop` is: before it, joining, or past it. -/
inductive Stopper where
  | idle
  | joining
  | returned
deriving DecidableEq

namespace Worker

variable {T : Type}

def isWaiting : Worker T → Bool
  | .waiting => true
  | _ => false

/-- Between the test of `isRunning` and the return from `take`. -/
def inTake : Worker T → Bool
  | .ready => true
  | .waiting => true
  | _ => false

def isExited : Worker T → Bool
  | .exited => true
  | _ => false

def runs [DecidableEq T] (task : T) : Worker T → Bool
  | .running other => other == task
  | _ => false

/-- `thread_func` with what `take` returned. -/
def afterTake : Option T → Worker T
  | some task => .running task
  | none => .check

theorem isExited_iff {place : Worker T} : place.isExited ↔ place = .exited := by
  cases place <;> simp [isExited]

theorem runs_ready [DecidableEq T] (task : T) (place : Worker T)
    (hwaiting : place.isWaiting) :
    (Worker.ready : Worker T).runs task = place.runs task := by
  cases place with
  | waiting => rfl
  | _ => cases hwaiting

theorem inTake_ready (place : Worker T) (hwaiting : place.isWaiting) :
    (Worker.ready : Worker T).inTake = place.inTake := by
  cases place with
  | waiting => rfl
  | _ => cases hwaiting

end Worker

namespace Producer

variable {T : Type}

def isWaiting : Producer T → Bool
  | .waiting _ => true
  | _ => false

/-- Back from the wait on `_full`. -/
def awaken : Producer T → Producer T
  | .waiting task => .adding task
  | place => place

theorem isWaiting_awaken (place : Producer T) :
    place.awaken.isWaiting = false := by
  cases place <;> rfl

end Producer

/-- A pool of `W` workers with `m` producers. -/
structure FixedThreadPool (T : Type) (W m : Nat) where
  wq : List (Option T)
  isRunning : Bool
  maxQueSize : Nat
  workers : Fin W → Worker T
  producers : Fin m → Producer T
  stopper : Stopper
  /-- What was pushed and taken so far, in order. -/
  pushed : List (Option T)
  taken : List (Option T)
  /-- The tasks that have returned. -/
  executed : List T
  /-- What had been pushed when `stop` took the lock. -/
  accepted : List (Option T)

/-- The steps of the threads.  A critical section that notifies names the thread
that wakes up. -/
inductive PoolEvent (T : Type) (W m : Nat) where
  | test (w : Fin W)
  | take (w : Fin W) (wake : Option (Fin m))
  | finish (w : Fin W)
  | wakeWorker (w : Fin W)
  | call (p : Fin m) (task : Option T)
  | add (p : Fin m) (wake : Option (Fin W))
  | wakeProducer (p : Fin m)
  | setMaxQueSize (size : Nat)
  | stop
  | joined

namespace FixedThreadPool

variable {T : Type} {W m : Nat}

/-- The pool after `start(W)`.  A task added before it is in the queue. -/
def start (queued : List (Option T)) (maxQueSize : Nat) :
    FixedThreadPool T W m where
  wq := queued
  isRunning := true
  maxQueSize := maxQueSize
  workers := fun _ => .check
  producers := fun _ => .idle
  stopper := .idle
  pushed := queued
  taken := []
  executed := []
  accepted := []

def setWorker (s : FixedThreadPool T W m) (w : Fin W) (place : Worker T) :
    FixedThreadPool T W m :=
  { s with workers := Function.update s.workers w place }

def setProducer (s : FixedThreadPool T W m) (p : Fin m) (place : Producer T) :
    FixedThreadPool T W m :=
  { s with producers := Function.update s.producers p place }

/-- `take` from the test of its loop on. -/
def take (s : FixedThreadPool T W m) (w : Fin W) (wake : Option (Fin m)) :
    Option (FixedThreadPool T W m) :=
  match s.wq, wake with
  | [], none => some (s.setWorker w (if s.isRunning then .waiting else .check))
  | [], some _ => none
  | task :: rest, wake =>
      (notify Producer.isWaiting Producer.awaken s.producers wake).map
        fun producers =>
          { s.setWorker w (Worker.afterTake task) with
            wq := rest
            producers := producers
            taken := s.taken ++ [task] }

/-- `addTask` from the test of its loop on. -/
def addTask (s : FixedThreadPool T W m) (p : Fin m) (task : Option T)
    (wake : Option (Fin W)) : Option (FixedThreadPool T W m) :=
  if s.wq.length > s.maxQueSize ∧ s.isRunning then
    match wake with
    | none => some (s.setProducer p (.waiting task))
    | some _ => none
  else
    (notify Worker.isWaiting (fun _ => .ready) s.workers wake).map
      fun workers =>
        { s.setProducer p .idle with
          wq := s.wq ++ [task]
          workers := workers
          pushed := s.pushed ++ [task] }

/-- `stop` up to the first `join`. -/
def stop (s : FixedThreadPool T W m) : FixedThreadPool T W m :=
  { s with
    isRunning := false
    workers := notifyAll Worker.isWaiting (fun _ => .ready) s.workers
    stopper := .joining
    accepted := s.pushed }

/-- `setMaxQueSize`; for zero it throws. -/
def setMaxQueSize (s : FixedThreadPool T W m) (size : Nat) :
    FixedThreadPool T W m :=
  { s with maxQueSize := if size ≤ 0 then s.maxQueSize else size }

/-- One step; `none` when the thread is not where the step begins. -/
def step (s : FixedThreadPool T W m) :
    PoolEvent T W m → Option (FixedThreadPool T W m)
  | .test w =>
      match s.workers w with
      | .check => some (s.setWorker w (if s.isRunning then .ready else .exited))
      | _ => none
  | .take w wake =>
      match s.workers w with
      | .ready => s.take w wake
      | _ => none
  | .finish w =>
      match s.workers w with
      | .running task => some { s.setWorker w .check with
          executed := s.executed ++ [task] }
      | _ => none
  | .wakeWorker w =>
      match s.workers w with
      | .waiting => some (s.setWorker w .ready)
      | _ => none
  | .call p task =>
      match s.producers p with
      | .idle => some (s.setProducer p (.adding task))
      | _ => none
  | .add p wake =>
      match s.producers p with
      | .adding task => s.addTask p task wake
      | _ => none
  | .wakeProducer p =>
      match s.producers p with
      | .waiting task => some (s.setProducer p (.adding task))
      | _ => none
  | .setMaxQueSize size => some (s.setMaxQueSize size)
  | .stop => if s.stopper = .idle then some s.stop else none
  | .joined =>
      if s.stopper = .joining ∧ ∀ w, (s.workers w).isExited then
        some { s with stopper := .returned }
      else none

/-- Every way a step can go. -/
inductive Move (s : FixedThreadPool T W m) :
    PoolEvent T W m → FixedThreadPool T W m → Prop
  | enter {w} (hplace : s.workers w = .check) (hrunning : s.isRunning) :
      Move s (.test w) (s.setWorker w .ready)
  | exit {w} (hplace : s.workers w = .check) (hstopped : s.isRunning = false) :
      Move s (.test w) (s.setWorker w .exited)
  | sleep {w} (hplace : s.workers w = .ready) (hempty : s.wq = [])
      (hrunning : s.isRunning) :
      Move s (.take w none) (s.setWorker w .waiting)
  | leave {w} (hplace : s.workers w = .ready) (hempty : s.wq = [])
      (hstopped : s.isRunning = false) :
      Move s (.take w none) (s.setWorker w .check)
  | pop {w wake task rest producers} (hplace : s.workers w = .ready)
      (hwq : s.wq = task :: rest)
      (hnotify : notify Producer.isWaiting Producer.awaken s.producers wake =
        some producers) :
      Move s (.take w wake) { s.setWorker w (Worker.afterTake task) with
        wq := rest
        producers := producers
        taken := s.taken ++ [task] }
  | finish {w task} (hplace : s.workers w = .running task) :
      Move s (.finish w) { s.setWorker w .check with
        executed := s.executed ++ [task] }
  | wakeWorker {w} (hplace : s.workers w = .waiting) :
      Move s (.wakeWorker w) (s.setWorker w .ready)
  | call {p task} (hplace : s.producers p = .idle) :
      Move s (.call p task) (s.setProducer p (.adding task))
  | block {p task} (hplace : s.producers p = .adding task)
      (hfull : s.maxQueSize < s.wq.length) (hrunning : s.isRunning) :
      Move s (.add p none) (s.setProducer p (.waiting task))
  | push {p wake task workers} (hplace : s.producers p = .adding task)
      (hroom : s.isRunning → s.wq.length ≤ s.maxQueSize)
      (hnotify : notify Worker.isWaiting (fun _ => .ready) s.workers wake =
        some workers) :
      Move s (.add p wake) { s.setProducer p .idle with
        wq := s.wq ++ [task]
        workers := workers
        pushed := s.pushed ++ [task] }
  | wakeProducer {p task} (hplace : s.producers p = .waiting task) :
      Move s (.wakeProducer p) (s.setProducer p (.adding task))
  | setMaxQueSize {size} : Move s (.setMaxQueSize size) (s.setMaxQueSize size)
  | stop (hidle : s.stopper = .idle) : Move s .stop s.stop
  | joined (hjoining : s.stopper = .joining)
      (hexited : ∀ w, (s.workers w).isExited) :
      Move s .joined { s with stopper := .returned }

section Moves

variable {s next : FixedThreadPool T W m}

theorem take_cases {w : Fin W} {wake : Option (Fin m)}
    (hplace : s.workers w = .ready) (htake : s.take w wake = some next) :
    Move s (.take w wake) next := by
  unfold take at htake
  split at htake
  · case h_1 hempty =>
      cases htake
      split
      · case isTrue hrunning => exact Move.sleep hplace hempty hrunning
      · case isFalse hstopped =>
          exact Move.leave hplace hempty (Bool.eq_false_iff.mpr hstopped)
  · cases htake
  · case h_3 task rest wake hwq =>
      rw [Option.map_eq_some_iff] at htake
      obtain ⟨producers, hnotify, rfl⟩ := htake
      exact Move.pop hplace hwq hnotify

theorem addTask_cases {p : Fin m} {task : Option T} {wake : Option (Fin W)}
    (hplace : s.producers p = .adding task)
    (hadd : s.addTask p task wake = some next) : Move s (.add p wake) next := by
  unfold addTask at hadd
  split at hadd
  · case isTrue hfull =>
      cases wake with
      | none =>
          cases hadd
          exact Move.block hplace hfull.1 hfull.2
      | some _ => cases hadd
  · case isFalse hroom =>
      rw [Option.map_eq_some_iff] at hadd
      obtain ⟨workers, hnotify, rfl⟩ := hadd
      refine Move.push hplace (fun hrunning => ?_) hnotify
      by_contra hfull
      exact hroom ⟨Nat.lt_of_not_le hfull, hrunning⟩

theorem step_cases {event : PoolEvent T W m}
    (hstep : s.step event = some next) : Move s event next := by
  cases event <;> simp only [step] at hstep
  case test w =>
    split at hstep
    · case h_1 hplace =>
        cases hstep
        split
        · case isTrue hrunning => exact Move.enter hplace hrunning
        · case isFalse hstopped =>
            exact Move.exit hplace (Bool.eq_false_iff.mpr hstopped)
    · cases hstep
  case take w wake =>
    split at hstep
    · case h_1 hplace => exact take_cases hplace hstep
    · cases hstep
  case finish w =>
    split at hstep
    · case h_1 task hplace =>
        cases hstep
        exact Move.finish hplace
    · cases hstep
  case wakeWorker w =>
    split at hstep
    · case h_1 hplace =>
        cases hstep
        exact Move.wakeWorker hplace
    · cases hstep
  case call p task =>
    split at hstep
    · case h_1 hplace =>
        cases hstep
        exact Move.call hplace
    · cases hstep
  case add p wake =>
    split at hstep
    · case h_1 task hplace => exact addTask_cases hplace hstep
    · cases hstep
  case wakeProducer p =>
    split at hstep
    · case h_1 task hplace =>
        cases hstep
        exact Move.wakeProducer hplace
    · cases hstep
  case setMaxQueSize size =>
    cases hstep
    exact Move.setMaxQueSize
  case stop =>
    split at hstep
    · case isTrue hidle =>
        cases hstep
        exact Move.stop hidle
    · cases hstep
  case joined =>
    split at hstep
    · case isTrue hready =>
        cases hstep
        exact Move.joined hready.1 hready.2
    · cases hstep

end Moves

/-! ### The queue and the workers that sleep -/

section Invariants

variable {s next : FixedThreadPool T W m} {event : PoolEvent T W m}

/-- The queue holds what was pushed and not yet taken. -/
def Conserved (s : FixedThreadPool T W m) : Prop :=
  s.taken ++ s.wq = s.pushed

theorem Move.conserved (hmove : Move s event next) (hconserved : s.Conserved) :
    next.Conserved := by
  rw [Conserved] at hconserved ⊢
  cases hmove with
  | @pop w wake task rest _ hplace hwq hnotify =>
      change s.taken ++ [task] ++ rest = s.pushed
      rw [List.append_assoc, List.singleton_append, ← hwq]
      exact hconserved
  | @push p wake task _ hplace hroom hnotify =>
      change s.taken ++ (s.wq ++ [task]) = s.pushed ++ [task]
      rw [← List.append_assoc, hconserved]
  | _ => exact hconserved

/-- For a queue of some size: nobody sleeps on `_empty` or every task has a
worker that is awake. -/
def Staffed (size : Nat) (workers : Fin W → Worker T) : Prop :=
  census Worker.isWaiting workers = 0 ∨
    size + census Worker.isWaiting workers ≤ W

variable {size : Nat} {workers woken : Fin W → Worker T}

/-- A worker that moves without falling asleep. -/
theorem Staffed.update {w : Fin W} {place : Worker T}
    (hstaffed : Staffed size workers) (hawake : place.isWaiting = false) :
    Staffed size (Function.update workers w place) := by
  have hmove := census_update Worker.isWaiting workers w place
  rw [hawake] at hmove
  simp only [Bool.false_eq_true, if_false] at hmove
  rw [Staffed] at hstaffed ⊢
  omega

/-- With nothing to do everybody may sleep. -/
theorem Staffed.zero (workers : Fin W → Worker T) : Staffed 0 workers := by
  have hcard := census_le_card Worker.isWaiting workers
  rw [Fintype.card_fin] at hcard
  right
  omega

theorem Staffed.pop (hstaffed : Staffed (size + 1) workers) :
    Staffed size workers := by
  rw [Staffed] at hstaffed ⊢
  omega

/-- A push and the worker it wakes. -/
theorem Staffed.notify {wake : Option (Fin W)} (hstaffed : Staffed size workers)
    (hnotify : notify Worker.isWaiting (fun _ => .ready) workers wake =
      some woken) : Staffed (size + 1) woken := by
  have hone := census_asleep_notify (fun _ => rfl) hnotify
  rw [Staffed] at hstaffed ⊢
  omega

theorem Move.staffed (hmove : Move s event next)
    (hstaffed : Staffed s.wq.length s.workers) :
    Staffed next.wq.length next.workers := by
  cases hmove with
  | enter _ _ => exact hstaffed.update rfl
  | exit _ _ => exact hstaffed.update rfl
  | leave _ _ _ => exact hstaffed.update rfl
  | finish _ => exact hstaffed.update rfl
  | wakeWorker _ => exact hstaffed.update rfl
  | sleep hplace hempty hrunning =>
      change Staffed s.wq.length _
      rw [hempty]
      exact Staffed.zero _
  | @pop w wake task rest _ hplace hwq hnotify =>
      rw [hwq] at hstaffed
      have hawake : (Worker.afterTake task).isWaiting = false := by
        cases task <;> rfl
      exact hstaffed.pop.update hawake
  | @push p wake task _ hplace hroom hnotify =>
      change Staffed (s.wq ++ [task]).length _
      rw [List.length_append]
      exact hstaffed.notify hnotify
  | stop hidle =>
      left
      change census _
        (notifyAll Worker.isWaiting (fun _ => .ready) s.workers) = 0
      exact census_asleep_notifyAll fun _ => rfl
  | _ => exact hstaffed

/-- In every state of every run, with tasks in the queue at most as many workers
sleep as there are more of them than tasks, and tasks are taken in the order in
which they were pushed. -/
theorem awake_workers_and_taken_prefix (queued : List (Option T))
    (maxQueSize : Nat) (events : List (PoolEvent T W m))
    (hrun : run step (start queued maxQueSize) events = some s) :
    min W s.wq.length ≤ census (fun place => !place.isWaiting) s.workers ∧
      s.taken <+: s.pushed := by
  have hstaffed : Staffed s.wq.length s.workers := by
    refine run_invariant
      (fun _ _ _ hinv hstep => (step_cases hstep).staffed hinv) ?_ hrun
    exact Or.inl (census_eq_zero_iff.mpr fun _ => rfl)
  have hconserved : s.Conserved := by
    refine run_invariant
      (fun _ _ _ hinv hstep => (step_cases hstep).conserved hinv) ?_ hrun
    exact List.nil_append queued
  constructor
  · have hall := census_add_census_not Worker.isWaiting s.workers
    rw [Fintype.card_fin] at hall
    rw [Staffed] at hstaffed
    omega
  · rw [← hconserved]
    exact List.prefix_append s.taken s.wq

/-- Two workers fall asleep; a push wakes the first. -/
def pushToSleepers : List (PoolEvent Nat 2 1) :=
  [.test 0, .test 1, .take 0 none, .take 1 none, .call 0 (some 7),
    .add 0 (some 0)]

theorem awake_workers_and_taken_prefix_two :
    ∃ s : FixedThreadPool Nat 2 1,
      run step (start [] 1) pushToSleepers = some s ∧
      s.wq = [some 7] ∧ s.workers 1 = .waiting ∧
      min 2 s.wq.length ≤ census (fun place => !place.isWaiting) s.workers ∧
      s.taken <+: s.pushed :=
  ⟨_, rfl, rfl, rfl, awake_workers_and_taken_prefix [] 1 pushToSleepers rfl⟩

/-! ### The bound on the queue -/

/-- The queue is within its limit. -/
def Bounded (s : FixedThreadPool T W m) : Prop :=
  s.wq.length ≤ s.maxQueSize

/-- One step from a queue within its limit leaves the limit exactly when it is
`addTask` with a full queue. -/
theorem Move.bounded_iff (hmove : Move s event next) (hbounded : s.Bounded)
    (hlimit : ∀ size, event ≠ .setMaxQueSize size) :
    next.Bounded ↔
      ∀ p wake, event = .add p wake → s.wq.length ≠ s.maxQueSize := by
  rw [Bounded] at hbounded ⊢
  cases hmove with
  | @pop w wake task rest _ hplace hwq hnotify =>
      rw [hwq, List.length_cons] at hbounded
      exact iff_of_true (Nat.le_of_succ_le hbounded) nofun
  | @push p wake task _ hplace hroom hnotify =>
      change (s.wq ++ [task]).length ≤ s.maxQueSize ↔ _
      rw [List.length_append, List.length_singleton]
      constructor
      · intro hle _ _ _
        omega
      · intro hne
        have hsize := hne p wake rfl
        omega
  | block hplace hfull hrunning => omega
  | setMaxQueSize => exact absurd rfl (hlimit _)
  | _ => exact iff_of_true hbounded nofun

/-- As long as the limit is not changed, the queue stays within it in exactly
the runs in which no call of `addTask` finds exactly `maxQueSize` tasks: there
the comparison lets it through. -/
theorem queue_bounded_iff {final : FixedThreadPool T W m}
    (events : List (PoolEvent T W m))
    (hlimit : ∀ event ∈ events, ∀ size, event ≠ .setMaxQueSize size)
    (hrun : run step s events = some final) :
    Always step (fun s => s.wq.length ≤ s.maxQueSize) s events ↔
      s.wq.length ≤ s.maxQueSize ∧
        Along step (fun s event => ∀ p wake, event = .add p wake →
          s.wq.length ≠ s.maxQueSize) s events := by
  refine always_iff_along ?_ hrun
  intro state event hevent next hbounded hstep
  exact (step_cases hstep).bounded_iff hbounded (hlimit event hevent)

/-- Two calls of `addTask` with the limit at one. -/
def addTwo : List (PoolEvent Nat 1 1) :=
  [.call 0 (some 1), .add 0 none, .call 0 (some 2), .add 0 none]

theorem queue_bounded_iff_addTwo :
    (∃ final, run step (start [] 1) addTwo = some final ∧
      final.wq.length = 2) ∧
    (Always step (fun s => s.wq.length ≤ s.maxQueSize) (start [] 1) addTwo ↔
      (start [] 1 : FixedThreadPool Nat 1 1).wq.length ≤ 1 ∧
        Along step (fun s event => ∀ p wake, event = .add p wake →
          s.wq.length ≠ s.maxQueSize) (start [] 1) addTwo) := by
  refine ⟨⟨_, rfl, rfl⟩, queue_bounded_iff addTwo ?_ rfl⟩
  intro event hevent size heq
  subst heq
  simp [addTwo] at hevent

theorem queue_exceeds_limit :
    ¬ Always step (fun s => s.wq.length ≤ s.maxQueSize)
      (start [] 1 : FixedThreadPool Nat 1 1) addTwo := by
  intro halways
  obtain ⟨last, hlast, hbound⟩ := halways.final
  cases hlast
  exact absurd hbound (by decide)

end Invariants

end FixedThreadPool

end Sone

end LinuxTest
