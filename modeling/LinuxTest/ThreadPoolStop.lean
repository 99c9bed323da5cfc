/-
What `stop` of `http_server/FixedThreadPool.cpp` leaves behind.  After it has
cleared `isRunning`, a worker takes at most the one task it is in `take` for,
and only such a take wakes a producer that sleeps on `_full`.
-/
import LinuxTest.ThreadPool

namespace LinuxTest

namespace Sone

namespace FixedThreadPool

variable {T : Type} {W m : Nat} {s next : FixedThreadPool T W m}
  {event : PoolEvent T W m}

/-! ### Taken and executed -/

section Tallied

variable [DecidableEq T] {taken : List (Option T)} {executed : List T}
  {workers : Fin W → Worker T} {w : Fin W}

/-- Each task has been executed as often as it was taken, up to the workers that
run it. -/
def Tallied (taken : List (Option T)) (executed : List T)
    (workers : Fin W → Worker T) : Prop :=
  ∀ task, taken.count (some task) =
    executed.count task + census (Worker.runs task) workers

/-- A worker that moves between two places at which it runs nothing. -/
theorem Tallied.update {before after : Worker T}
    (htallied : Tallied taken executed workers) (hplace : workers w = before)
    (hbefore : ∀ task, before.runs task = false)
    (hafter : ∀ task, after.runs task = false) :
    Tallied taken executed (Function.update workers w after) := by
  intro task
  rw [census_update_of_eq (by rw [hplace, hbefore, hafter])]
  exact htallied task

theorem Tallied.take {task : Option T}
    (htallied : Tallied taken executed workers)
    (hplace : workers w = .ready) :
    Tallied (taken ++ [task]) executed
      (Function.update workers w (Worker.afterTake task)) := by
  intro other
  have hmove := census_update (Worker.runs other) workers w
    (Worker.afterTake task)
  rw [hplace] at hmove
  rw [List.count_append, htallied other, List.count_singleton]
  have hruns : (Worker.afterTake task).runs other = (task == some other) := by
    cases task with
    | none => rfl
    | some task => rfl
  rw [hruns] at hmove
  change _ + 0 = _ at hmove
  omega

theorem Tallied.finish {task : T} (htallied : Tallied taken executed workers)
    (hplace : workers w = .running task) :
    Tallied taken (executed ++ [task])
      (Function.update workers w .check) := by
  intro other
  have hmove := census_update (Worker.runs other) workers w .check
  rw [hplace] at hmove
  rw [List.count_append, htallied other, List.count_singleton]
  change _ + (if task == other then 1 else 0) = _ + 0 at hmove
  omega

theorem Move.tallied (hmove : Move s event next)
    (htallied : Tallied s.taken s.executed s.workers) :
    Tallied next.taken next.executed next.workers := by
  cases hmove with
  | enter hplace _ => exact htallied.update hplace (fun _ => rfl) fun _ => rfl
  | exit hplace _ => exact htallied.update hplace (fun _ => rfl) fun _ => rfl
  | sleep hplace _ _ => exact htallied.update hplace (fun _ => rfl) fun _ => rfl
  | leave hplace _ _ => exact htallied.update hplace (fun _ => rfl) fun _ => rfl
  | wakeWorker hplace =>
      exact htallied.update hplace (fun _ => rfl) fun _ => rfl
  | pop hplace hwq hnotify => exact htallied.take hplace
  | finish hplace => exact htallied.finish hplace
  | push hplace hroom hnotify =>
      intro task
      change s.taken.count _ = s.executed.count task + census _ _
      rw [census_notify (Worker.runs_ready task) hnotify]
      exact htallied task
  | stop hidle =>
      intro task
      change s.taken.count _ = s.executed.count task + census _
        (notifyAll Worker.isWaiting (fun _ => .ready) s.workers)
      rw [census_notifyAll (Worker.runs_ready task)]
      exact htallied task
  | _ => exact htallied

end Tallied

/-! ### After `stop` -/

/-- Once `stop` has let the lock go: every accepted task that was not taken has
a worker that is in `take` for it, and will wake one producer. -/
structure Draining (s : FixedThreadPool T W m) : Prop where
  stopped : s.isRunning = false
  accepted : s.accepted <+: s.pushed
  drained : s.accepted.length ≤
    s.taken.length + census Worker.inTake s.workers
  released : census Producer.isWaiting s.producers ≤
    s.accepted.length - s.taken.length

/-- A worker that moves outside `take`, or inside it. -/
theorem Draining.setWorker {w : Fin W} {place : Worker T}
    (hdraining : s.Draining)
    (hsame : place.inTake = (s.workers w).inTake) :
    (s.setWorker w place).Draining := by
  refine ⟨hdraining.stopped, hdraining.accepted, ?_, hdraining.released⟩
  change _ ≤ _ + census _ (Function.update s.workers w place)
  rw [census_update_of_eq hsame]
  exact hdraining.drained

/-- A producer that does not fall asleep. -/
theorem Draining.setProducer {p : Fin m} {place : Producer T}
    (hdraining : s.Draining) (hawake : place.isWaiting = false) :
    (s.setProducer p place).Draining := by
  refine ⟨hdraining.stopped, hdraining.accepted, hdraining.drained, ?_⟩
  have hmove := census_update Producer.isWaiting s.producers p place
  rw [hawake] at hmove
  simp only [Bool.false_eq_true, if_false] at hmove
  have hreleased := hdraining.released
  change census _ (Function.update s.producers p place) ≤
    s.accepted.length - s.taken.length
  omega

/-- A worker that found the queue empty: all that was accepted is taken. -/
theorem Draining.leave {w : Fin W} (hdraining : s.Draining)
    (hconserved : s.Conserved) (hempty : s.wq = []) :
    (s.setWorker w .check).Draining := by
  refine ⟨hdraining.stopped, hdraining.accepted, ?_, hdraining.released⟩
  rw [Conserved, hempty, List.append_nil] at hconserved
  have hlength := hdraining.accepted.length_le
  rw [← hconserved] at hlength
  exact hlength.trans (Nat.le_add_right _ _)

theorem Draining.pop {w : Fin W} {wake : Option (Fin m)} {task : Option T}
    {rest : List (Option T)} {producers : Fin m → Producer T}
    (hdraining : s.Draining) (hplace : s.workers w = .ready)
    (hnotify : notify Producer.isWaiting Producer.awaken s.producers wake =
      some producers) :
    Draining { s.setWorker w (Worker.afterTake task) with
      wq := rest
      producers := producers
      taken := s.taken ++ [task] } := by
  have hout : (Worker.afterTake task).inTake = false := by
    cases task <;> rfl
  have hmove := census_update Worker.inTake s.workers w (Worker.afterTake task)
  rw [hplace, hout] at hmove
  change _ + 1 = _ + 0 at hmove
  have hwoken := census_asleep_notify Producer.isWaiting_awaken hnotify
  have hdrained := hdraining.drained
  have hreleased := hdraining.released
  refine ⟨hdraining.stopped, hdraining.accepted, ?_, ?_⟩
  · change s.accepted.length ≤ (s.taken ++ [task]).length +
      census _ (Function.update s.workers w (Worker.afterTake task))
    rw [List.length_append, List.length_singleton]
    omega
  · change census _ producers ≤
      s.accepted.length - (s.taken ++ [task]).length
    rw [List.length_append, List.length_singleton]
    omega

theorem Draining.push {p : Fin m} {wake : Option (Fin W)} {task : Option T}
    {workers : Fin W → Worker T} (hdraining : s.Draining)
    (hnotify : notify Worker.isWaiting (fun _ => .ready) s.workers wake =
      some workers) :
    Draining { s.setProducer p .idle with
      wq := s.wq ++ [task]
      workers := workers
      pushed := s.pushed ++ [task] } := by
  have hidle : (s.setProducer p .idle).Draining := hdraining.setProducer rfl
  refine ⟨hidle.stopped, ?_, ?_, hidle.released⟩
  · exact hdraining.accepted.trans (List.prefix_append s.pushed [task])
  · change s.accepted.length ≤ s.taken.length + census _ workers
    rw [census_notify Worker.inTake_ready hnotify]
    exact hdraining.drained

/-- The stop step, when the condition holds before it. -/
theorem Draining.stop (hconserved : s.Conserved)
    (hworkers : s.wq.length ≤ census Worker.inTake s.workers)
    (hproducers : census Producer.isWaiting s.producers ≤ s.wq.length) :
    s.stop.Draining := by
  have hlength : s.taken.length + s.wq.length = s.pushed.length := by
    rw [← List.length_append, hconserved]
  refine ⟨rfl, List.prefix_refl s.pushed, ?_, ?_⟩
  · change s.pushed.length ≤ s.taken.length + census _
      (notifyAll Worker.isWaiting (fun _ => .ready) s.workers)
    rw [census_notifyAll Worker.inTake_ready]
    omega
  · change census _ s.producers ≤ s.pushed.length - s.taken.length
    omega

theorem Move.draining (hmove : Move s event next) (hconserved : s.Conserved)
    (hstop : s.stopper ≠ .idle) (hdraining : s.Draining) : next.Draining := by
  have hnot (hrunning : s.isRunning = true) : next.Draining := by
    rw [hdraining.stopped] at hrunning
    cases hrunning
  cases hmove with
  | enter _ hrunning => exact hnot hrunning
  | sleep _ _ hrunning => exact hnot hrunning
  | block _ _ hrunning => exact hnot hrunning
  | exit hplace _ => exact hdraining.setWorker (by rw [hplace]; rfl)
  | @finish w task hplace =>
      have hcheck : (s.setWorker w .check).Draining :=
        hdraining.setWorker (by rw [hplace]; rfl)
      exact { hcheck with }
  | wakeWorker hplace => exact hdraining.setWorker (by rw [hplace]; rfl)
  | leave hplace hempty _ => exact hdraining.leave hconserved hempty
  | pop hplace hwq hnotify => exact hdraining.pop hplace hnotify
  | call _ => exact hdraining.setProducer rfl
  | wakeProducer _ => exact hdraining.setProducer rfl
  | push _ _ hnotify => exact hdraining.push hnotify
  | stop hidle => exact absurd hidle hstop
  | setMaxQueSize => exact { hdraining with }
  | joined _ _ => exact { hdraining with }

/-- What is known of the stop in every state of a run. -/
structure StopInvariant [DecidableEq T] (s : FixedThreadPool T W m) :
    Prop where
  conserved : s.Conserved
  tallied : Tallied s.taken s.executed s.workers
  draining : s.stopper ≠ .idle → s.Draining
  exited : s.stopper = .returned → ∀ w, (s.workers w).isExited

/-- The state in which `stop` finds the pool: the workers in `take` are enough
for the queue, and the queue for the producers that sleep. -/
def StopsCleanly (s : FixedThreadPool T W m) (event : PoolEvent T W m) :
    Prop :=
  event = .stop → s.wq.length ≤ census Worker.inTake s.workers ∧
    census Producer.isWaiting s.producers ≤ s.wq.length

theorem Move.draining_of_stopsCleanly (hmove : Move s event next)
    (hconserved : s.Conserved) (hclean : s.StopsCleanly event)
    (hdraining : s.stopper ≠ .idle → s.Draining)
    (hstop : next.stopper ≠ .idle) : next.Draining := by
  by_cases hidle : s.stopper = .idle
  · cases hmove with
    | stop _ =>
        obtain ⟨hworkers, hproducers⟩ := hclean rfl
        exact Draining.stop hconserved hworkers hproducers
    | joined hjoining _ =>
        rw [hjoining] at hidle
        cases hidle
    | _ => exact absurd hidle hstop
  · exact hmove.draining hconserved hidle (hdraining hidle)

/-- A worker that has left `thread_func` does not move again. -/
theorem Move.exited (hmove : Move s event next)
    (hexited : s.stopper = .returned → ∀ w, (s.workers w).isExited)
    (hreturned : next.stopper = .returned) :
    ∀ w, (next.workers w).isExited := by
  have hgone {w : Fin W} {place : Worker T} (hbefore : s.stopper = .returned)
      (hplace : s.workers w = place) (hlive : place.isExited = false) :
      ∀ w, (next.workers w).isExited := by
    have hexit := hexited hbefore w
    rw [hplace, hlive] at hexit
    cases hexit
  cases hmove with
  | enter hplace _ => exact hgone hreturned hplace rfl
  | exit hplace _ => exact hgone hreturned hplace rfl
  | sleep hplace _ _ => exact hgone hreturned hplace rfl
  | leave hplace _ _ => exact hgone hreturned hplace rfl
  | pop hplace _ _ => exact hgone hreturned hplace rfl
  | finish hplace => exact hgone hreturned hplace rfl
  | wakeWorker hplace => exact hgone hreturned hplace rfl
  | push _ _ hnotify =>
      rcases notify_cases hnotify with ⟨w, _, hasleep, _⟩ | ⟨_, rfl, _⟩
      · rw [Worker.isExited_iff.mp (hexited hreturned w)] at hasleep
        cases hasleep
      · exact hexited hreturned
  | stop _ => cases hreturned
  | joined _ hall => exact hall
  | _ => exact hexited hreturned

theorem Move.stopInvariant [DecidableEq T] (hmove : Move s event next)
    (hclean : s.StopsCleanly event) (hinv : s.StopInvariant) :
    next.StopInvariant where
  conserved := hmove.conserved hinv.conserved
  tallied := hmove.tallied hinv.tallied
  draining := hmove.draining_of_stopsCleanly hinv.conserved hclean hinv.draining
  exited := hmove.exited hinv.exited

theorem StopInvariant.start [DecidableEq T] (queued : List (Option T))
    (maxQueSize : Nat) :
    (start queued maxQueSize : FixedThreadPool T W m).StopInvariant where
  conserved := List.nil_append queued
  tallied := by
    intro task
    rw [census_eq_zero_iff.mpr fun _ => rfl]
    rfl
  draining := fun hstop => absurd rfl hstop
  exited := nofun

/-- When `stop` finds the pool so, and has returned: what was accepted before it
has been taken, each task was executed as often as it was taken, and no producer
sleeps on `_full`. -/
theorem stop_leaves_nothing [DecidableEq T] (queued : List (Option T))
    (maxQueSize : Nat) (events : List (PoolEvent T W m))
    (hclean : Along step StopsCleanly (start queued maxQueSize) events)
    (hrun : run step (start queued maxQueSize) events = some s)
    (hreturned : s.stopper = .returned) :
    s.accepted <+: s.taken ∧
      (∀ task, s.executed.count task = s.taken.count (some task)) ∧
      ∀ p, (s.producers p).isWaiting = false := by
  have hinv : s.StopInvariant := run_invariant_along
    (fun _ _ _ hinv hgood hstep =>
      (step_cases hstep).stopInvariant hgood hinv)
    (StopInvariant.start queued maxQueSize) hclean hrun
  have hstop : s.stopper ≠ .idle := by
    rw [hreturned]
    nofun
  have hdraining := hinv.draining hstop
  have hnobody {p : Worker T → Bool} (hp : p .exited = false) :
      census p s.workers = 0 := by
    rw [census_eq_zero_iff]
    intro w
    rw [Worker.isExited_iff.mp (hinv.exited hreturned w)]
    exact hp
  have htaken : s.accepted.length ≤ s.taken.length := by
    have hdrained := hdraining.drained
    rw [hnobody rfl] at hdrained
    exact hdrained
  refine ⟨?_, ?_, ?_⟩
  · have hprefix : s.taken <+: s.pushed := by
      rw [← hinv.conserved]
      exact List.prefix_append s.taken s.wq
    exact List.prefix_of_prefix_length_le hdraining.accepted hprefix htaken
  · intro task
    have hcount := hinv.tallied task
    rw [hnobody rfl] at hcount
    exact hcount.symm
  · have hreleased := hdraining.released
    rw [Nat.sub_eq_zero_of_le htaken, Nat.le_zero] at hreleased
    exact census_eq_zero_iff.mp hreleased

/-- Of two workers one is in `take` when `stop` finds one task. -/
theorem stop_leaves_nothing_one :
    ∃ s : FixedThreadPool Nat 2 1,
      run step (start [] 1) [.test 0, .call 0 (some 7), .add 0 none, .stop,
        .take 0 none, .finish 0, .test 0, .test 1, .joined] = some s ∧
      s.stopper = .returned ∧ s.accepted = [some 7] ∧
      s.accepted <+: s.taken ∧
      (∀ task, s.executed.count task = s.taken.count (some task)) ∧
      ∀ p, (s.producers p).isWaiting = false := by
  refine ⟨_, rfl, rfl, rfl, stop_leaves_nothing [] 1 [.test 0,
    .call 0 (some 7), .add 0 none, .stop, .take 0 none, .finish 0, .test 0,
    .test 1, .joined] ?_ rfl rfl⟩
  refine Along.cons nofun rfl (Along.cons nofun rfl (Along.cons nofun rfl ?_))
  refine Along.cons (fun _ => by decide) rfl (Along.of_forall ?_)
  intro event hevent state hstop
  subst hstop
  simp at hevent

/-- Three tasks are accepted, the only worker is running the first and a
producer sleeps on `_full` when `stop` is called. -/
theorem stop_loses_tasks_and_producers :
    ∃ s : FixedThreadPool Nat 1 1,
      run step (start [] 1) [.test 0, .call 0 (some 1), .add 0 none,
        .take 0 none, .call 0 (some 2), .add 0 none, .call 0 (some 3),
        .add 0 none, .call 0 (some 4), .add 0 none, .stop, .finish 0, .test 0,
        .joined] = some s ∧
      s.stopper = .returned ∧
      s.accepted = [some 1, some 2, some 3] ∧ s.executed = [1] ∧
      s.producers 0 = .waiting (some 4) :=
  ⟨_, rfl, rfl, rfl, rfl, rfl⟩

end FixedThreadPool

end Sone

end LinuxTest
