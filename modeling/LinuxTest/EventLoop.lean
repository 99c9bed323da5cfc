/-
The event loop against any number of other threads that hand it work or ask it
to stop.  Each step is one access to what the threads share: the queue under
its mutex, the flag `quit`, and the counter of the eventfd.
-/
import Mathlib.Logic.Function.Basic
import Mathlib.Tactic.Ring
import LinuxTest.Runs

namespace LinuxTest

namespace Sone

universe u v

/-- Where the loop thread is in `startloop`.  While it dispatches, `wake` says
that the dispatcher of the eventfd is among those still to be processed. -/
inductive LoopPc where
  | check
  | poll
  | dispatch (wake : Bool)
  | swap
  | run
  | stopped
deriving DecidableEq

/-- A functor in the queue, with the thread that pushed it and the number of
that change. -/
structure Queued (T : Type u) (F : Type v) where
  thread : T
  ticket : Nat
  task : F

/-- The shared state, the loop thread's own, and for every other thread the
number of the change it has made and not yet written to the eventfd.  What has
been pushed, run and asked for so far is kept beside it. -/
structure Eventloop (T : Type u) (F : Type v) where
  pc : LoopPc
  quit : Bool
  non_io_functors : List (Queued T F)
  temp : List F
  counter : Nat
  pending : T → Option Nat
  tickets : Nat
  pushed : List F
  ran : List F
  inlined : List F
  quitters : List (T × Nat)

namespace Eventloop

variable {T : Type u} {F : Type v}

def init : Eventloop T F :=
  ⟨.check, false, [], [], 0, fun _ => none, 0, [], [], [], []⟩

/-- The largest value an eventfd holds. -/
def counterMax : Nat := 2 ^ 64 - 2

/-- `::write(wakeupfd, &data, 8)` with the value 1; a counter at its maximum
refuses it. -/
def writeWakeup (counter : Nat) : Nat :=
  if counter + 1 ≤ counterMax then counter + 1 else counter

/-- What can happen next: `runInLoop` and `exit` of a thread (none for the loop
thread itself), the write that follows in another thread, and the steps of
`startloop`. -/
inductive Label (T : Type u) (F : Type v) where
  | runInLoop (thread : Option T) (f : F)
  | exit (thread : Option T)
  | write (thread : T)
  | checkQuit
  | epoll (wake : Bool)
  | process_wakeup_read
  | dispatched
  | swap
  | runNext
  | runDone

/-- The loop thread runs callbacks, which may call into the loop. -/
def inCallback (s : Eventloop T F) : Bool :=
  match s.pc with
  | .dispatch _ => true
  | .run => true
  | _ => false

section Steps

variable [DecidableEq T]

/-- From the loop thread the functor runs at once; any other thread pushes it
and has its write to do. -/
def runInLoop (s : Eventloop T F) (f : F) :
    Option T → Option (Eventloop T F)
  | none =>
      if s.inCallback then some { s with inlined := s.inlined ++ [f] }
      else none
  | some thread =>
      if s.pending thread = none then
        some { s with
          non_io_functors := s.non_io_functors ++ [⟨thread, s.tickets, f⟩]
          pushed := s.pushed ++ [f]
          pending := Function.update s.pending thread (some s.tickets)
          tickets := s.tickets + 1 }
      else none

def exit (s : Eventloop T F) : Option T → Option (Eventloop T F)
  | none => if s.inCallback then some { s with quit := true } else none
  | some thread =>
      if s.pending thread = none then
        some { s with
          quit := true
          quitters := (thread, s.tickets) :: s.quitters
          pending := Function.update s.pending thread (some s.tickets)
          tickets := s.tickets + 1 }
      else none

/-- The write to the eventfd that ends a call from another thread. -/
def write (s : Eventloop T F) (thread : T) : Option (Eventloop T F) :=
  if s.pending thread = none then none
  else some { s with
    counter := writeWakeup s.counter
    pending := Function.update s.pending thread none }

/-- One step.  `epoll` reports the eventfd only while its counter is positive;
it may also return for another descriptor, a signal or its timeout.  The
functors of `temp` run one by one. -/
def step (s : Eventloop T F) : Label T F → Option (Eventloop T F)
  | .runInLoop thread f => s.runInLoop f thread
  | .exit thread => s.exit thread
  | .write thread => s.write thread
  | .checkQuit => match s.pc with
    | .check => some { s with pc := if s.quit then .stopped else .poll }
    | _ => none
  | .epoll wake => match s.pc with
    | .poll =>
        if wake = true → 0 < s.counter then
          some { s with pc := .dispatch wake }
        else none
    | _ => none
  | .process_wakeup_read => match s.pc with
    | .dispatch true => some { s with pc := .dispatch false, counter := 0 }
    | _ => none
  | .dispatched => match s.pc with
    | .dispatch false => some { s with pc := .swap }
    | _ => none
  | .swap => match s.pc with
    | .swap => some { s with
        pc := .run
        temp := s.non_io_functors.map Queued.task
        non_io_functors := [] }
    | _ => none
  | .runNext => match s.pc, s.temp with
    | .run, f :: rest => some { s with temp := rest, ran := s.ran ++ [f] }
    | _, _ => none
  | .runDone => match s.pc, s.temp with
    | .run, [] => some { s with pc := .check }
    | _, _ => none

end Steps

/-- The change was written to the eventfd and the counter still shows it, or
its thread has not yet written. -/
def Signalled (s : Eventloop T F) (thread : T) (ticket : Nat) : Prop :=
  0 < s.counter ∨ s.pending thread = some ticket

/-- The functors pushed so far in push order: those run, the rest of the batch,
and the queue. -/
def InOrder (s : Eventloop T F) : Prop :=
  s.pushed = s.ran ++ s.temp ++ s.non_io_functors.map Queued.task

/-- Before it blocks in `epoll`, the loop will be woken for every functor in the
queue and for every other thread's `exit`. -/
def Awake (s : Eventloop T F) : Prop :=
  s.pc = .poll →
    (∀ entry ∈ s.non_io_functors, s.Signalled entry.thread entry.ticket) ∧
    (∀ quitter ∈ s.quitters, s.Signalled quitter.1 quitter.2)

/-- Between the swap and the next read of the eventfd. -/
def Swapped (s : Eventloop T F) : Prop :=
  s.pc = .run ∨ s.pc = .check ∨ s.pc = .poll

/-- What every step keeps.  The queue holds only what was pushed since the last
swap, and the eventfd was last read before it. -/
structure Sound (s : Eventloop T F) : Prop where
  order : s.InOrder
  queue : s.Swapped →
    ∀ entry ∈ s.non_io_functors, s.Signalled entry.thread entry.ticket
  exits : s.pc = .poll →
    ∀ quitter ∈ s.quitters, s.Signalled quitter.1 quitter.2
  quit : s.quitters ≠ [] → s.quit = true
  batch : s.pc ≠ .run → s.temp = []

variable {s next : Eventloop T F}

theorem sound_init : (init : Eventloop T F).Sound := by
  refine ⟨rfl, ?_, ?_, ?_, fun _ => rfl⟩
  · intro _ entry hentry
    cases hentry
  · intro _ quitter hquitter
    cases hquitter
  · intro hquitters
    exact absurd rfl hquitters

theorem Sound.awake (hs : s.Sound) : s.Awake := by
  intro hpoll
  exact ⟨hs.queue (Or.inr (Or.inr hpoll)), hs.exits hpoll⟩

theorem writeWakeup_pos (counter : Nat) : 0 < writeWakeup counter := by
  rw [writeWakeup]
  split
  · exact Nat.succ_pos counter
  · case isFalse hfull =>
      rw [counterMax] at hfull
      omega

/-- The loop thread moves on.  It goes to `epoll` only from a check of `quit`
that found it unset, so whoever asked it to stop did so since. -/
theorem Sound.move (hs : s.Sound) (pc : LoopPc)
    (hqueue : ({ s with pc := pc } : Eventloop T F).Swapped → s.Swapped)
    (hpoll : pc = .poll → s.quit = false) (htemp : pc ≠ .run → s.temp = []) :
    ({ s with pc := pc } : Eventloop T F).Sound := by
  refine ⟨hs.order, fun hswapped => hs.queue (hqueue hswapped), ?_, hs.quit,
    htemp⟩
  intro hpc quitter hquitter
  have hset := hs.quit (List.ne_nil_of_mem hquitter)
  rw [hpoll hpc] at hset
  cases hset

theorem Sound.checkQuit (hs : s.Sound) (hpc : s.pc = .check) :
    ({ s with pc := if s.quit then .stopped else .poll } :
      Eventloop T F).Sound := by
  apply hs.move
  · intro _
    exact Or.inr (Or.inl hpc)
  · intro hpoll
    cases hquit : s.quit with
    | true =>
        rw [hquit] at hpoll
        cases hpoll
    | false => rfl
  · intro _
    exact hs.batch (by rw [hpc]; decide)

/-- Past `epoll` and before the swap, nothing is said of the queue. -/
theorem Sound.dispatch (hs : s.Sound) (hpc : s.pc ≠ .run) (counter : Nat)
    {pc : LoopPc} (hnext : pc = .swap ∨ ∃ wake, pc = .dispatch wake) :
    ({ s with pc := pc, counter := counter } : Eventloop T F).Sound := by
  refine ⟨hs.order, ?_, ?_, hs.quit, fun _ => hs.batch hpc⟩
  · rintro (hrun | hcheck | hpoll)
    · rcases hnext with rfl | ⟨wake, rfl⟩ <;> cases hrun
    · rcases hnext with rfl | ⟨wake, rfl⟩ <;> cases hcheck
    · rcases hnext with rfl | ⟨wake, rfl⟩ <;> cases hpoll
  · intro hpoll
    rcases hnext with rfl | ⟨wake, rfl⟩ <;> cases hpoll

theorem Sound.swap (hs : s.Sound) (hpc : s.pc = .swap) :
    ({ s with
      pc := .run
      temp := s.non_io_functors.map Queued.task
      non_io_functors := [] } : Eventloop T F).Sound := by
  have htemp := hs.batch (by rw [hpc]; decide)
  have horder := hs.order
  rw [InOrder, htemp] at horder
  refine ⟨?_, ?_, ?_, hs.quit, ?_⟩
  · rw [InOrder]
    simpa using horder
  · intro _ entry hentry
    cases hentry
  · intro hpoll
    cases hpoll
  · intro hrun
    exact absurd rfl hrun

theorem Sound.runNext (hs : s.Sound) (hpc : s.pc = .run) {f : F}
    {rest : List F} (htemp : s.temp = f :: rest) :
    ({ s with temp := rest, ran := s.ran ++ [f] } :
      Eventloop T F).Sound := by
  have horder := hs.order
  rw [InOrder, htemp] at horder
  refine ⟨?_, hs.queue, hs.exits, hs.quit, fun hrun => absurd hpc hrun⟩
  rw [InOrder]
  simpa using horder

section Threads

variable [DecidableEq T]

/-- A thread that starts a new change has written its earlier ones. -/
theorem Signalled.start {thread other : T} {ticket fresh : Nat}
    (hsignalled : s.Signalled thread ticket) (hidle : s.pending other = none)
    (hcounter : next.counter = s.counter)
    (hpending : next.pending =
      Function.update s.pending other (some fresh)) :
    next.Signalled thread ticket := by
  rcases hsignalled with hpositive | hwaiting
  · exact Or.inl (hcounter ▸ hpositive)
  · have hne : thread ≠ other := by
      intro heq
      rw [heq, hidle] at hwaiting
      cases hwaiting
    right
    rw [hpending, Function.update_of_ne hne]
    exact hwaiting

theorem Sound.runInLoop (hs : s.Sound) {f : F} {thread : Option T}
    (hstep : s.runInLoop f thread = some next) : next.Sound := by
  cases thread with
  | none =>
      rw [Eventloop.runInLoop] at hstep
      split at hstep
      · cases hstep
        exact ⟨hs.order, hs.queue, hs.exits, hs.quit, hs.batch⟩
      · cases hstep
  | some thread =>
      rw [Eventloop.runInLoop] at hstep
      split at hstep
      · case isTrue hidle =>
          cases hstep
          refine ⟨?_, ?_, ?_, hs.quit, hs.batch⟩
          · have horder := hs.order
            rw [InOrder] at horder ⊢
            simp [horder]
          · intro hswapped entry hentry
            rcases List.mem_append.mp hentry with hold | hnew
            · exact (hs.queue hswapped entry hold).start hidle rfl rfl
            · rw [List.mem_singleton.mp hnew]
              exact Or.inr (Function.update_self thread _ s.pending)
          · intro hpoll quitter hquitter
            exact (hs.exits hpoll quitter hquitter).start hidle rfl rfl
      · cases hstep

theorem Sound.exit (hs : s.Sound) {thread : Option T}
    (hstep : s.exit thread = some next) : next.Sound := by
  cases thread with
  | none =>
      rw [Eventloop.exit] at hstep
      split at hstep
      · cases hstep
        exact ⟨hs.order, hs.queue, hs.exits, fun _ => rfl, hs.batch⟩
      · cases hstep
  | some thread =>
      rw [Eventloop.exit] at hstep
      split at hstep
      · case isTrue hidle =>
          cases hstep
          refine ⟨hs.order, ?_, ?_, fun _ => rfl, hs.batch⟩
          · intro hswapped entry hentry
            exact (hs.queue hswapped entry hentry).start hidle rfl rfl
          · intro hpoll quitter hquitter
            rcases List.mem_cons.mp hquitter with rfl | hold
            · exact Or.inr (Function.update_self thread _ s.pending)
            · exact (hs.exits hpoll quitter hold).start hidle rfl rfl
      · cases hstep

theorem Sound.write (hs : s.Sound) {thread : T}
    (hstep : s.write thread = some next) : next.Sound := by
  rw [Eventloop.write] at hstep
  split at hstep
  · cases hstep
  · cases hstep
    refine ⟨hs.order, ?_, ?_, hs.quit, hs.batch⟩
    · intro _ entry _
      exact Or.inl (writeWakeup_pos s.counter)
    · intro _ quitter _
      exact Or.inl (writeWakeup_pos s.counter)

/-- Every step of every thread keeps it. -/
theorem Sound.step (hs : s.Sound) {label : Label T F}
    (hstep : s.step label = some next) : next.Sound := by
  cases label with
  | runInLoop thread f => exact hs.runInLoop hstep
  | exit thread => exact hs.exit hstep
  | write thread => exact hs.write hstep
  | checkQuit =>
      rw [Eventloop.step] at hstep
      split at hstep
      · case h_1 hpc =>
          cases hstep
          exact hs.checkQuit hpc
      · cases hstep
  | epoll wake =>
      rw [Eventloop.step] at hstep
      split at hstep
      · case h_1 hpc =>
          split at hstep
          · cases hstep
            exact hs.dispatch (by rw [hpc]; decide) s.counter
              (Or.inr ⟨wake, rfl⟩)
          · cases hstep
      · cases hstep
  | process_wakeup_read =>
      rw [Eventloop.step] at hstep
      split at hstep
      · case h_1 hpc =>
          cases hstep
          exact hs.dispatch (by rw [hpc]; decide) 0 (Or.inr ⟨false, rfl⟩)
      · cases hstep
  | dispatched =>
      rw [Eventloop.step] at hstep
      split at hstep
      · case h_1 hpc =>
          cases hstep
          exact hs.dispatch (by rw [hpc]; decide) s.counter (Or.inl rfl)
      · cases hstep
  | swap =>
      rw [Eventloop.step] at hstep
      split at hstep
      · case h_1 hpc =>
          cases hstep
          exact hs.swap hpc
      · cases hstep
  | runNext =>
      rw [Eventloop.step] at hstep
      split at hstep
      · case h_1 f rest hpc htemp =>
          cases hstep
          exact hs.runNext hpc htemp
      · cases hstep
  | runDone =>
      rw [Eventloop.step] at hstep
      split at hstep
      · case h_1 hpc htemp =>
          cases hstep
          refine hs.move .check (fun _ => Or.inl hpc) ?_ fun _ => htemp
          intro hpoll
          cases hpoll
      · cases hstep

/-- In every interleaving no functor is lost, repeated or overtaken, and the
loop never blocks with work or a request to stop that it will not be woken
for. -/
theorem eventloop_in_order_and_awake (labels : List (Label T F))
    (s : Eventloop T F) (hrun : run step init labels = some s) :
    s.InOrder ∧ s.Awake := by
  have hsound : s.Sound :=
    run_invariant (fun _ _ _ hs hstep => hs.step hstep) sound_init hrun
  exact ⟨hsound.order, hsound.awake⟩

/-- A functor pushed after the check of `quit` and not yet announced. -/
def pushing : List (Label Nat Nat) :=
  [.checkQuit, .runInLoop (some 0) 7]

theorem eventloop_in_order_and_awake_pushing :
    ∃ s, run step init pushing = some s ∧ s.InOrder ∧ s.Awake :=
  ⟨_, rfl, eventloop_in_order_and_awake pushing _ rfl⟩

end Threads

end Eventloop

end Sone

end LinuxTest
