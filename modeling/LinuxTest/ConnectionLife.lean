/-
The life of a connection, from `AcceptCallback` to `onClose`, with its timer in
the heap: closed by a request, by `handleWrite` or by its timer, whose callback
hands `handleClose` to the loop of the connection.
-/
import LinuxTest.TimerLock

namespace LinuxTest

namespace Sone

universe u

variable {C : Type u}

/-- The heap with `tick`, the `_tim` of the connections, `connections` of the
server, the `handleClose` functors that wait in the loops, and the connections
whose `handleClose` has run.  A connection stands for its timer, which
`~HttpConnection` deletes. -/
structure ConnectionLife (C : Type u) where
  race : TimerRace C
  tim : C → Bool
  connections : List C
  functors : List C
  closed : List C

/-- What can happen: a connection is accepted; it becomes readable, and perhaps
a request is answered; it becomes writable; the alarm goes off; `tick` makes its
next call, in the loop thread of the connection it fires or not; a loop runs a
functor. -/
inductive Happening (C : Type u) where
  | accept (c : C)
  | handleRead (c : C) (time : Int) (sent : Option Written)
  | handleWrite (c : C) (written : Written)
  | alarm (cur : Int)
  | tick (inLoop : Bool)
  | functor (c : C)

namespace ConnectionLife

def init (capacity : Nat) (expire : C → Int) : ConnectionLife C :=
  ⟨TimerRace.init capacity expire, fun _ => false, [], [], []⟩

section Steps

variable [DecidableEq C]

/-- `handleClose`, with `onClose`, which erases the connection it finds;
`erase` of the end of the list is undefined. -/
def handleClose (s : ConnectionLife C) (c : C) : Option (ConnectionLife C) :=
  if c ∈ s.connections then
    some { s with
      connections := s.connections.erase c
      closed := s.closed ++ [c] }
  else none

def move (s : ConnectionLife C) (m : Move C) : Option (ConnectionLife C) :=
  (s.race.step m).map fun race => { s with race := race }

/-- The end of `send` and of `handleWrite`. -/
def finish (s : ConnectionLife C) (c : C) :
    Written → Option (ConnectionLife C)
  | .partly => some s
  | .close => s.handleClose c
  | .keepAlive =>
      if s.tim c then some s
      else (s.move (.push c)).map fun next =>
        { next with tim := Function.update next.tim c true }

/-- `handleRead` returns at once for a timer that has fired; else it refreshes
its timer, reads, and `send` answers a complete request. -/
def handleRead (s : ConnectionLife C) (c : C) (time : Int)
    (sent : Option Written) : Option (ConnectionLife C) :=
  if s.tim c ∧ s.race.heap.index c = -2 then some s
  else (if s.tim c then s.move (.refresh c time) else some s).bind fun next =>
    match sent with
    | none => some next
    | some written => next.finish c written

/-- `handleTimerCb`: `runInLoop` runs `handleClose` at once in the thread of the
loop, and queues it in any other. -/
def handleTimerCb (s : ConnectionLife C) (c : C) (inLoop : Bool) :
    Option (ConnectionLife C) :=
  if inLoop then s.handleClose c
  else some { s with functors := s.functors ++ [c] }

def tick (s : ConnectionLife C) (inLoop : Bool) :
    Option (ConnectionLife C) :=
  match s.race.pc with
  | .callback _ c => (s.handleTimerCb c inLoop).bind fun next =>
      next.move .tick
  | _ => s.move .tick

/-- A connection is accepted once, and only one that is in `connections` has
events. -/
def step (s : ConnectionLife C) : Happening C → Option (ConnectionLife C)
  | .accept c =>
      if c ∈ s.connections ∨ c ∈ s.closed then some s
      else some { s with connections := s.connections ++ [c] }
  | .handleRead c time sent =>
      if c ∈ s.connections then s.handleRead c time sent else some s
  | .handleWrite c written =>
      if c ∈ s.connections then s.finish c written else some s
  | .alarm cur => s.move (.alarm cur)
  | .tick inLoop => s.tick inLoop
  | .functor c =>
      if c ∈ s.functors then
        { s with functors := s.functors.erase c }.handleClose c
      else some s

/-- The answer of a request, or the rest of it, is undisturbed: a connection
that closes has no timer, and one that pushes its timer does not disturb
`tick`. -/
def TidyFinish (s : ConnectionLife C) (c : C) : Written → Prop
  | .partly => True
  | .close => s.tim c = false
  | .keepAlive => s.tim c = false → s.race.Undisturbed (.push c)

/-- No connection with a timer is closed but by its timer, `tick` fires it from
another thread and takes it from the heap before the functor runs, and no push
or refresh disturbs `tick`. -/
def Tidy (s : ConnectionLife C) : Happening C → Prop
  | .handleRead c time sent => c ∈ s.connections →
      ¬ (s.tim c = true ∧ s.race.heap.index c = -2) →
        (s.tim c = true → s.race.Undisturbed (.refresh c time)) ∧
          ∀ written, sent = some written → s.TidyFinish c written
  | .handleWrite c written => c ∈ s.connections → s.TidyFinish c written
  | .tick inLoop => ∀ cur c, s.race.pc = .callback cur c → inLoop = false
  | .functor c => c ∈ s.functors → s.race.pc.held ≠ some c
  | _ => True

end Steps

/-- Every timer in the heap belongs to a connection of the server, and
`handleClose` has run at most once for a connection. -/
structure Alive (s : ConnectionLife C) : Prop where
  timers : ∀ c ∈ s.race.heap.timers, c ∈ s.connections
  once : s.closed.Nodup

/-- What a tidy run keeps.  A functor waits for a connection whose timer has
been taken from the heap, or is about to be. -/
structure Sound (s : ConnectionLife C) : Prop where
  race : s.race.Sound
  pushed : s.race.pushed.Nodup
  tim : ∀ c ∈ s.race.pushed, s.tim c = true
  timers : ∀ c ∈ s.race.heap.timers, c ∈ s.connections
  connections : s.connections.Nodup
  closed : s.closed.Nodup
  erased : ∀ c ∈ s.closed, c ∉ s.connections
  functors : s.functors.Nodup
  waiting : ∀ c ∈ s.functors, c ∈ s.connections ∧
    (c ∈ s.race.taken.map Prod.fst ∨ ∃ cur, s.race.pc = .popTimer cur c)

variable {s : ConnectionLife C} {c : C}

theorem sound_init (capacity : Nat) (expire : C → Int) :
    (init capacity expire).Sound where
  race := TimerRace.sound_init capacity expire
  pushed := List.nodup_nil
  tim := by simp [init, TimerRace.init]
  timers := by simp [init, TimerRace.init, TimerHeap.init, TimerHeap.timers,
    contents]
  connections := List.nodup_nil
  closed := List.nodup_nil
  erased := by simp [init]
  functors := List.nodup_nil
  waiting := by simp [init]

theorem Sound.alive (hs : s.Sound) : s.Alive :=
  ⟨hs.timers, hs.closed⟩

/-- A timer leaves the heap once. -/
theorem Sound.taken_or_timer (hs : s.Sound) :
    (s.race.taken.map Prod.fst ++ s.race.heap.timers).Nodup :=
  hs.race.faithful.kept.nodup_iff.mpr hs.pushed

theorem Sound.tim_of_timer (hs : s.Sound) (hc : c ∈ s.race.heap.timers) :
    s.tim c = true :=
  hs.tim c (hs.race.faithful.kept.mem_iff.mp (List.mem_append_right _ hc))

theorem Sound.held_timer (hs : s.Sound) (hheld : s.race.pc.held = some c) :
    c ∈ s.race.heap.timers := by
  obtain ⟨hne, htop⟩ := hs.race.held c hheld
  exact TimerHeap.mem_timers.mpr ⟨0, Nat.pos_of_ne_zero hne, htop⟩

/-- A connection without a timer has nothing in the heap and no functor. -/
theorem Sound.of_tim_false (hs : s.Sound) (htim : s.tim c = false) :
    c ∉ s.race.heap.timers ∧ c ∉ s.functors := by
  have hpushed : c ∉ s.race.pushed := by
    intro hmem
    rw [hs.tim c hmem] at htim
    cases htim
  have htimers : c ∉ s.race.heap.timers := by
    intro hmem
    rw [hs.tim_of_timer hmem] at htim
    cases htim
  refine ⟨htimers, ?_⟩
  intro hmem
  rcases (hs.waiting c hmem).2 with htaken | ⟨cur, hpc⟩
  · exact hpushed (hs.race.faithful.kept.mem_iff.mp
      (List.mem_append_left _ htaken))
  · exact htimers (hs.held_timer (by rw [hpc]; rfl))

/-- A connection whose functor waits, and that `tick` does not hold, has its
timer taken. -/
theorem Sound.of_functor (hs : s.Sound) (hc : c ∈ s.functors)
    (hheld : s.race.pc.held ≠ some c) : c ∉ s.race.heap.timers := by
  rcases (hs.waiting c hc).2 with htaken | ⟨cur, hpc⟩
  · exact (List.disjoint_of_nodup_append hs.taken_or_timer) htaken
  · rw [hpc] at hheld
    exact absurd rfl hheld

/-- The heap and `tick` change, and the connections do not. -/
theorem Sound.withRace (hs : s.Sound) {race : TimerRace C}
    (hrace : race.Sound) (hpushed : race.pushed = s.race.pushed)
    (htimers : ∀ c ∈ race.heap.timers, c ∈ s.race.heap.timers)
    (hwaiting : ∀ c ∈ s.functors, c ∈ race.taken.map Prod.fst ∨
      ∃ cur, race.pc = .popTimer cur c) :
    ({ s with race := race } : ConnectionLife C).Sound where
  race := hrace
  pushed := hpushed ▸ hs.pushed
  tim := hpushed ▸ hs.tim
  timers := fun c hc => hs.timers c (htimers c hc)
  connections := hs.connections
  closed := hs.closed
  erased := hs.erased
  functors := hs.functors
  waiting := fun c hc => ⟨(hs.waiting c hc).1, hwaiting c hc⟩

theorem Sound.accept (hs : s.Sound) (hnew : c ∉ s.connections)
    (hopen : c ∉ s.closed) :
    ({ s with
      connections := s.connections ++ [c] } : ConnectionLife C).Sound := by
  refine ⟨hs.race, hs.pushed, hs.tim, ?_, ?_, hs.closed, ?_, hs.functors, ?_⟩
  · intro other hother
    exact List.mem_append_left _ (hs.timers other hother)
  · rw [← List.concat_eq_append]
    exact hs.connections.concat hnew
  · intro other hother hmem
    rcases List.mem_append.mp hmem with hold | hlast
    · exact hs.erased other hother hold
    · rw [List.mem_singleton.mp hlast] at hother
      exact hopen hother
  · intro other hother
    obtain ⟨hconn, hwhere⟩ := hs.waiting other hother
    exact ⟨List.mem_append_left _ hconn, hwhere⟩

/-- Before `popTimer`, the functors wait for connections whose timers have been
taken. -/
theorem Sound.taken_of_waiting (hs : s.Sound)
    (hpc : ∀ cur c, s.race.pc ≠ .popTimer cur c) :
    ∀ c ∈ s.functors, c ∈ s.race.taken.map Prod.fst := by
  intro c hc
  rcases (hs.waiting c hc).2 with htaken | ⟨cur, hpop⟩
  · exact htaken
  · exact absurd hpop (hpc cur c)

variable [DecidableEq C]

theorem move_eq {m : Move C} {race : TimerRace C}
    (hrun : s.race.step m = some race) :
    s.move m = some { s with race := race } := by
  rw [move, hrun]
  rfl

/-- `handleClose` of a connection that has neither timer nor functor. -/
theorem Sound.handleClose (hs : s.Sound) (hc : c ∈ s.connections)
    (htimer : c ∉ s.race.heap.timers) (hfunctor : c ∉ s.functors) :
    ∃ next, s.handleClose c = some next ∧ next.Sound := by
  refine ⟨_, if_pos hc, hs.race, hs.pushed, hs.tim, ?_,
    hs.connections.erase c, ?_, ?_, hs.functors, ?_⟩
  · intro other hother
    refine (List.mem_erase_of_ne ?_).mpr (hs.timers other hother)
    rintro rfl
    exact htimer hother
  · rw [← List.concat_eq_append]
    exact hs.closed.concat fun hmem => hs.erased c hmem hc
  · intro other hother hmem
    rcases List.mem_append.mp hother with hold | hnew
    · exact hs.erased other hold (List.mem_of_mem_erase hmem)
    · rw [List.mem_singleton.mp hnew] at hmem
      exact hs.connections.not_mem_erase hmem
  · intro other hother
    obtain ⟨hconn, hwhere⟩ := hs.waiting other hother
    refine ⟨(List.mem_erase_of_ne ?_).mpr hconn, hwhere⟩
    rintro rfl
    exact hfunctor hother

theorem Sound.refresh (hs : s.Sound) {time : Int}
    (hcalm : s.race.Undisturbed (.refresh c time)) :
    ∃ race, s.move (.refresh c time) = some { s with race := race } ∧
      ({ s with race := race } : ConnectionLife C).Sound := by
  obtain ⟨heap, hrun, hsound⟩ := hs.race.refresh hcalm
  refine ⟨_, move_eq hrun, hs.withRace hsound rfl ?_ ?_⟩
  · intro other hother
    have hperm := hs.race.faithful.timers_perm hsound.faithful
      (List.append_nil _).symm (List.append_nil _).symm
    rw [List.append_nil] at hperm
    exact hperm.mem_iff.mp hother
  · intro other hother
    exact (hs.waiting other hother).2

/-- The first response of a connection that is kept alive pushes its timer. -/
theorem Sound.push (hs : s.Sound) (hc : c ∈ s.connections)
    (htim : s.tim c = false) (hcalm : s.race.Undisturbed (.push c)) :
    ∃ next, s.finish c .keepAlive = some next ∧ next.Sound := by
  obtain ⟨heap, hrun, hsound⟩ := hs.race.push hcalm
  have hfinish : s.finish c .keepAlive = some { s with
      race := { s.race with
        heap := heap
        pushed := s.race.pushed ++ [c] }
      tim := Function.update s.tim c true } := by
    rw [finish, if_neg (by simp [htim]), move_eq hrun]
    rfl
  have hnew : c ∉ s.race.pushed := by
    intro hmem
    rw [hs.tim c hmem] at htim
    cases htim
  refine ⟨_, hfinish, hsound, ?_, ?_, ?_, hs.connections, hs.closed,
    hs.erased, hs.functors, hs.waiting⟩
  · change (s.race.pushed ++ [c]).Nodup
    rw [← List.concat_eq_append]
    exact hs.pushed.concat hnew
  · intro other hother
    by_cases hsame : other = c
    · rw [hsame]
      exact Function.update_self _ _ _
    · rcases List.mem_append.mp hother with hold | hmem
      · change Function.update s.tim c true other = true
        rw [Function.update_of_ne hsame]
        exact hs.tim other hold
      · exact absurd (List.mem_singleton.mp hmem) hsame
  · intro other hother
    have hperm := hs.race.faithful.timers_perm hsound.faithful
      (List.append_nil _).symm rfl
    rcases List.mem_append.mp (hperm.mem_iff.mp hother) with hold | hmem
    · exact hs.timers other hold
    · rw [List.mem_singleton.mp hmem]
      exact hc

theorem Sound.finish (hs : s.Sound) (hc : c ∈ s.connections)
    {written : Written} (htidy : s.TidyFinish c written) :
    ∃ next, s.finish c written = some next ∧ next.Sound := by
  cases written with
  | partly => exact ⟨s, rfl, hs⟩
  | close =>
      obtain ⟨htimer, hfunctor⟩ := hs.of_tim_false htidy
      exact hs.handleClose hc htimer hfunctor
  | keepAlive =>
      cases htim : s.tim c with
      | false => exact hs.push hc htim (htidy htim)
      | true =>
          refine ⟨s, ?_, hs⟩
          rw [ConnectionLife.finish, if_pos htim]

theorem Sound.handleRead (hs : s.Sound) {time : Int} {sent : Option Written}
    (hc : c ∈ s.connections)
    (htidy : s.Tidy (.handleRead c time sent)) :
    ∃ next, s.handleRead c time sent = some next ∧ next.Sound := by
  rw [ConnectionLife.handleRead]
  split
  · exact ⟨s, rfl, hs⟩
  · case isFalse hlive =>
      obtain ⟨hcalm, hfinish⟩ := htidy hc hlive
      split
      · case isTrue htim =>
          -- It keeps its timer, so the response can only be kept alive.
          obtain ⟨race, hrun, hsound⟩ := hs.refresh (hcalm htim)
          rw [hrun, Option.bind_some]
          cases sent with
          | none => exact ⟨_, rfl, hsound⟩
          | some written =>
              refine hsound.finish hc ?_
              cases written with
              | partly => trivial
              | close => exact hfinish _ rfl
              | keepAlive =>
                  intro hfalse
                  exact absurd htim (by rw [hfalse]; simp)
      · rw [Option.bind_some]
        cases sent with
        | none => exact ⟨s, rfl, hs⟩
        | some written => exact hs.finish hc (hfinish written rfl)

theorem tick_eq_move {inLoop : Bool}
    (hpc : ∀ cur c, s.race.pc ≠ .callback cur c) :
    s.tick inLoop = s.move .tick := by
  rw [tick]
  split
  · case h_1 cur c hcallback => exact absurd hcallback (hpc cur c)
  · rfl

/-- The callback of a timer that `tick` fires from another thread. -/
theorem Sound.callback (hs : s.Sound) {cur : Int}
    (hpc : s.race.pc = .callback cur c) :
    ∃ next, s.tick false = some next ∧ next.Sound := by
  have hrun : s.race.step .tick = some { s.race with
      pc := .popTimer cur c } := by
    change s.race.tick = _
    rw [TimerRace.tick, hpc]
  have htick : s.tick false = some { s with
      functors := s.functors ++ [c]
      race := { s.race with pc := .popTimer cur c } } := by
    rw [tick, hpc]
    simp only []
    rw [handleTimerCb, if_neg (by simp), Option.bind_some]
    exact move_eq (s := { s with functors := s.functors ++ [c] }) hrun
  have hheld : s.race.pc.held = some c := by
    rw [hpc]
    rfl
  have htimer := hs.held_timer hheld
  have hwhere := hs.taken_of_waiting (by simp [hpc])
  have hnew : c ∉ s.functors := by
    intro hmem
    exact List.disjoint_of_nodup_append hs.taken_or_timer (hwhere c hmem)
      htimer
  refine ⟨_, htick, ?_, hs.pushed, hs.tim, hs.timers, hs.connections,
    hs.closed, hs.erased, ?_, ?_⟩
  · apply hs.race.goTo
    intro timer htimer
    exact hs.race.held timer (hheld.trans htimer)
  · rw [← List.concat_eq_append]
    exact hs.functors.concat hnew
  · intro other hother
    rcases List.mem_append.mp hother with hold | hmem
    · exact ⟨(hs.waiting other hold).1, Or.inl (hwhere other hold)⟩
    · rw [List.mem_singleton.mp hmem]
      exact ⟨hs.timers c htimer, Or.inr ⟨cur, rfl⟩⟩

theorem Sound.tick (hs : s.Sound) {inLoop : Bool}
    (htidy : s.Tidy (.tick inLoop)) :
    ∃ next, s.tick inLoop = some next ∧ next.Sound := by
  by_cases hcallback : ∃ cur c, s.race.pc = .callback cur c
  · obtain ⟨cur, c, hpc⟩ := hcallback
    rw [htidy cur c hpc]
    exact hs.callback hpc
  · have hpc : ∀ cur c, s.race.pc ≠ .callback cur c := fun cur c hpc =>
      hcallback ⟨cur, c, hpc⟩
    rw [tick_eq_move hpc]
    rcases hs.race.tick_cases with ⟨pc, hrun, hsound, hnot, _⟩ |
      ⟨cur, timer, heap, hpop, hrun, hsound⟩
    · refine ⟨_, move_eq hrun, hs.withRace hsound rfl (fun _ hc => hc) ?_⟩
      intro other hother
      exact Or.inl (hs.taken_of_waiting hnot other hother)
    · refine ⟨_, move_eq hrun, hs.withRace hsound rfl ?_ ?_⟩
      · intro other hother
        have hperm := hs.race.faithful.timers_perm hsound.faithful rfl
          (List.append_nil _).symm
        rw [List.append_nil] at hperm
        exact hperm.mem_iff.mp (List.mem_append_right _ hother)
      · intro other hother
        left
        change other ∈ (s.race.taken ++ [(timer, some timer)]).map Prod.fst
        rw [List.map_append, List.mem_append]
        rcases (hs.waiting other hother).2 with htaken | ⟨_, hpop'⟩
        · exact Or.inl htaken
        · rw [hpop] at hpop'
          cases hpop'
          exact Or.inr List.mem_cons_self

theorem Sound.functor (hs : s.Sound) (hc : c ∈ s.functors)
    (hheld : s.race.pc.held ≠ some c) :
    ∃ next, s.step (.functor c) = some next ∧ next.Sound := by
  have htaken : ({ s with
      functors := s.functors.erase c } : ConnectionLife C).Sound :=
    ⟨hs.race, hs.pushed, hs.tim, hs.timers, hs.connections, hs.closed,
      hs.erased, hs.functors.erase c, fun other hother =>
        hs.waiting other (List.mem_of_mem_erase hother)⟩
  rw [step, if_pos hc]
  exact htaken.handleClose (hs.waiting c hc).1 (hs.of_functor hc hheld)
    hs.functors.not_mem_erase

theorem Sound.alarm (hs : s.Sound) (cur : Int) :
    ∃ next, s.step (.alarm cur) = some next ∧ next.Sound := by
  rw [step, move, TimerRace.step]
  cases hpc : s.race.pc with
  | idle =>
      have hsound : ({ s.race with pc := .empty cur } : TimerRace C).Sound :=
        hs.race.goTo (by simp [TickPc.held])
      refine ⟨_, rfl, hs.withRace hsound rfl (fun _ hc => hc) ?_⟩
      intro other hother
      exact Or.inl (hs.taken_of_waiting (by simp [hpc]) other hother)
  | _ => exact ⟨s, rfl, hs⟩

theorem Sound.step (hs : s.Sound) {h : Happening C} (htidy : s.Tidy h) :
    ∃ next, s.step h = some next ∧ next.Sound := by
  cases h with
  | accept c =>
      rw [ConnectionLife.step]
      split
      · exact ⟨s, rfl, hs⟩
      · case isFalse hnew =>
          obtain ⟨hconn, hclosed⟩ := not_or.mp hnew
          exact ⟨_, rfl, hs.accept hconn hclosed⟩
  | handleRead c time sent =>
      rw [ConnectionLife.step]
      split
      · case isTrue hc => exact hs.handleRead hc htidy
      · exact ⟨s, rfl, hs⟩
  | handleWrite c written =>
      rw [ConnectionLife.step]
      split
      · case isTrue hc => exact hs.finish hc (htidy hc)
      · exact ⟨s, rfl, hs⟩
  | alarm cur => exact hs.alarm cur
  | tick inLoop => exact hs.tick htidy
  | functor c =>
      by_cases hc : c ∈ s.functors
      · exact hs.functor hc (htidy hc)
      · exact ⟨s, by rw [ConnectionLife.step, if_neg hc], hs⟩

/-- In a tidy run every timer in the heap belongs to a connection of the server,
and a connection is closed once. -/
theorem connection_closed_once (capacity : Nat) (expire : C → Int)
    (happenings : List (Happening C))
    (htidy : Along ConnectionLife.step Tidy (init capacity expire)
      happenings) :
    Always ConnectionLife.step Alive (init capacity expire) happenings :=
  (Always.of_along (fun _ _ hs htidy => Sound.step hs htidy)
    (sound_init capacity expire) htidy).mono fun _ hs => hs.alive

/-! ### One connection -/

def only (heap : TimerHeap Unit) (pc : TickPc Unit)
    (taken : List (Unit × Option Unit)) (functors : List Unit) :
    ConnectionLife Unit :=
  ⟨⟨heap, pc, [()], taken⟩, fun _ => true, [()], functors, []⟩

def accepted : ConnectionLife Unit :=
  ⟨TimerRace.init 1 fun _ => 0, fun _ => false, [()], [], []⟩

/-- The first request is answered and keeps the connection alive. -/
theorem step_keepAlive :
    accepted.step (.handleRead () 30 (some .keepAlive)) =
      some (only HeapSharing.onlyPushed .idle [] []) := by
  have hpush : accepted.race.step (.push ()) =
      some ⟨HeapSharing.onlyPushed, .idle, [()], []⟩ :=
    TimerRace.step_push HeapSharing.pushTimer_only
  change (accepted.move (.push ())).map _ = _
  rw [move_eq hpush]
  rfl

theorem step_pop :
    step (only HeapSharing.onlyPushed (.popTimer 0 ()) [] [()])
        (.tick false) =
      some (only HeapSharing.onlyPopped (.empty 0) [((), some ())] [()]) := by
  have htick : TimerRace.tick ⟨HeapSharing.onlyPushed, .popTimer 0 (),
      [()], []⟩ = some ⟨HeapSharing.onlyPopped, .empty 0, [()],
        [((), some ())]⟩ :=
    TimerRace.tick_popTimer (s := ⟨_, _, _, _⟩) rfl rfl
      HeapSharing.popTimer_only
  exact move_eq (s := only HeapSharing.onlyPushed (.popTimer 0 ()) [] [()])
    (m := .tick) htick

theorem connection_closed_once_byTimer :
    Along step Tidy (init 1 fun _ => 0)
        [.accept (), .handleRead () 30 (some .keepAlive), .alarm 0,
          .tick false, .tick false, .tick false, .tick false,
          .functor ()] ∧
      Always step Alive (init 1 fun _ => 0)
        [.accept (), .handleRead () 30 (some .keepAlive), .alarm 0,
          .tick false, .tick false, .tick false, .tick false,
          .functor ()] := by
  have htidy : Along step Tidy (init 1 fun _ => 0)
      [.accept (), .handleRead () 30 (some .keepAlive), .alarm 0,
        .tick false, .tick false, .tick false, .tick false,
        .functor ()] := by
    have hread : accepted.Tidy (.handleRead () 30 (some .keepAlive)) := by
      intro _ _
      refine ⟨by simp [accepted], ?_⟩
      rintro written hsent
      cases hsent
      exact fun _ => ⟨by decide, by simp [accepted, TimerRace.init,
        TickPc.held]⟩
    refine .cons trivial rfl (.cons hread step_keepAlive ?_)
    refine .cons trivial rfl (.cons (fun _ _ _ => rfl) rfl ?_)
    refine .cons (fun _ _ _ => rfl) rfl (.cons (fun _ _ _ => rfl) rfl ?_)
    refine .cons (fun _ _ _ => rfl) step_pop ⟨?_, fun _ _ => trivial⟩
    simp [Tidy, only, TickPc.held]
  exact ⟨htidy, connection_closed_once 1 _ _ htidy⟩

theorem refresh_only :
    HeapSharing.onlyPushed.refresh () 30 = some { HeapSharing.onlyPushed with
      expire := fun _ => 30 } := by
  simp only [TimerHeap.refresh, HeapSharing.onlyPushed]
  rw [TimerHeap.down]
  simp [TimerHeap.childOf]
  rfl

/-- The second one closes it. -/
theorem step_close :
    (only HeapSharing.onlyPushed .idle [] []).step
        (.handleRead () 30 (some .close)) =
      some ⟨⟨{ HeapSharing.onlyPushed with expire := fun _ => 30 }, .idle,
        [()], []⟩, fun _ => true, [], [], [()]⟩ := by
  have hrefresh := move_eq (s := only HeapSharing.onlyPushed .idle [] [])
    (TimerRace.step_refresh refresh_only)
  change ((only HeapSharing.onlyPushed .idle [] []).move
    (.refresh () 30)).bind _ = _
  rw [hrefresh]
  rfl

/-- A second request that closes the connection leaves its timer in the
heap. -/
theorem connection_closed_with_timer :
    ¬ Always step Alive (init 1 fun _ => 0)
      [.accept (), .handleRead () 30 (some .keepAlive),
        .handleRead () 30 (some .close)] := by
  intro halways
  obtain ⟨final, hrun, halive⟩ := halways.final
  change (accepted.step (.handleRead () 30 (some .keepAlive))).bind _ =
    some final at hrun
  rw [step_keepAlive, Option.bind_some, run_cons, step_close,
    Option.bind_some, run_nil] at hrun
  cases hrun
  have hmem := halive.timers () (TimerHeap.mem_timers.mpr ⟨0, by decide, rfl⟩)
  cases hmem

end ConnectionLife

end Sone

end LinuxTest
