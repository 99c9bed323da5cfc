/-
The server on its event loops: every connection goes to the loop of its
descriptor, registers there once it is established, asks for write events while
an answer is unfinished, and is removed before its descriptor is closed.  A
connection that is closed before its keep-alive timer leaves the timer behind.
-/
import LinuxTest.Epoller
import LinuxTest.TimerLock

namespace LinuxTest

namespace Sone

/-- What a dispatcher belongs to: an event loop's own descriptor or the
listening socket; or a connection that is accepted, established, or closed and
not yet destroyed. -/
inductive Stage where
  | own
  | pending
  | established (writing : Bool)
  | closing
deriving DecidableEq

/-- The loops with their dispatchers, told by the stage of each, and the
connections with a timer whose callback is still to come: nothing else takes a
timer from the heap. -/
structure ServerLoops (D : Type) where
  reactor : Reactor Nat D
  stage : D → Option Stage
  timer : D → Bool

/-- What can happen.  The descriptors are those the kernel hands out, and the
dispatchers new ones. -/
inductive LoopEvent (D : Type) where
  | newLoop (d : D) (fd loop : Nat)
  | accept (d : D) (fd : Nat)
  | connecionEstablished (d : D)
  | send (d : D) (written : Written)
  | handleWrite (d : D) (written : Written)
  | handleTimerCb (d : D)
  | destroy (d : D)
  | epoll (loop : Nat) (ready : List (Nat × BitVec 32))

namespace ServerLoops

variable {D : Type}

def init : ServerLoops D := ⟨Reactor.init, fun _ => none, fun _ => false⟩

/-- `eventloopThreadPool::getLoop`; without threads there is none. -/
def getLoop (threadNums fd : Nat) : Option Nat :=
  if threadNums = 0 then none else some (fd % threadNums)

variable [DecidableEq D]

/-- The next stage of a dispatcher, with the loops as they are now. -/
def advance (s : ServerLoops D) (d : D) (stage : Option Stage)
    (reactor : Reactor Nat D) : ServerLoops D :=
  { s with
    reactor := reactor
    stage := Function.update s.stage d stage }

def setTimer (s : ServerLoops D) (d : D) (timer : Bool) : ServerLoops D :=
  { s with timer := Function.update s.timer d timer }

def handleClose (s : ServerLoops D) (d : D) : Option (ServerLoops D) :=
  (s.reactor.delDispatcher d).map (s.advance d (some .closing))

/-- The end of `send`. -/
def send (s : ServerLoops D) (d : D) : Written → Option (ServerLoops D)
  | .partly => (s.reactor.enableWriting d).map
      (s.advance d (some (.established true)))
  | .close => s.handleClose d
  | .keepAlive => some (s.setTimer d true)

def handleWrite (s : ServerLoops D) (d : D) : Written → Option (ServerLoops D)
  | .partly => some s
  | .close => s.handleClose d
  | .keepAlive => (s.reactor.disableWriting d).map
      ((s.setTimer d true).advance d (some (.established false)))

/-- The callback of a timer, when the loop has come to the `handleClose` that it
hands over.  Once its connection is closed, `onClose` erases the end of the
list, and once it is destroyed, the callback runs on freed memory. -/
def handleTimerCb (s : ServerLoops D) (d : D) : Option (ServerLoops D) :=
  match s.stage d with
  | some (.established _) => (s.setTimer d false).handleClose d
  | _ => none

/-- `~TcpConnection`: the dispatcher is deleted, then the socket closed. -/
def destroy (s : ServerLoops D) (d : D) : Option (ServerLoops D) := do
  let x ← s.reactor.dispatchers d
  let reactor ← run Reactor.step s.reactor [.delete d, .close x.fd]
  return s.advance d none reactor

/-- An event that cannot happen in the stage of its dispatcher, or without a
timer, changes nothing. -/
def step (threadNums : Nat) (s : ServerLoops D) :
    LoopEvent D → Option (ServerLoops D)
  | .newLoop d fd loop =>
      if s.reactor.opened fd = false ∧ s.stage d = none then
        (run Reactor.step s.reactor
          [.opens fd, .construct d fd loop, .enableReading d]).map
            (s.advance d (some .own))
      else some s
  | .accept d fd =>
      if s.reactor.opened fd = false ∧ s.stage d = none ∧
          s.timer d = false then do
        let loop ← getLoop threadNums fd
        let reactor ← run Reactor.step s.reactor
          [.opens fd, .construct d fd loop]
        return s.advance d (some .pending) reactor
      else some s
  | .connecionEstablished d =>
      match s.stage d with
      | some .pending => (s.reactor.enableReading d).map
          (s.advance d (some (.established false)))
      | _ => some s
  | .send d written =>
      match s.stage d with
      | some (.established _) => s.send d written
      | _ => some s
  | .handleWrite d written =>
      match s.stage d with
      | some (.established true) => s.handleWrite d written
      | _ => some s
  | .handleTimerCb d => if s.timer d then s.handleTimerCb d else some s
  | .destroy d =>
      match s.stage d with
      | some .closing => s.destroy d
      | _ => some s
  | .epoll loop ready => (s.reactor.epoll loop ready).map fun r =>
      { s with reactor := r.2 }

end ServerLoops

/-! ### What the stages say -/

namespace Stage

/-- The dispatcher is in its loop's tables. -/
def registered : Stage → Prop
  | own => True
  | established _ => True
  | _ => False

/-- The events the dispatcher asks for; after the removal they do not matter. -/
def asks : Stage → BitVec 32 → Prop
  | own, events => events = EPOLLIN
  | pending, events => events = 0
  | established false, events => events = EPOLLIN
  | established true, events => events = EPOLLIN ||| EPOLLOUT
  | closing, _ => True

end Stage

namespace ServerLoops

variable {D : Type}

/-- A dispatcher `x` at `d` is as its stage says. -/
structure Fits (threadNums : Nat) (r : Reactor Nat D) (d : D)
    (x : Dispatcher Nat) (stage : Stage) : Prop where
  opened : r.opened x.fd = true
  loop : stage ≠ .own → x.loop = x.fd % threadNums
  map : r.dispatcher_map x.loop x.fd = some d ↔ stage.registered
  asks : stage ≠ .closing → stage.asks x.events
  quiet : x.revents &&& EPOLLRDHUP = 0

/-- The tables are in step, the dispatchers are as their stages say, and no two
have one descriptor. -/
structure Sound (threadNums : Nat) (s : ServerLoops D) : Prop where
  synced : s.reactor.Synced
  known : ∀ d, s.stage d = none ↔ s.reactor.dispatchers d = none
  fits : ∀ d x stage, s.reactor.dispatchers d = some x →
    s.stage d = some stage → Fits threadNums s.reactor d x stage
  apart : ∀ d x other y, s.reactor.dispatchers d = some x →
    s.reactor.dispatchers other = some y → x.fd = y.fd → d = other

/-- Only the dispatcher `d` and the descriptor `fd` are changed. -/
structure Frame (r next : Reactor Nat D) (d : D) (fd : Nat) : Prop where
  dispatchers : ∀ other, other ≠ d →
    next.dispatchers other = r.dispatchers other
  map : ∀ loop m, m ≠ fd → next.dispatcher_map loop m = r.dispatcher_map loop m
  opened : ∀ m, m ≠ fd → next.opened m = r.opened m

variable {s : ServerLoops D} {d : D} {x : Dispatcher Nat} {fd threadNums : Nat}
  {r : Reactor Nat D}

theorem sound_init : (init : ServerLoops D).Sound threadNums where
  synced := Reactor.synced_init
  known _ := iff_of_true rfl rfl
  fits _ _ _ hx := by cases hx
  apart _ _ _ _ hx := by cases hx

variable [DecidableEq D]

/-- The new dispatcher at `d`, or none, fits its new stage. -/
theorem Sound.advance (hs : s.Sound threadNums) (hsynced : r.Synced)
    (hframe : Frame s.reactor r d fd)
    (halone : ∀ other y, other ≠ d → s.reactor.dispatchers other = some y →
      y.fd ≠ fd) {stage : Option Stage}
    (hnone : stage = none ↔ r.dispatchers d = none)
    (hfits : ∀ x now, r.dispatchers d = some x → stage = some now →
      x.fd = fd ∧ Fits threadNums r d x now) :
    (s.advance d stage r).Sound threadNums := by
  refine ⟨hsynced, ?_, ?_, ?_⟩
  · intro other
    by_cases hother : other = d
    · subst hother
      simpa [ServerLoops.advance] using hnone
    · simp only [ServerLoops.advance, Function.update_of_ne hother]
      rw [hframe.dispatchers other hother]
      exact hs.known other
  · intro other y now hy hnow
    by_cases hother : other = d
    · subst hother
      simp only [ServerLoops.advance, Function.update_self] at hnow
      exact (hfits y now hy hnow).2
    · simp only [ServerLoops.advance, Function.update_of_ne hother] at hnow hy
      rw [hframe.dispatchers other hother] at hy
      have hfd := halone other y hother hy
      have hold := hs.fits other y now hy hnow
      refine ⟨?_, hold.loop, ?_, hold.asks, hold.quiet⟩
      · exact (hframe.opened y.fd hfd).trans hold.opened
      · change r.dispatcher_map y.loop y.fd = some other ↔ _
        rw [hframe.map y.loop y.fd hfd]
        exact hold.map
  · have hfd : ∀ a y, r.dispatchers a = some y → a ≠ d → y.fd ≠ fd := by
      intro a y hy ha
      rw [hframe.dispatchers a ha] at hy
      exact halone a y ha hy
    have hsame : ∀ y, r.dispatchers d = some y → y.fd = fd := by
      intro y hy
      cases hstage : stage with
      | none =>
          rw [hnone.mp hstage] at hy
          cases hy
      | some now => exact (hfits y now hy hstage).1
    intro a y b z hy hz heq
    by_cases ha : a = d
    · subst ha
      by_cases hb : b = a
      · exact hb.symm
      · exact absurd (heq ▸ hsame y hy) (hfd b z hz hb)
    · by_cases hb : b = d
      · subst hb
        exact absurd (heq.trans (hsame z hz)) (hfd a y hy ha)
      · change r.dispatchers a = some y at hy
        change r.dispatchers b = some z at hz
        rw [hframe.dispatchers a ha] at hy
        rw [hframe.dispatchers b hb] at hz
        exact hs.apart a y b z hy hz heq

/-! ### What the loops do -/

theorem frame_register (r : Reactor Nat D) (d : D) (x : Dispatcher Nat) :
    Frame r (r.register d x) d x.fd where
  dispatchers other hother := Function.update_of_ne hother _ _
  map loop m hm := by
    refine (Reactor.dispatcher_map_setMap (some d) loop m).trans ?_
    exact if_neg fun heq => hm heq.2
  opened _ _ := rfl

omit [DecidableEq D] in
theorem frame_forget (r : Reactor Nat D) (d : D) (loop fd : Nat) :
    Frame r (r.forget loop fd) d fd where
  dispatchers _ _ := rfl
  map other m hm := by
    refine (Reactor.dispatcher_map_setMap none other m).trans ?_
    exact if_neg fun heq => hm heq.2
  opened _ _ := rfl

omit [DecidableEq D] in
/-- A dispatcher in a stage is there, and alone has its descriptor. -/
theorem Sound.exists_dispatcher (hs : s.Sound threadNums) {stage : Stage}
    (hstage : s.stage d = some stage) :
    ∃ x, s.reactor.dispatchers d = some x ∧
      Fits threadNums s.reactor d x stage ∧
      (∀ other y, other ≠ d → s.reactor.dispatchers other = some y →
        y.fd ≠ x.fd) ∧
      ∀ loop other, s.reactor.dispatcher_map loop x.fd = some other →
        other = d := by
  cases hx : s.reactor.dispatchers d with
  | none =>
      rw [(hs.known d).mpr hx] at hstage
      cases hstage
  | some x =>
      refine ⟨x, rfl, hs.fits d x stage hx hstage, ?_, ?_⟩
      · intro other y hother hy heq
        exact hother (hs.apart other y d x hy hx heq)
      · intro loop other hmap
        obtain ⟨y, hy, _, hfd⟩ := hs.synced.own loop x.fd other hmap
        exact hs.apart other y d x hy hx hfd

omit [DecidableEq D] in
/-- The timers do not matter to the tables. -/
theorem Sound.with_timer (hs : s.Sound threadNums) (timer : D → Bool) :
    Sound threadNums { s with timer := timer } :=
  ⟨hs.synced, hs.known, hs.fits, hs.apart⟩

theorem Sound.setTimer (hs : s.Sound threadNums) (d : D) (timer : Bool) :
    (s.setTimer d timer).Sound threadNums :=
  hs.with_timer _

/-- A registered stage is entered by a change of events. -/
theorem Sound.change (hs : s.Sound threadNums) {old new : Stage}
    (hstage : s.stage d = some old) (hopen : old ≠ .closing)
    (howned : old ≠ .own) {f : BitVec 32 → BitVec 32} (hnew : new.registered)
    (hasks : ∀ events, old.asks events → new.asks (f events)) :
    ∃ next, (s.reactor.changeEvents d f).map (s.advance d (some new)) =
      some next ∧ next.Sound threadNums := by
  obtain ⟨x, hx, hfits, halone, hown⟩ := hs.exists_dispatcher hstage
  have hchange := Reactor.changeEvents_eq (f := f) hs.synced hx hfits.opened
    (hown x.loop)
  have hsynced : (s.reactor.register d
      { x with events := f x.events }).Synced :=
    hs.synced.register hx rfl rfl hfits.opened
  refine ⟨s.advance d (some new) (s.reactor.register d
    { x with events := f x.events }), by rw [hchange]; rfl, hs.advance hsynced
      (frame_register s.reactor d { x with events := f x.events }) halone ?_ ?_⟩
  · simp [Reactor.register, Reactor.setInterest, Reactor.setMap,
      Reactor.setDispatcherAt]
  · intro y now hy hnow
    cases hnow
    have hat : (s.reactor.register d
        { x with events := f x.events }).dispatchers d =
          some { x with events := f x.events } := Function.update_self _ _ _
    rw [hat] at hy
    cases hy
    refine ⟨rfl, hfits.opened, fun _ => hfits.loop howned, ?_,
      fun _ => hasks x.events (hfits.asks hopen), hfits.quiet⟩
    refine iff_of_true ?_ hnew
    refine (Reactor.dispatcher_map_setMap (some d) x.loop x.fd).trans ?_
    exact if_pos ⟨rfl, rfl⟩

/-- A connection that closes leaves the tables. -/
theorem Sound.handleClose (hs : s.Sound threadNums) {old : Stage}
    (hstage : s.stage d = some old) (howned : old ≠ .own) :
    ∃ next, s.handleClose d = some next ∧ next.Sound threadNums := by
  obtain ⟨x, hx, hfits, halone, hown⟩ := hs.exists_dispatcher hstage
  have hafter : ∀ (r : Reactor Nat D), r.Synced → Frame s.reactor r d x.fd →
      r.dispatchers d = some x → r.opened = s.reactor.opened →
      r.dispatcher_map x.loop x.fd = none →
        (s.advance d (some .closing) r).Sound threadNums := by
    intro r hsynced hframe hat hopened hgone
    refine hs.advance hsynced hframe halone (by simp [hat]) ?_
    intro y now hy hnow
    cases hnow
    rw [hat] at hy
    cases hy
    refine ⟨rfl, hopened ▸ hfits.opened, fun _ => hfits.loop howned, ?_,
      fun hne => absurd rfl hne, hfits.quiet⟩
    rw [hgone]
    exact iff_of_false (by simp) id
  rcases Reactor.delDispatcher_eq hs.synced hx with hforget | ⟨hsame, hgone⟩
  · refine ⟨_, by rw [ServerLoops.handleClose, hforget]; rfl, hafter _
      (hs.synced.forget x.loop x.fd) (frame_forget _ d _ _) hx rfl ?_⟩
    refine (Reactor.dispatcher_map_setMap none x.loop x.fd).trans ?_
    exact if_pos ⟨rfl, rfl⟩
  · exact ⟨_, by rw [ServerLoops.handleClose, hsame]; rfl, hafter _ hs.synced
      ⟨fun _ _ => rfl, fun _ _ _ => rfl, fun _ _ => rfl⟩ hx rfl hgone⟩

/-- A closed connection's descriptor is in no table when it is closed. -/
theorem Sound.destroy (hs : s.Sound threadNums)
    (hstage : s.stage d = some .closing) :
    ∃ next, s.destroy d = some next ∧ next.Sound threadNums := by
  obtain ⟨x, hx, hfits, halone, hown⟩ := hs.exists_dispatcher hstage
  have hout : ∀ loop fd, s.reactor.dispatcher_map loop fd ≠ some d := by
    intro loop fd hmap
    obtain ⟨rfl, rfl⟩ := hs.synced.place hx hmap
    exact hfits.map.mp hmap
  have hnone : ∀ loop, s.reactor.dispatcher_map loop x.fd = none := by
    intro loop
    cases hmap : s.reactor.dispatcher_map loop x.fd with
    | none => rfl
    | some other =>
        rw [hown loop other hmap] at hmap
        exact absurd hmap (hout loop x.fd)
  have hdeleted := hs.synced.setDispatcherAt hout none
  refine ⟨_, by rw [ServerLoops.destroy, hx]; rfl, hs.advance
    (hdeleted.close hnone) ⟨?_, fun _ _ _ => rfl, ?_⟩ halone ?_ ?_⟩
  · exact fun other hother => Function.update_of_ne hother _ _
  · exact fun m hm => Function.update_of_ne hm _ _
  · exact iff_of_true rfl (Function.update_self _ _ _)
  · intro _ _ _ hnow
    cases hnow

omit [DecidableEq D] in
/-- A descriptor that is not open belongs to no dispatcher. -/
theorem Sound.fresh (hs : s.Sound threadNums)
    (hclosed : s.reactor.opened fd = false) (other : D) (y : Dispatcher Nat)
    (hy : s.reactor.dispatchers other = some y) : y.fd ≠ fd := by
  rintro rfl
  cases hstage : s.stage other with
  | none =>
      rw [(hs.known other).mp hstage] at hy
      cases hy
  | some stage =>
      have hopen := (hs.fits other y stage hy hstage).opened
      rw [hclosed] at hopen
      cases hopen

/-- A new dispatcher on a new descriptor. -/
theorem Sound.construct (hs : s.Sound threadNums)
    (hclosed : s.reactor.opened fd = false) (hnew : s.stage d = none)
    (loop : Nat) :
    ∃ r, run Reactor.step s.reactor [.opens fd, .construct d fd loop] =
        some r ∧ r.Synced ∧ Frame s.reactor r d fd ∧
      r.dispatchers d = some (.new fd loop) ∧ r.opened fd = true ∧
      ∀ other, r.dispatcher_map other fd = none := by
  have hnone := (hs.known d).mp hnew
  have hopened := hs.synced.opens fd
  refine ⟨_, rfl, hopened.setDispatcherAt (hopened.not_registered hnone) _,
    ⟨?_, fun _ _ _ => rfl, ?_⟩, Function.update_self _ _ _,
    Function.update_self _ _ _, ?_⟩
  · exact fun other hother => Function.update_of_ne hother _ _
  · exact fun m hm => Function.update_of_ne hm _ _
  · intro other
    cases hmap : s.reactor.dispatcher_map other fd with
    | none => exact hmap
    | some a =>
        obtain ⟨y, hy, _, hfd⟩ := hs.synced.own other fd a hmap
        exact absurd hfd (hs.fresh hclosed a y hy)

theorem Sound.accept (hs : s.Sound threadNums) (hthreads : 0 < threadNums)
    (hclosed : s.reactor.opened fd = false) (hnew : s.stage d = none) :
    ∃ loop r, getLoop threadNums fd = some loop ∧
      run Reactor.step s.reactor [.opens fd, .construct d fd loop] = some r ∧
      (s.advance d (some .pending) r).Sound threadNums := by
  obtain ⟨r, hrun, hsynced, hframe, hat, hopen, hmap⟩ :=
    hs.construct hclosed hnew (fd % threadNums)
  refine ⟨_, r, if_neg hthreads.ne', hrun, hs.advance hsynced hframe
    (fun other y _ hy => hs.fresh hclosed other y hy) (by simp [hat]) ?_⟩
  intro y now hy hnow
  cases hnow
  rw [hat] at hy
  cases hy
  refine ⟨rfl, hopen, fun _ => rfl, iff_of_false ?_ id, fun _ => rfl,
    BitVec.zero_and⟩
  change r.dispatcher_map (fd % threadNums) fd ≠ some d
  rw [hmap]
  exact (Option.some_ne_none d).symm

theorem Sound.newLoop (hs : s.Sound threadNums)
    (hclosed : s.reactor.opened fd = false) (hnew : s.stage d = none)
    (loop : Nat) :
    ∃ r, run Reactor.step s.reactor
        [.opens fd, .construct d fd loop, .enableReading d] = some r ∧
      (s.advance d (some .own) r).Sound threadNums := by
  obtain ⟨r, hrun, hsynced, hframe, hat, hopen, hmap⟩ :=
    hs.construct hclosed hnew loop
  have hchange : r.enableReading d = some (r.register d
      ⟨0 ||| EPOLLIN, 0, loop, fd⟩) :=
    Reactor.changeEvents_eq hsynced hat hopen fun other hother => by
      rw [Dispatcher.new, hmap] at hother
      cases hother
  have hregistered : (r.register d
      ⟨0 ||| EPOLLIN, 0, loop, fd⟩).Synced :=
    hsynced.register hat rfl rfl hopen
  have hmore := frame_register r d
    ⟨0 ||| EPOLLIN, 0, loop, fd⟩
  have hnow : (r.register d
      ⟨0 ||| EPOLLIN, 0, loop, fd⟩).dispatchers d =
        some ⟨0 ||| EPOLLIN, 0, loop, fd⟩ :=
    Function.update_self _ _ _
  refine ⟨_, ?_, hs.advance hregistered ⟨?_, ?_, ?_⟩
    (fun other y _ hy => hs.fresh hclosed other y hy) (by rw [hnow]; simp) ?_⟩
  · have hsplit : [Reactor.Op.opens fd, .construct d fd loop,
        .enableReading d] =
        [.opens fd, .construct d fd loop] ++ [.enableReading d] := rfl
    rw [hsplit, run_append, hrun, Option.bind_some, run_cons]
    change (r.enableReading d).bind _ = _
    rw [hchange]
    rfl
  · exact fun other hother => (hmore.dispatchers other hother).trans
      (hframe.dispatchers other hother)
  · exact fun loop m hm => (hmore.map loop m hm).trans (hframe.map loop m hm)
  · exact fun m hm => (hmore.opened m hm).trans (hframe.opened m hm)
  · intro y now hy hstage
    cases hstage
    rw [hnow] at hy
    cases hy
    refine ⟨rfl, hopen, fun hne => absurd rfl hne, iff_of_true ?_ trivial,
      fun _ => by simp [Stage.asks], BitVec.zero_and⟩
    refine (Reactor.dispatcher_map_setMap (some d) loop fd).trans ?_
    exact if_pos ⟨rfl, rfl⟩

/-- The kernel does not report a hangup of the peer that nobody asked for. -/
theorem quiet_of_asks {stage : Stage} {events : BitVec 32}
    (hasks : stage ≠ .closing → stage.asks events)
    (hregistered : stage.registered) (revents : BitVec 32) :
    (revents &&& (events ||| EPOLLERR ||| EPOLLHUP)) &&& EPOLLRDHUP = 0 := by
  have hmask : (events ||| EPOLLERR ||| EPOLLHUP) &&& EPOLLRDHUP = 0 := by
    cases stage with
    | own => rw [hasks (by simp)]; rfl
    | pending => exact hregistered.elim
    | established writing =>
        have hevents := hasks (by simp)
        cases writing <;> rw [hevents] <;> rfl
    | closing => exact hregistered.elim
  rw [BitVec.and_assoc, hmask]
  exact BitVec.and_zero

omit [DecidableEq D] in
/-- What is reported comes from a registered dispatcher. -/
theorem Sound.of_reported (hs : s.Sound threadNums) {loop : Nat}
    {ready : List (Nat × BitVec 32)} {revents : BitVec 32}
    (hin : (d, revents) ∈ s.reactor.epoll_wait loop ready) :
    ∃ x stage, s.reactor.dispatchers d = some x ∧
      s.stage d = some stage ∧ stage.registered ∧
      revents &&& EPOLLRDHUP = 0 := by
  obtain ⟨⟨fd, happened⟩, _, hentry⟩ := List.mem_filterMap.mp hin
  obtain ⟨e, he, heq⟩ := Option.map_eq_some_iff.mp hentry
  obtain ⟨rfl, rfl⟩ := Prod.mk.inj heq
  rw [hs.synced.tables, Option.bind_eq_some_iff] at he
  obtain ⟨d, hmap, hd⟩ := he
  obtain ⟨x, hx, rfl⟩ := Option.map_eq_some_iff.mp hd
  cases hstage : s.stage d with
  | none =>
      rw [(hs.known d).mp hstage] at hx
      cases hx
  | some stage =>
      have hfits := hs.fits d x stage hx hstage
      obtain ⟨rfl, rfl⟩ := hs.synced.place hx hmap
      have hregistered := hfits.map.mp hmap
      exact ⟨x, stage, hx, rfl, hregistered,
        quiet_of_asks hfits.asks hregistered happened⟩

omit [DecidableEq D] in
/-- Delivering events changes only what the dispatchers have been told. -/
theorem Sound.delivered (hs : s.Sound threadNums) {loop : Nat}
    {ready : List (Nat × BitVec 32)} (hsynced : r.Synced)
    (hdelivered : Reactor.Delivered (s.reactor.epoll_wait loop ready)
      s.reactor r) :
    Sound threadNums { s with reactor := r } := by
  refine ⟨hsynced, ?_, ?_, ?_⟩
  · exact fun d => (hs.known d).trans (hdelivered.absent d).symm
  · intro d x stage hx hstage
    obtain ⟨y, hy, hsame, htold⟩ := hdelivered.told d x hx
    have hfits := hs.fits d y stage hy hstage
    rw [hsame]
    refine ⟨?_, hfits.loop, ?_, hfits.asks, ?_⟩
    · exact (congrFun hdelivered.opened y.fd).trans hfits.opened
    · change r.dispatcher_map y.loop y.fd = some d ↔ _
      rw [hdelivered.dispatcher_map]
      exact hfits.map
    · rcases htold with hold | hnew
      · exact hold ▸ hfits.quiet
      · obtain ⟨_, _, _, _, _, hquiet⟩ := hs.of_reported hnew
        exact hquiet
  · intro a x b z hx hz heq
    obtain ⟨y, hy, hsame, _⟩ := hdelivered.told a x hx
    obtain ⟨w, hw, hother, _⟩ := hdelivered.told b z hz
    refine hs.apart a y b w hy hw ?_
    rw [hsame, hother] at heq
    exact heq

/-! ### Runs -/

/-- No timer comes to close a connection that has been closed before. -/
def InTime (s : ServerLoops D) : LoopEvent D → Prop
  | .handleTimerCb d => s.timer d = true →
      ∃ writing, s.stage d = some (.established writing)
  | _ => True

instance (s : ServerLoops D) : (event : LoopEvent D) →
    Decidable (s.InTime event)
  | .handleTimerCb _ => inferInstanceAs (Decidable (_ = true → ∃ _ : Bool, _))
  | .newLoop _ _ _ | .accept _ _ | .connecionEstablished _ | .send _ _
  | .handleWrite _ _ | .destroy _ | .epoll _ _ => .isTrue trivial

theorem Sound.handleTimerCb (hs : s.Sound threadNums) (d : D) :
    (∃ next, s.handleTimerCb d = some next ∧ next.Sound threadNums) ↔
      ∃ writing, s.stage d = some (.established writing) := by
  rw [ServerLoops.handleTimerCb]
  split
  · case h_1 writing hstage =>
      have hlater := hs.setTimer d false
      exact iff_of_true (hlater.handleClose hstage (by simp))
        ⟨writing, hstage⟩
  · case h_2 hother =>
      refine iff_of_false (by simp) ?_
      rintro ⟨writing, hstage⟩
      exact hother writing hstage

/-- No event of a sound server makes `epoll_ctl` fail, and none but the
callback of a timer that is left behind is undefined. -/
theorem Sound.step_iff (hs : s.Sound threadNums) (hthreads : 0 < threadNums)
    (event : LoopEvent D) :
    (∃ next, s.step threadNums event = some next ∧
      next.Sound threadNums) ↔ s.InTime event := by
  cases event with
  | newLoop d fd loop =>
      refine iff_of_true ?_ trivial
      rw [ServerLoops.step]
      split
      · case isTrue hnew =>
          obtain ⟨r, hrun, hafter⟩ := hs.newLoop hnew.1 hnew.2 loop
          exact ⟨_, by rw [hrun]; rfl, hafter⟩
      · exact ⟨s, rfl, hs⟩
  | accept d fd =>
      refine iff_of_true ?_ trivial
      rw [ServerLoops.step]
      split
      · case isTrue hnew =>
          obtain ⟨loop, r, hloop, hrun, hafter⟩ :=
            hs.accept hthreads hnew.1 hnew.2.1
          exact ⟨_, by simp [hloop, hrun], hafter⟩
      · exact ⟨s, rfl, hs⟩
  | connecionEstablished d =>
      refine iff_of_true ?_ trivial
      rw [ServerLoops.step]
      split
      · case h_1 hstage =>
          exact hs.change hstage (by simp) (by simp) trivial
            fun events hasks => by rw [hasks]; rfl
      · exact ⟨s, rfl, hs⟩
  | send d written =>
      refine iff_of_true ?_ trivial
      rw [ServerLoops.step]
      split
      · case h_1 writing hstage =>
          cases written with
          | partly =>
              refine hs.change hstage (by simp) (by simp) trivial ?_
              intro events hasks
              cases writing <;> rw [hasks] <;> rfl
          | close => exact hs.handleClose hstage (by simp)
          | keepAlive => exact ⟨_, rfl, hs.setTimer d true⟩
      · exact ⟨s, rfl, hs⟩
  | handleWrite d written =>
      refine iff_of_true ?_ trivial
      rw [ServerLoops.step]
      split
      · case h_1 hstage =>
          cases written with
          | partly => exact ⟨s, rfl, hs⟩
          | close => exact hs.handleClose hstage (by simp)
          | keepAlive =>
              refine (hs.setTimer d true).change hstage (by simp) (by simp)
                trivial ?_
              intro events hasks
              rw [hasks]
              rfl
      · exact ⟨s, rfl, hs⟩
  | handleTimerCb d =>
      rw [ServerLoops.step]
      by_cases htimer : s.timer d = true
      · rw [if_pos htimer, hs.handleTimerCb d]
        exact ⟨fun hstage _ => hstage, fun htime => htime htimer⟩
      · rw [if_neg htimer]
        exact iff_of_true ⟨s, rfl, hs⟩ fun h => absurd h htimer
  | destroy d =>
      refine iff_of_true ?_ trivial
      rw [ServerLoops.step]
      split
      · case h_1 hstage => exact hs.destroy hstage
      · exact ⟨s, rfl, hs⟩
  | epoll loop ready =>
      refine iff_of_true ?_ trivial
      obtain ⟨next, hepoll, hsynced, hdelivered⟩ :=
        Reactor.epoll_eq hs.synced loop ready
      exact ⟨_, by simp [ServerLoops.step, hepoll],
        hs.delivered hsynced hdelivered⟩

/-- A step that goes through keeps a server sound. -/
theorem Sound.step (hs : s.Sound threadNums) (hthreads : 0 < threadNums)
    {event : LoopEvent D} {next : ServerLoops D}
    (hstep : s.step threadNums event = some next) :
    next.Sound threadNums := by
  by_cases htime : s.InTime event
  · obtain ⟨other, hother, hsound⟩ := (hs.step_iff hthreads event).mpr htime
    rw [hstep] at hother
    cases hother
    exact hsound
  · cases event with
    | handleTimerCb d =>
        obtain ⟨htimer, hgone⟩ := Classical.not_imp.mp htime
        rw [ServerLoops.step, if_pos htimer, ServerLoops.handleTimerCb]
          at hstep
        split at hstep
        · case h_1 writing hstage => exact absurd ⟨writing, hstage⟩ hgone
        · cases hstep
    | _ => exact absurd trivial htime

/-- What the loops do for the connections: an established one is registered in
the loop of its descriptor, for reading, and for writing while an answer is
unfinished; nothing else is registered but the loops' own descriptors; whatever
becomes ready, every reported event reaches a dispatcher of one of the two
kinds, and `process` never takes it for a hangup. -/
structure Served (threadNums : Nat) (s : ServerLoops D) : Prop where
  registered : ∀ d writing, s.stage d = some (.established writing) →
    ∃ fd, s.reactor.opened fd = true ∧
      s.reactor.interest (fd % threadNums) fd =
        some (d, if writing then EPOLLIN ||| EPOLLOUT else EPOLLIN)
  live : ∀ loop fd d events, s.reactor.interest loop fd = some (d, events) →
    s.stage d = some .own ∨ ∃ writing,
      s.stage d = some (.established writing)
  delivered : ∀ loop ready, ∃ next, s.reactor.epoll loop ready =
      some ((s.reactor.epoll_wait loop ready).map Prod.fst, next) ∧
    ∀ d x, next.dispatchers d = some x → x.process ≠ some .close

omit [DecidableEq D] in
theorem registered_cases {stage : Stage} (hregistered : stage.registered) :
    stage = .own ∨ ∃ writing, stage = .established writing := by
  cases stage with
  | own => exact Or.inl rfl
  | pending => exact hregistered.elim
  | established writing => exact Or.inr ⟨writing, rfl⟩
  | closing => exact hregistered.elim

theorem Sound.served (hs : s.Sound threadNums) : s.Served threadNums := by
  refine ⟨?_, ?_, ?_⟩
  · intro d writing hstage
    obtain ⟨x, hx, hfits, _, _⟩ := hs.exists_dispatcher hstage
    have hmap : s.reactor.dispatcher_map x.loop x.fd = some d :=
      hfits.map.mpr trivial
    have hasks := hfits.asks (by simp)
    refine ⟨x.fd, hfits.opened, ?_⟩
    rw [← hfits.loop (by simp), hs.synced.tables, hmap, Option.bind_some, hx]
    cases writing <;> rw [Option.map_some, hasks] <;> rfl
  · intro loop fd d events hentry
    have hin : (d, 0#32 &&& (events ||| EPOLLERR ||| EPOLLHUP)) ∈
        s.reactor.epoll_wait loop [(fd, 0#32)] := by
      simp [Reactor.epoll_wait, hentry]
    obtain ⟨_, stage, _, hstage, hregistered, _⟩ := hs.of_reported hin
    rcases registered_cases hregistered with rfl | ⟨writing, rfl⟩
    · exact Or.inl hstage
    · exact Or.inr ⟨writing, hstage⟩
  · intro loop ready
    obtain ⟨next, hepoll, hsynced, hdelivered⟩ :=
      Reactor.epoll_eq hs.synced loop ready
    refine ⟨next, hepoll, fun d x hx => ?_⟩
    have hafter := hs.delivered hsynced hdelivered
    cases hstage : s.stage d with
    | none =>
        have hnone : next.dispatchers d = none := (hafter.known d).mp hstage
        rw [hx] at hnone
        cases hnone
    | some stage =>
        have hquiet := (hafter.fits d x stage hx hstage).quiet
        rw [Dispatcher.process, if_neg (not_not.mpr hquiet)]
        split
        · simp
        · split
          · simp
          · simp

/-- A request without keep-alive behind one with it closes the connection, and
its timer fires on. -/
example : (run (step 8) (init : ServerLoops Nat)
    [.newLoop 0 3 8, .accept 1 4, .connecionEstablished 1,
      .send 1 .keepAlive, .send 1 .close, .handleTimerCb 1]).isNone := by
  decide +kernel

end ServerLoops

end Sone

end LinuxTest
