/-
The event loops' `epoller`s and `dispatcher`s against the kernel: every loop has
a map from descriptors to dispatchers, and the kernel a table of interest that
should say the same.  Where `epoll_ctl` fails the process aborts.
-/
import LinuxTest.Runs

namespace LinuxTest

namespace Sone

universe u

def EPOLLIN : BitVec 32 := 0x1#32

def EPOLLOUT : BitVec 32 := 0x4#32

def EPOLLERR : BitVec 32 := 0x8#32

def EPOLLHUP : BitVec 32 := 0x10#32

def EPOLLRDHUP : BitVec 32 := 0x2000#32

/-- `dispatcher`, without its callbacks. -/
structure Dispatcher (L : Type u) where
  events : BitVec 32
  revents : BitVec 32
  loop : L
  fd : Nat

/-- Which callback `process` runs. -/
inductive Callback where
  | close
  | write
  | read
deriving DecidableEq

namespace Dispatcher

variable {L : Type u}

def new (fd : Nat) (loop : L) : Dispatcher L := ⟨0, 0, loop, fd⟩

/-- At most one callback runs; an event that is none of the three is left. -/
def process (x : Dispatcher L) : Option Callback :=
  if x.revents &&& EPOLLRDHUP ≠ 0 then some .close
  else if x.revents &&& EPOLLOUT ≠ 0 then some .write
  else if x.revents &&& EPOLLIN ≠ 0 then some .read
  else none

end Dispatcher

/-- The descriptors of the process; for every loop the kernel's table of
interest and the map of its `epoller`; and the dispatchers that have been
constructed and not yet deleted. -/
structure Reactor (L D : Type u) where
  opened : Nat → Bool
  interest : L → Nat → Option (D × BitVec 32)
  dispatcher_map : L → Nat → Option D
  dispatchers : D → Option (Dispatcher L)

inductive EpollCtl where
  | add
  | mod
  | del

namespace Reactor

variable {L D : Type u}

def init : Reactor L D :=
  ⟨fun _ => false, fun _ _ => none, fun _ _ => none, fun _ => none⟩

section Steps

variable [DecidableEq L] [DecidableEq D]

def setInterest (s : Reactor L D) (loop : L) (fd : Nat)
    (entry : Option (D × BitVec 32)) : Reactor L D :=
  { s with
    interest := Function.update s.interest loop
      (Function.update (s.interest loop) fd entry) }

def setMap (s : Reactor L D) (loop : L) (fd : Nat) (entry : Option D) :
    Reactor L D :=
  { s with
    dispatcher_map := Function.update s.dispatcher_map loop
      (Function.update (s.dispatcher_map loop) fd entry) }

def setDispatcherAt (s : Reactor L D) (d : D) (x : Option (Dispatcher L)) :
    Reactor L D :=
  { s with dispatchers := Function.update s.dispatchers d x }

/-- `::epoll_ctl`: the descriptor is open, and registered unless it is to be
added. -/
def epoll_ctl (s : Reactor L D) (loop : L) (operation : EpollCtl) (fd : Nat)
    (e : D × BitVec 32) : Option (Reactor L D) :=
  if s.opened fd then
    match operation, s.interest loop fd with
    | .add, none => some (s.setInterest loop fd (some e))
    | .mod, some _ => some (s.setInterest loop fd (some e))
    | .del, some _ => some (s.setInterest loop fd none)
    | _, _ => none
  else none

def updateEpoller (s : Reactor L D) (operation : EpollCtl) (d : D) :
    Option (Reactor L D) := do
  let x ← s.dispatchers d
  s.epoll_ctl x.loop operation x.fd (d, x.events)

def setDispatcher (s : Reactor L D) (d : D) : Option (Reactor L D) := do
  let x ← s.dispatchers d
  match s.dispatcher_map x.loop x.fd with
  | none => (s.setMap x.loop x.fd (some d)).updateEpoller .add d
  | some _ => s.updateEpoller .mod d

/-- A dispatcher that is not in the map is only logged. -/
def delDispatcher (s : Reactor L D) (d : D) : Option (Reactor L D) := do
  let x ← s.dispatchers d
  match s.dispatcher_map x.loop x.fd with
  | some _ => (s.setMap x.loop x.fd none).updateEpoller .del d
  | none => return s

/-- The body of `enableReading` and the others of its kind. -/
def changeEvents (s : Reactor L D) (d : D) (f : BitVec 32 → BitVec 32) :
    Option (Reactor L D) := do
  let x ← s.dispatchers d
  (s.setDispatcherAt d (some { x with events := f x.events })).setDispatcher d

def enableReading (s : Reactor L D) (d : D) : Option (Reactor L D) :=
  s.changeEvents d fun events => events ||| EPOLLIN

def enableWriting (s : Reactor L D) (d : D) : Option (Reactor L D) :=
  s.changeEvents d fun events => events ||| EPOLLOUT

def disableReading (s : Reactor L D) (d : D) : Option (Reactor L D) :=
  s.changeEvents d fun events => events &&& ~~~EPOLLIN

def disableWriting (s : Reactor L D) (d : D) : Option (Reactor L D) :=
  s.changeEvents d fun events => events &&& ~~~EPOLLOUT

def enableRDhup (s : Reactor L D) (d : D) : Option (Reactor L D) :=
  s.changeEvents d fun events => events ||| EPOLLRDHUP

def disableRDhup (s : Reactor L D) (d : D) : Option (Reactor L D) :=
  s.changeEvents d fun events => events &&& ~~~EPOLLRDHUP

/-- `::close`, which takes the descriptor out of every table. -/
def close (s : Reactor L D) (fd : Nat) : Reactor L D :=
  { s with
    opened := Function.update s.opened fd false
    interest := fun loop => Function.update (s.interest loop) fd none }

/-- What `::epoll_wait` reports of what is ready: the registered descriptors,
with the events asked for and the two that are always reported. -/
def epoll_wait (s : Reactor L D) (loop : L) (ready : List (Nat × BitVec 32)) :
    List (D × BitVec 32) :=
  ready.filterMap fun r => (s.interest loop r.1).map fun e =>
    (e.1, r.2 &&& (e.2 ||| EPOLLERR ||| EPOLLHUP))

/-- The loop of `epoll` over the reported events: a dispatcher whose descriptor
is not in the map is passed over. -/
def fill (loop : L) :
    Reactor L D → List (D × BitVec 32) → Option (List D × Reactor L D)
  | s, [] => some ([], s)
  | s, (d, revents) :: rest => do
      let x ← s.dispatchers d
      match s.dispatcher_map loop x.fd with
      | none => fill loop s rest
      | some _ =>
          let (active, s) ← fill loop
            (s.setDispatcherAt d (some { x with revents := revents })) rest
          return (d :: active, s)

def epoll (s : Reactor L D) (loop : L) (ready : List (Nat × BitVec 32)) :
    Option (List D × Reactor L D) :=
  fill loop s (s.epoll_wait loop ready)

/-! ### Runs -/

/-- What a program does: the kernel hands out a descriptor, a dispatcher is
constructed, changed, removed from its loop or deleted, a descriptor is closed,
a loop asks for events. -/
inductive Op (L D : Type u) where
  | opens (fd : Nat)
  | construct (d : D) (fd : Nat) (loop : L)
  | enableReading (d : D)
  | enableWriting (d : D)
  | disableReading (d : D)
  | disableWriting (d : D)
  | enableRDhup (d : D)
  | disableRDhup (d : D)
  | removeDispatcher (d : D)
  | delete (d : D)
  | close (fd : Nat)
  | epoll (loop : L) (ready : List (Nat × BitVec 32))

def step (s : Reactor L D) : Op L D → Option (Reactor L D)
  | .opens fd => some { s with opened := Function.update s.opened fd true }
  | .construct d fd loop =>
      some (s.setDispatcherAt d (some (.new fd loop)))
  | .enableReading d => s.enableReading d
  | .enableWriting d => s.enableWriting d
  | .disableReading d => s.disableReading d
  | .disableWriting d => s.disableWriting d
  | .enableRDhup d => s.enableRDhup d
  | .disableRDhup d => s.disableRDhup d
  | .removeDispatcher d => s.delDispatcher d
  | .delete d => some (s.setDispatcherAt d none)
  | .close fd => some (s.close fd)
  | .epoll loop ready => (s.epoll loop ready).map Prod.snd

/-! ### The tables say the same -/

omit [DecidableEq L] [DecidableEq D] in
/-- A descriptor is in the kernel's table of a loop exactly when it is in the
loop's map, with the dispatcher there and the events that one asks for; the
dispatcher is the descriptor's and the loop's own, and the descriptor is
open. -/
structure Synced (s : Reactor L D) : Prop where
  tables : ∀ loop fd, s.interest loop fd =
    (s.dispatcher_map loop fd).bind fun d =>
      (s.dispatchers d).map fun x => (d, x.events)
  own : ∀ loop fd d, s.dispatcher_map loop fd = some d →
    ∃ x, s.dispatchers d = some x ∧ x.loop = loop ∧ x.fd = fd
  opened : ∀ loop fd d, s.dispatcher_map loop fd = some d →
    s.opened fd = true

/-- What the kernel and `new` promise, and that a pointer is followed only
between construction and deletion. -/
def Allowed (s : Reactor L D) : Op L D → Prop
  | .opens fd => s.opened fd = false
  | .construct d _ _ => s.dispatchers d = none
  | .close _ => True
  | .epoll _ _ => True
  | .enableReading d | .enableWriting d | .disableReading d
  | .disableWriting d | .enableRDhup d | .disableRDhup d
  | .removeDispatcher d | .delete d => s.dispatchers d ≠ none

/-- A dispatcher is changed while its descriptor is open and not registered for
another one; it is not deleted while it is registered, nor a registered
descriptor closed. -/
def Orderly (s : Reactor L D) : Op L D → Prop
  | .close fd => ∀ loop, s.dispatcher_map loop fd = none
  | .delete d => ∀ loop fd, s.dispatcher_map loop fd ≠ some d
  | .enableReading d | .enableWriting d | .disableReading d
  | .disableWriting d | .enableRDhup d | .disableRDhup d =>
      ∀ x, s.dispatchers d = some x → s.opened x.fd = true ∧
        ∀ other, s.dispatcher_map x.loop x.fd = some other → other = d
  | _ => True

variable {s : Reactor L D} {d : D} {x : Dispatcher L} {loop : L} {fd : Nat}
  {events revents : BitVec 32} {f : BitVec 32 → BitVec 32}

omit [DecidableEq L] [DecidableEq D] in
theorem synced_init : (init : Reactor L D).Synced where
  tables _ _ := rfl
  own _ _ _ hmap := by cases hmap
  opened _ _ _ hmap := by cases hmap

omit [DecidableEq L] [DecidableEq D] in
/-- A registered dispatcher is registered in one place. -/
theorem Synced.place (hs : s.Synced) (hx : s.dispatchers d = some x)
    (hmap : s.dispatcher_map loop fd = some d) : loop = x.loop ∧ fd = x.fd := by
  obtain ⟨y, hy, hloop, hfd⟩ := hs.own loop fd d hmap
  rw [hx] at hy
  cases hy
  exact ⟨hloop.symm, hfd.symm⟩

omit [DecidableEq D] in
theorem interest_setInterest (entry : Option (D × BitVec 32)) (other : L)
    (m : Nat) :
    (s.setInterest loop fd entry).interest other m =
      if other = loop ∧ m = fd then entry else s.interest other m := by
  by_cases hloop : other = loop
  · subst hloop
    by_cases hfd : m = fd
    · simp [setInterest, hfd]
    · simp [setInterest, hfd]
  · simp [setInterest, hloop]

omit [DecidableEq D] in
theorem dispatcher_map_setMap (entry : Option D) (other : L) (m : Nat) :
    (s.setMap loop fd entry).dispatcher_map other m =
      if other = loop ∧ m = fd then entry else s.dispatcher_map other m := by
  by_cases hloop : other = loop
  · subst hloop
    by_cases hfd : m = fd
    · simp [setMap, hfd]
    · simp [setMap, hfd]
  · simp [setMap, hloop]

/-- The dispatcher `d`, now `x`, is in both tables. -/
def register (s : Reactor L D) (d : D) (x : Dispatcher L) : Reactor L D :=
  ((s.setDispatcherAt d (some x)).setMap x.loop x.fd (some d)).setInterest
    x.loop x.fd (some (d, x.events))

/-- A descriptor is in neither table of a loop. -/
def forget (s : Reactor L D) (loop : L) (fd : Nat) : Reactor L D :=
  (s.setMap loop fd none).setInterest loop fd none

theorem Synced.register (hs : s.Synced) {old : Dispatcher L}
    (hold : s.dispatchers d = some old) (hloop : x.loop = old.loop)
    (hfd : x.fd = old.fd) (hopen : s.opened x.fd = true) :
    (s.register d x).Synced := by
  have hdispatchers : ∀ other, (s.register d x).dispatchers other =
      if other = d then some x else s.dispatchers other := by
    intro other
    by_cases hother : other = d
    · simp [Reactor.register, setInterest, setMap, setDispatcherAt, hother]
    · simp [Reactor.register, setInterest, setMap, setDispatcherAt, hother]
  have hmap : ∀ loop fd, (s.register d x).dispatcher_map loop fd =
      if loop = x.loop ∧ fd = x.fd then some d
      else s.dispatcher_map loop fd := by
    intro loop fd
    exact dispatcher_map_setMap (some d) loop fd
  have hinterest : ∀ loop fd, (s.register d x).interest loop fd =
      if loop = x.loop ∧ fd = x.fd then some (d, x.events)
      else s.interest loop fd := by
    intro loop fd
    exact interest_setInterest _ loop fd
  have hopened : (s.register d x).opened = s.opened := rfl
  refine ⟨?_, ?_, ?_⟩
  · intro loop fd
    rw [hinterest, hmap]
    split
    · simp [hdispatchers]
    · case isFalse hout =>
        rw [hs.tables]
        cases hentry : s.dispatcher_map loop fd with
        | none => rfl
        | some other =>
            have hother : other ≠ d := by
              rintro rfl
              obtain ⟨h1, h2⟩ := hs.place hold hentry
              exact hout ⟨h1.trans hloop.symm, h2.trans hfd.symm⟩
            simp [hdispatchers, hother]
  · intro loop fd other hentry
    rw [hmap] at hentry
    rw [hdispatchers]
    split at hentry
    · case isTrue hplace =>
        cases hentry
        exact ⟨x, if_pos rfl, hplace.1.symm, hplace.2.symm⟩
    · case isFalse hout =>
        have hother : other ≠ d := by
          rintro rfl
          obtain ⟨h1, h2⟩ := hs.place hold hentry
          exact hout ⟨h1.trans hloop.symm, h2.trans hfd.symm⟩
        rw [if_neg hother]
        exact hs.own loop fd other hentry
  · intro loop fd other hentry
    rw [hmap] at hentry
    rw [hopened]
    split at hentry
    · case isTrue hplace => exact hplace.2 ▸ hopen
    · exact hs.opened loop fd other hentry

omit [DecidableEq D] in
theorem Synced.forget (hs : s.Synced) (loop : L) (fd : Nat) :
    (s.forget loop fd).Synced := by
  have hmap : ∀ other m, (s.forget loop fd).dispatcher_map other m =
      if other = loop ∧ m = fd then none else s.dispatcher_map other m :=
    fun other m => dispatcher_map_setMap none other m
  have hinterest : ∀ other m, (s.forget loop fd).interest other m =
      if other = loop ∧ m = fd then none else s.interest other m :=
    fun other m => interest_setInterest none other m
  refine ⟨?_, ?_, ?_⟩
  · intro other m
    rw [hinterest, hmap]
    split
    · rfl
    · exact hs.tables other m
  · intro other m d hentry
    rw [hmap] at hentry
    split at hentry
    · cases hentry
    · exact hs.own other m d hentry
  · intro other m d hentry
    rw [hmap] at hentry
    split at hentry
    · cases hentry
    · exact hs.opened other m d hentry

/-! ### Each operation -/

/-- A change of events that is in order registers the dispatcher with them. -/
theorem changeEvents_eq (hs : s.Synced) (hx : s.dispatchers d = some x)
    (hopen : s.opened x.fd = true)
    (hown : ∀ other, s.dispatcher_map x.loop x.fd = some other → other = d) :
    s.changeEvents d f =
      some (s.register d { x with events := f x.events }) := by
  have htable := hs.tables x.loop x.fd
  cases hmap : s.dispatcher_map x.loop x.fd with
  | none =>
      rw [hmap] at htable
      simp [changeEvents, hx, setDispatcher, setDispatcherAt, hmap,
        updateEpoller, setMap, epoll_ctl, hopen, htable, register,
        setInterest]
  | some other =>
      obtain rfl := hown other hmap
      rw [hmap] at htable
      have hsame : Function.update s.dispatcher_map x.loop
          (Function.update (s.dispatcher_map x.loop) x.fd (some other)) =
            s.dispatcher_map := by
        rw [← hmap, Function.update_eq_self, Function.update_eq_self]
      simp [changeEvents, hx, setDispatcher, setDispatcherAt, hmap,
        updateEpoller, setMap, epoll_ctl, hopen, htable, register,
        setInterest, hsame]

/-- A change of events that succeeds and leaves the tables in step was in
order. -/
theorem changeEvents_orderly {next : Reactor L D}
    (hx : s.dispatchers d = some x)
    (hnext : s.changeEvents d f = some next) (hsynced : next.Synced) :
    s.opened x.fd = true ∧
      ∀ other, s.dispatcher_map x.loop x.fd = some other → other = d := by
  by_cases hopen : s.opened x.fd = true
  · refine ⟨hopen, fun other hmap => ?_⟩
    cases hentry : s.interest x.loop x.fd with
    | none =>
        simp [changeEvents, hx, setDispatcher, setDispatcherAt, hmap,
          updateEpoller, epoll_ctl, hopen, hentry] at hnext
    | some entry =>
        simp only [changeEvents, hx, setDispatcher, setDispatcherAt, hmap,
          updateEpoller, epoll_ctl, hopen, hentry, if_true,
          Option.bind_eq_bind, Option.bind_some, Function.update_self,
          Option.some.injEq] at hnext
        have htable := hsynced.tables x.loop x.fd
        have hinterest : next.interest x.loop x.fd =
            some (d, f x.events) := by
          rw [← hnext, interest_setInterest, if_pos ⟨rfl, rfl⟩]
        have hkept : next.dispatcher_map x.loop x.fd = some other := by
          rw [← hnext]
          exact hmap
        rw [hinterest, hkept, Option.bind_some, eq_comm,
          Option.map_eq_some_iff] at htable
        obtain ⟨y, _, hy⟩ := htable
        exact (Prod.mk.inj hy).1
  · rw [Bool.not_eq_true] at hopen
    cases hmap : s.dispatcher_map x.loop x.fd with
    | none =>
        simp [changeEvents, hx, setDispatcher, setDispatcherAt, hmap,
          updateEpoller, setMap, epoll_ctl, hopen] at hnext
    | some other =>
        simp [changeEvents, hx, setDispatcher, setDispatcherAt, hmap,
          updateEpoller, epoll_ctl, hopen] at hnext

omit [DecidableEq D] in
theorem delDispatcher_eq (hs : s.Synced) (hx : s.dispatchers d = some x) :
    s.delDispatcher d = some (s.forget x.loop x.fd) ∨
      (s.delDispatcher d = some s ∧
        s.dispatcher_map x.loop x.fd = none) := by
  cases hmap : s.dispatcher_map x.loop x.fd with
  | none => exact Or.inr ⟨by simp [delDispatcher, hx, hmap], rfl⟩
  | some other =>
      obtain ⟨y, hy, _, _⟩ := hs.own x.loop x.fd other hmap
      have htable := hs.tables x.loop x.fd
      rw [hmap, Option.bind_some, hy] at htable
      have hopen := hs.opened x.loop x.fd other hmap
      left
      simp [delDispatcher, hx, hmap, updateEpoller, setMap, epoll_ctl, hopen,
        htable, forget, setInterest]

omit [DecidableEq L] in
/-- A dispatcher that is registered nowhere may be constructed, or deleted. -/
theorem Synced.setDispatcherAt (hs : s.Synced)
    (hout : ∀ loop fd, s.dispatcher_map loop fd ≠ some d)
    (x : Option (Dispatcher L)) : (s.setDispatcherAt d x).Synced := by
  have hkept : ∀ loop fd other, s.dispatcher_map loop fd = some other →
      (s.setDispatcherAt d x).dispatchers other = s.dispatchers other := by
    intro loop fd other hmap
    have hne : other ≠ d := fun heq => hout loop fd (heq ▸ hmap)
    exact Function.update_of_ne hne _ _
  refine ⟨?_, ?_, hs.opened⟩
  · intro loop fd
    change s.interest loop fd = (s.dispatcher_map loop fd).bind _
    rw [hs.tables]
    cases hmap : s.dispatcher_map loop fd with
    | none => rfl
    | some other => simp [hkept loop fd other hmap]
  · intro loop fd other hmap
    rw [hkept loop fd other hmap]
    exact hs.own loop fd other hmap

omit [DecidableEq L] [DecidableEq D] in
theorem Synced.not_registered (hs : s.Synced) (hnew : s.dispatchers d = none)
    (loop : L) (fd : Nat) : s.dispatcher_map loop fd ≠ some d := by
  intro hmap
  obtain ⟨x, hx, _, _⟩ := hs.own loop fd d hmap
  rw [hnew] at hx
  cases hx

omit [DecidableEq L] [DecidableEq D] in
theorem Synced.close (hs : s.Synced)
    (hout : ∀ loop, s.dispatcher_map loop fd = none) :
    (s.close fd).Synced := by
  refine ⟨?_, hs.own, ?_⟩
  · intro loop m
    by_cases hm : m = fd
    · subst hm
      simp [Reactor.close, hout loop]
    · simp only [Reactor.close, Function.update_of_ne hm]
      exact hs.tables loop m
  · intro loop m d hmap
    have hm : m ≠ fd := by
      rintro rfl
      rw [Reactor.close] at hmap
      rw [hout loop] at hmap
      cases hmap
    exact (Function.update_of_ne hm _ _).trans (hs.opened loop m d hmap)

omit [DecidableEq L] [DecidableEq D] in
theorem Synced.opens (hs : s.Synced) (fd : Nat) :
    Synced { s with opened := Function.update s.opened fd true } := by
  refine ⟨hs.tables, hs.own, fun loop m d hmap => ?_⟩
  by_cases hm : m = fd
  · simp [hm]
  · exact (Function.update_of_ne hm _ _).trans (hs.opened loop m d hmap)

/-! ### Events -/

omit [DecidableEq L] in
/-- The reported events of a dispatcher are in no table. -/
theorem Synced.setRevents (hs : s.Synced)
    (hx : s.dispatchers d = some x) (revents : BitVec 32) :
    (s.setDispatcherAt d (some { x with revents := revents })).Synced := by
  have hdispatchers : ∀ other, (s.setDispatcherAt d
      (some { x with revents := revents })).dispatchers other =
        if other = d then some { x with revents := revents }
        else s.dispatchers other := by
    intro other
    by_cases hother : other = d
    · simp [Reactor.setDispatcherAt, hother]
    · simp [Reactor.setDispatcherAt, hother]
  refine ⟨?_, ?_, hs.opened⟩
  · intro loop fd
    change s.interest loop fd = (s.dispatcher_map loop fd).bind _
    rw [hs.tables]
    cases hmap : s.dispatcher_map loop fd with
    | none => rfl
    | some other =>
        rw [Option.bind_some, Option.bind_some, hdispatchers]
        split
        · case isTrue hother => rw [hother, hx]; rfl
        · rfl
  · intro loop fd other hmap
    rw [hdispatchers]
    obtain ⟨y, hy, hplace⟩ := hs.own loop fd other hmap
    split
    · case isTrue hother =>
        rw [hother, hx] at hy
        cases hy
        exact ⟨_, rfl, hplace⟩
    · exact ⟨y, hy, hplace⟩

/-- Nothing has changed but what the dispatchers were told, and that comes from
the reported events. -/
structure Delivered (reported : List (D × BitVec 32)) (s next : Reactor L D) :
    Prop where
  opened : next.opened = s.opened
  interest : next.interest = s.interest
  dispatcher_map : next.dispatcher_map = s.dispatcher_map
  absent : ∀ d, next.dispatchers d = none ↔ s.dispatchers d = none
  told : ∀ d x, next.dispatchers d = some x → ∃ y,
    s.dispatchers d = some y ∧ x = { y with revents := x.revents } ∧
      (x.revents = y.revents ∨ (d, x.revents) ∈ reported)

omit [DecidableEq L] in
theorem fill_eq (hs : s.Synced) {reported : List (D × BitVec 32)}
    (hreported : ∀ r ∈ reported, ∃ fd,
      s.dispatcher_map loop fd = some r.1) :
    ∃ next, s.fill loop reported = some (reported.map Prod.fst, next) ∧
      next.Synced ∧ Delivered reported s next := by
  induction reported generalizing s with
  | nil =>
      exact ⟨s, rfl, hs, rfl, rfl, rfl, fun _ => Iff.rfl,
        fun d x hx => ⟨x, hx, rfl, Or.inl rfl⟩⟩
  | cons r rest ih =>
      obtain ⟨d, revents⟩ := r
      obtain ⟨fd, hmap⟩ := hreported _ List.mem_cons_self
      obtain ⟨x, hx, rfl, rfl⟩ := hs.own loop fd d hmap
      obtain ⟨next, hfill, hnext, hrest⟩ := ih (hs.setRevents hx revents)
        fun r hr => hreported r (List.mem_cons_of_mem _ hr)
      refine ⟨next, by simp [fill, hx, hmap, hfill], hnext, hrest.opened,
        hrest.interest, hrest.dispatcher_map, fun other => ?_,
        fun other z hz => ?_⟩
      · rw [hrest.absent]
        by_cases hother : other = d
        · simp [setDispatcherAt, hother, hx]
        · simp [setDispatcherAt, hother]
      · obtain ⟨y, hy, hsame, htold⟩ := hrest.told other z hz
        by_cases hother : other = d
        · subst hother
          simp only [setDispatcherAt, Function.update_self,
            Option.some.injEq] at hy
          subst hy
          refine ⟨x, hx, hsame, Or.inr ?_⟩
          rcases htold with heq | hlater
          · rw [heq]
            exact List.mem_cons_self
          · exact List.mem_cons_of_mem _ hlater
        · simp only [setDispatcherAt, Function.update_of_ne hother] at hy
          refine ⟨y, hy, hsame, ?_⟩
          exact htold.imp_right (List.mem_cons_of_mem _)

omit [DecidableEq L] in
/-- While the tables are in step every reported event reaches its dispatcher. -/
theorem epoll_eq (hs : s.Synced) (loop : L) (ready : List (Nat × BitVec 32)) :
    ∃ next, s.epoll loop ready =
        some ((s.epoll_wait loop ready).map Prod.fst, next) ∧
      next.Synced ∧ Delivered (s.epoll_wait loop ready) s next := by
  refine fill_eq hs fun r hr => ?_
  obtain ⟨⟨fd, revents⟩, _, hentry⟩ := List.mem_filterMap.mp hr
  obtain ⟨e, he, rfl⟩ := Option.map_eq_some_iff.mp hentry
  rw [hs.tables, Option.bind_eq_some_iff] at he
  obtain ⟨d, hmap, hd⟩ := he
  obtain ⟨x, _, rfl⟩ := Option.map_eq_some_iff.mp hd
  exact ⟨fd, hmap⟩

/-! ### Runs -/

/-- A change of events goes through and keeps the tables in step exactly when
it is in order. -/
theorem changeEvents_iff (hs : s.Synced) (hd : s.dispatchers d ≠ none) :
    (∃ next, s.changeEvents d f = some next ∧ next.Synced) ↔
      ∀ x, s.dispatchers d = some x → s.opened x.fd = true ∧
        ∀ other, s.dispatcher_map x.loop x.fd = some other → other = d := by
  obtain ⟨x, hx⟩ := Option.ne_none_iff_exists'.mp hd
  constructor
  · rintro ⟨next, hnext, hsynced⟩ y hy
    exact changeEvents_orderly hy hnext hsynced
  · intro horderly
    obtain ⟨hopen, hown⟩ := horderly x hx
    exact ⟨_, changeEvents_eq hs hx hopen hown,
      hs.register hx rfl rfl hopen⟩

theorem step_iff (hs : s.Synced) (op : Op L D) (hallowed : s.Allowed op) :
    (∃ next, s.step op = some next ∧ next.Synced) ↔ s.Orderly op := by
  cases op with
  | opens fd => exact iff_of_true ⟨_, rfl, hs.opens fd⟩ trivial
  | construct d fd loop =>
      have hout := hs.not_registered hallowed
      exact iff_of_true ⟨_, rfl, hs.setDispatcherAt hout _⟩ trivial
  | enableReading d =>
      rw [step, enableReading]
      exact changeEvents_iff hs hallowed
  | enableWriting d =>
      rw [step, enableWriting]
      exact changeEvents_iff hs hallowed
  | disableReading d =>
      rw [step, disableReading]
      exact changeEvents_iff hs hallowed
  | disableWriting d =>
      rw [step, disableWriting]
      exact changeEvents_iff hs hallowed
  | enableRDhup d =>
      rw [step, enableRDhup]
      exact changeEvents_iff hs hallowed
  | disableRDhup d =>
      rw [step, disableRDhup]
      exact changeEvents_iff hs hallowed
  | removeDispatcher d =>
      obtain ⟨x, hx⟩ := Option.ne_none_iff_exists'.mp hallowed
      refine iff_of_true ?_ trivial
      rcases delDispatcher_eq hs hx with hgone | ⟨hsame, _⟩
      · exact ⟨_, hgone, hs.forget x.loop x.fd⟩
      · exact ⟨_, hsame, hs⟩
  | delete d =>
      constructor
      · rintro ⟨next, hnext, hsynced⟩ loop fd hmap
        cases hnext
        obtain ⟨x, hx, _⟩ := hsynced.own loop fd d hmap
        simp [setDispatcherAt] at hx
      · exact fun hout => ⟨_, rfl, hs.setDispatcherAt hout none⟩
  | close fd =>
      constructor
      · rintro ⟨next, hnext, hsynced⟩ loop
        cases hnext
        cases hmap : s.dispatcher_map loop fd with
        | none => rfl
        | some d =>
            have hopen := hsynced.opened loop fd d hmap
            simp [Reactor.close] at hopen
      · exact fun hout => ⟨_, rfl, hs.close hout⟩
  | epoll loop ready =>
      obtain ⟨next, hnext, hsynced, _⟩ := epoll_eq hs loop ready
      exact iff_of_true ⟨next, by simp [step, hnext], hsynced⟩ trivial

/-- In any run over any number of loops, dispatchers and descriptors, the
process never aborts in `epoll_ctl` and the kernel's tables say what the maps
say, exactly when every operation of the run is in order. -/
theorem tables_synced_iff (ops : List (Op L D))
    (hallowed : Along step Allowed init ops) :
    Always step Synced (init : Reactor L D) ops ↔
      Along step Orderly init ops := by
  rw [always_iff_along_of_allowed (fun s op hs => step_iff hs op) hallowed]
  exact and_iff_right synced_init

/-- A connection of the first of two loops is registered, read and written, and
taken out before its descriptor is closed; another is closed too early. -/
theorem tables_synced_open_close :
    Always step Synced (init : Reactor Bool Nat)
      [.opens 5, .construct 0 5 false, .enableReading 0,
        .epoll false [(5, EPOLLIN)], .enableWriting 0, .removeDispatcher 0,
        .delete 0, .close 5] ∧
    ¬Always step Synced (init : Reactor Bool Nat)
      [.opens 5, .construct 0 5 false, .enableReading 0, .close 5] := by
  refine ⟨(tables_synced_iff _ ?_).mpr ?_, ?_⟩
  · refine .cons rfl rfl (.cons rfl rfl (.cons nofun rfl
      (.cons trivial rfl (.cons nofun rfl (.cons nofun rfl
        (.cons nofun rfl ⟨trivial, fun _ _ => trivial⟩))))))
  · refine .cons trivial rfl (.cons trivial rfl (.cons ?_ rfl
      (.cons trivial rfl (.cons ?_ rfl (.cons trivial rfl
        (.cons ?_ rfl ⟨?_, fun _ _ => trivial⟩))))))
    · intro x hx
      cases hx
      exact ⟨rfl, nofun⟩
    · intro x hx
      cases hx
      refine ⟨rfl, fun other hother => ?_⟩
      cases hother
      rfl
    · intro loop fd hmap
      cases loop with
      | true => cases hmap
      | false =>
          simp [setMap, setInterest, setDispatcherAt, Dispatcher.new, init]
            at hmap
    · intro loop
      cases loop <;> rfl
  · rw [tables_synced_iff]
    · intro horderly
      have hregistered := (((horderly.2 _ rfl).2 _ rfl).2 _ rfl).1 false
      cases hregistered
    · exact .cons rfl rfl (.cons rfl rfl (.cons nofun rfl
        ⟨trivial, fun _ _ => trivial⟩))

end Steps

end Reactor

end Sone

end LinuxTest
