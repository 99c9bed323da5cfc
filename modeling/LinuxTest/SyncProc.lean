/-
The signals of `signal/sync_proc.c`, by which a parent and its child tell each
other to go on.  Both signals are blocked before the `fork`, and let in by
`sigsuspend` only.
-/
import Mathlib.Data.List.Count
import Mathlib.Tactic.Common
import LinuxTest.Runs

namespace LinuxTest

namespace SyncProc

inductive Who where
  | parent
  | child
deriving DecidableEq

namespace Who

def other : Who → Who
  | parent => child
  | child => parent

end Who

/-- What a process does: a line of output, `tell_parent` or `tell_child`, and
`wait_child` or `wait_parent`. -/
inductive Op where
  | print
  | tell
  | wait
deriving DecidableEq

/-- What is left of the program, whether it is in `sigsuspend`, `flag`, whether
the signal of the other process is pending, and whether it is blocked. -/
structure Process where
  todo : List Op
  suspended : Bool
  flag : Bool
  pending : Bool
  blocked : Bool

structure Processes where
  parent : Process
  child : Process
  output : List Who

/-- A process goes on, or the signal pending for it is delivered. -/
inductive Action where
  | go (who : Who)
  | deliver (who : Who)
deriving DecidableEq

namespace Process

/-- After `tell_wait` and `fork`. -/
def start (todo : List Op) : Process :=
  ⟨todo, false, false, false, true⟩

/-- `kill`: a signal that is pending is not queued again. -/
def kill (p : Process) : Process :=
  { p with pending := true }

/-- `usr` runs, and `sigsuspend` returns. -/
def usr (p : Process) : Process :=
  { p with suspended := false, flag := true, pending := false }

/-- A signal on its way, or noted in `flag`. -/
def signals (p : Process) : Nat :=
  p.flag.toNat + p.pending.toNat

/-- The signals stay blocked, and only a wait is in `sigsuspend` or has its
flag. -/
structure Calm (p : Process) : Prop where
  blocked : p.blocked = true
  suspended : p.suspended = true → p.flag = false ∧
    p.todo.head? = some .wait
  flag : p.flag = true → p.todo.head? = some .wait

/-- The steps a process has before it: a wait takes three. -/
def left (p : Process) : Nat :=
  3 * p.todo.count .wait + p.todo.count .print + p.todo.count .tell -
    p.suspended.toNat - 2 * p.flag.toNat

variable {p : Process} {rest : List Op}

theorem calm_start (todo : List Op) : (Process.start todo).Calm :=
  ⟨rfl, nofun, nofun⟩

@[simp] theorem todo_kill (p : Process) : p.kill.todo = p.todo := rfl

theorem Calm.kill (hp : p.Calm) : p.kill.Calm :=
  ⟨hp.blocked, hp.suspended, hp.flag⟩

theorem Calm.usr (hp : p.Calm) (hsuspended : p.suspended = true) :
    p.usr.Calm :=
  ⟨hp.blocked, nofun, fun _ => (hp.suspended hsuspended).2⟩

/-- A call that is no wait leaves nothing behind. -/
theorem Calm.next (hp : p.Calm) (hwait : p.todo.head? ≠ some .wait)
    (rest : List Op) : ({ p with todo := rest } : Process).Calm :=
  ⟨hp.blocked, fun h => absurd (hp.suspended h).2 hwait,
    fun h => absurd (hp.flag h) hwait⟩

theorem Calm.suspend (hp : p.Calm) (hflag : p.flag = false)
    (hwait : p.todo.head? = some .wait) :
    ({ p with suspended := true } : Process).Calm :=
  ⟨hp.blocked, fun _ => ⟨hflag, hwait⟩, hp.flag⟩

theorem Calm.waited (hp : p.Calm) (hsuspended : p.suspended = false)
    (rest : List Op) :
    ({ p with todo := rest, flag := false } : Process).Calm := by
  refine ⟨hp.blocked, fun h => ?_, nofun⟩
  rw [hsuspended] at h
  cases h

/-- Before a call that is no wait, and after it. -/
theorem Calm.left_next (hp : p.Calm) {op : Op} (htodo : p.todo = op :: rest)
    (hop : op ≠ .wait) :
    ({ p with todo := rest } : Process).left + 1 = p.left := by
  have hwait : p.todo.head? ≠ some .wait := by simpa [htodo] using hop
  have hsuspended : p.suspended = false := by
    by_contra h
    exact hwait (hp.suspended (by simpa using h)).2
  have hflag : p.flag = false := by
    by_contra h
    exact hwait (hp.flag (by simpa using h))
  cases op with
  | print =>
      simp [left, htodo, hsuspended, hflag]
      omega
  | tell =>
      simp [left, htodo, hsuspended, hflag]
      omega
  | wait => exact absurd rfl hop

theorem left_waited (htodo : p.todo = .wait :: rest)
    (hsuspended : p.suspended = false) (hflag : p.flag = true) :
    ({ p with todo := rest, flag := false } : Process).left + 1 = p.left := by
  simp [left, htodo, hsuspended, hflag]
  omega

theorem left_suspend (htodo : p.todo = .wait :: rest)
    (hsuspended : p.suspended = false) (hflag : p.flag = false) :
    ({ p with suspended := true } : Process).left + 1 = p.left := by
  simp [left, htodo, hsuspended, hflag]
  omega

theorem Calm.left_usr (hp : p.Calm) (hsuspended : p.suspended = true) :
    p.usr.left + 1 = p.left := by
  obtain ⟨hflag, hhead⟩ := hp.suspended hsuspended
  have hpos : 0 < p.todo.count .wait :=
    List.count_pos_iff.mpr (List.mem_of_head? hhead)
  simp [left, Process.usr, hsuspended, hflag]
  omega

@[simp] theorem left_kill (p : Process) : p.kill.left = p.left := rfl

end Process

namespace Processes

def start (parent child : List Op) : Processes :=
  ⟨.start parent, .start child, []⟩

def process (s : Processes) : Who → Process
  | .parent => s.parent
  | .child => s.child

def set (s : Processes) (p : Process) : Who → Processes
  | .parent => { s with parent := p }
  | .child => { s with child := p }

/-- The `sigprocmask` after the loop of a wait is given no new mask. -/
def go (who : Who) (s : Processes) : Option Processes :=
  let p := s.process who
  match p.todo with
  | [] => none
  | .print :: rest =>
      some { s.set { p with todo := rest } who with
        output := s.output ++ [who] }
  | .tell :: rest =>
      some ((s.set { p with todo := rest } who).set
        (s.process who.other).kill who.other)
  | .wait :: rest =>
      if p.suspended then none
      else if p.flag then
        some (s.set { p with todo := rest, flag := false } who)
      else
        some (s.set { p with suspended := true } who)

/-- What a call does. -/
inductive Gone (who : Who) (s : Processes) : Processes → Prop where
  | print (rest : List Op) (htodo : (s.process who).todo = .print :: rest) :
      Gone who s { s.set { s.process who with todo := rest } who with
        output := s.output ++ [who] }
  | tell (rest : List Op) (htodo : (s.process who).todo = .tell :: rest) :
      Gone who s ((s.set { s.process who with todo := rest } who).set
        (s.process who.other).kill who.other)
  | waited (rest : List Op) (htodo : (s.process who).todo = .wait :: rest)
      (hsuspended : (s.process who).suspended = false)
      (hflag : (s.process who).flag = true) :
      Gone who s
        (s.set { s.process who with todo := rest, flag := false } who)
  | suspend (rest : List Op) (htodo : (s.process who).todo = .wait :: rest)
      (hsuspended : (s.process who).suspended = false)
      (hflag : (s.process who).flag = false) :
      Gone who s (s.set { s.process who with suspended := true } who)

theorem gone_of_go {who : Who} {s next : Processes}
    (hnext : s.go who = some next) : Gone who s next := by
  simp only [go] at hnext
  split at hnext
  · cases hnext
  · case h_2 rest htodo =>
      cases hnext
      exact .print rest htodo
  · case h_3 rest htodo =>
      cases hnext
      exact .tell rest htodo
  · case h_4 rest htodo =>
      split at hnext
      · cases hnext
      · case isFalse hsuspended =>
          split at hnext
          · case isTrue hflag =>
              cases hnext
              exact .waited rest htodo (by simpa using hsuspended) hflag
          · case isFalse hflag =>
              cases hnext
              exact .suspend rest htodo (by simpa using hsuspended)
                (by simpa using hflag)

def deliver (who : Who) (s : Processes) : Option Processes :=
  let p := s.process who
  if p.pending ∧ (p.suspended ∨ ¬p.blocked) then some (s.set p.usr who)
  else none

def step (s : Processes) : Action → Option Processes
  | .go who => s.go who
  | .deliver who => s.deliver who

/-! ### Taking turns -/

def rounds : Nat → List Op
  | 0 => []
  | k + 1 => .wait :: .print :: .tell :: rounds k

/-- `main` is the case `0`: the parent waits and prints. -/
def parentProgram (k : Nat) : List Op :=
  rounds k ++ [.wait, .print]

/-- The child prints and tells. -/
def childProgram (k : Nat) : List Op :=
  .print :: .tell :: rounds k

/-- The child first, then each in its turn. -/
def turns (m : Nat) : List Who :=
  (List.range m).map fun i => if i % 2 = 0 then .child else .parent

/-- What can be left of the parent's program. -/
inductive ParentTodo : List Op → Prop where
  | wait (k : Nat) : ParentTodo (parentProgram k)
  | print (k : Nat) : ParentTodo (.print :: .tell :: parentProgram k)
  | tell (k : Nat) : ParentTodo (.tell :: parentProgram k)
  | last : ParentTodo [.print]
  | done : ParentTodo []

/-- What can be left of the child's. -/
inductive ChildTodo : List Op → Prop where
  | wait (k : Nat) : ChildTodo (rounds k)
  | print (k : Nat) : ChildTodo (.print :: .tell :: rounds k)
  | tell (k : Nat) : ChildTodo (.tell :: rounds k)

@[simp] theorem count_tell_rounds (k : Nat) : (rounds k).count .tell = k := by
  induction k with
  | zero => rfl
  | succ k ih => simp [rounds, ih]

@[simp] theorem count_wait_rounds (k : Nat) : (rounds k).count .wait = k := by
  induction k with
  | zero => rfl
  | succ k ih => simp [rounds, ih]

@[simp] theorem count_print_rounds (k : Nat) :
    (rounds k).count .print = k := by
  induction k with
  | zero => rfl
  | succ k ih => simp [rounds, ih]

theorem ParentTodo.tail {op : Op} {rest : List Op}
    (h : ParentTodo (op :: rest)) : ParentTodo rest := by
  generalize hl : op :: rest = l at h
  cases h with
  | wait k =>
      cases k with
      | zero =>
          cases hl
          exact .last
      | succ k =>
          cases hl
          exact .print k
  | print k =>
      cases hl
      exact .tell k
  | tell k =>
      cases hl
      exact .wait k
  | last =>
      cases hl
      exact .done
  | done => cases hl

theorem ChildTodo.tail {op : Op} {rest : List Op}
    (h : ChildTodo (op :: rest)) : ChildTodo rest := by
  generalize hl : op :: rest = l at h
  cases h with
  | wait k =>
      cases k with
      | zero => cases hl
      | succ k =>
          cases hl
          exact .print k
  | print k =>
      cases hl
      exact .tell k
  | tell k =>
      cases hl
      exact .wait k

/-- The parent has the turn as long as its next call is not a wait. -/
theorem ParentTodo.counts {l : List Op} (h : ParentTodo l) :
    (l.head? = some .wait → l.count .tell + 1 = l.count .wait ∧
      l.count .print = l.count .wait) ∧
    (l.head? = some .print → l.count .tell = l.count .wait ∧
      l.count .print = l.count .wait + 1) ∧
    (l.head? = some .tell → l.count .tell = l.count .wait ∧
      l.count .print = l.count .wait) := by
  cases h with
  | wait k =>
      have hhead : (parentProgram k).head? = some .wait := by
        cases k <;> rfl
      refine ⟨fun _ => by simp [parentProgram], fun h => ?_, fun h => ?_⟩
      · rw [hhead] at h
        cases h
      · rw [hhead] at h
        cases h
  | print k => simp [parentProgram]
  | tell k => simp [parentProgram]
  | last => simp
  | done => simp

/-- The child has it from its first call on. -/
theorem ChildTodo.counts {l : List Op} (h : ChildTodo l) :
    ((l.head? = some .wait ∨ l = []) → l.count .tell = l.count .wait ∧
      l.count .print = l.count .wait) ∧
    (l.head? = some .print → l.count .tell = l.count .wait + 1 ∧
      l.count .print = l.count .wait + 1) ∧
    (l.head? = some .tell → l.count .tell = l.count .wait + 1 ∧
      l.count .print = l.count .wait) := by
  cases h with
  | wait k => cases k <;> simp [rounds]
  | print k => simp
  | tell k => simp

theorem turns_succ (m : Nat) :
    turns (m + 1) = turns m ++ [if m % 2 = 0 then .child else .parent] := by
  simp [turns, List.range_succ]

/-- Each process still waits once for each time it will be told, and the output
takes turns. -/
structure Turns (k : Nat) (s : Processes) : Prop where
  parentTodo : ParentTodo s.parent.todo
  childTodo : ChildTodo s.child.todo
  parentCalm : s.parent.Calm
  childCalm : s.child.Calm
  parentSignals : s.parent.signals + s.child.todo.count .tell =
    s.parent.todo.count .wait
  childSignals : s.child.signals + s.parent.todo.count .tell =
    s.child.todo.count .wait
  prints : s.output.length + s.parent.todo.count .print +
    s.child.todo.count .print = 2 * k + 2
  order : s.output = turns s.output.length

variable {k : Nat} {s next : Processes}

theorem turns_start (k : Nat) :
    (start (parentProgram k) (childProgram k)).Turns k := by
  refine ⟨.wait k, .print k, Process.calm_start _, Process.calm_start _, ?_,
    ?_, ?_, rfl⟩
  · simp [start, Process.start, Process.signals, parentProgram, childProgram]
  · simp [start, Process.start, Process.signals, parentProgram, childProgram]
  · simp [start, Process.start, parentProgram, childProgram]
    omega

/-- While the parent has the turn, no signal is on its way and the child
waits. -/
theorem Turns.parent_turn (hs : s.Turns k)
    (hturn : s.parent.todo.head? = some .print ∨
      s.parent.todo.head? = some .tell) :
    s.parent.signals = 0 ∧ s.child.signals = 0 ∧
      s.child.todo.count .print = s.child.todo.count .wait ∧
      s.child.todo.count .tell = s.child.todo.count .wait := by
  have hp := hs.parentTodo.counts
  have hc := hs.childTodo.counts
  have hps := hs.parentSignals
  have hcs := hs.childSignals
  cases hhead : s.child.todo with
  | nil => grind
  | cons op rest =>
      rw [hhead] at hc hps hcs
      cases op <;> grind

theorem Turns.child_turn (hs : s.Turns k)
    (hturn : s.child.todo.head? = some .print ∨
      s.child.todo.head? = some .tell) :
    s.parent.signals = 0 ∧ s.child.signals = 0 ∧
      s.parent.todo.count .print = s.parent.todo.count .wait ∧
      s.parent.todo.count .tell + 1 = s.parent.todo.count .wait := by
  have hp := hs.parentTodo.counts
  have hc := hs.childTodo.counts
  have hps := hs.parentSignals
  have hcs := hs.childSignals
  cases hhead : s.parent.todo with
  | nil =>
      rw [hhead] at hps hcs
      grind
  | cons op rest =>
      rw [hhead] at hp hps hcs
      cases op <;> grind

theorem order_concat {output : List Who} {who : Who}
    (horder : output = turns output.length)
    (hturn : (if output.length % 2 = 0 then Who.child else .parent) = who) :
    output ++ [who] = turns (output ++ [who]).length := by
  rw [List.length_append, List.length_singleton, turns_succ, hturn, ← horder]

/-- A signal is only sent where none is on its way. -/
theorem signals_kill {p : Process} (hzero : p.signals = 0) :
    p.kill.signals = 1 := by
  obtain ⟨todo, suspended, flag, pending, blocked⟩ := p
  cases flag <;> cases pending <;> simp_all [Process.signals, Process.kill]

theorem Turns.go_parent (hs : s.Turns k) (hnext : Gone .parent s next) :
    next.Turns k := by
  have hturn := hs.parent_turn
  have hcounts := hs.parentTodo.counts
  obtain ⟨hparent, hchild, hpcalm, hccalm, hps, hcs, hprints, horder⟩ := hs
  cases hnext with
  | print rest htodo =>
      change s.parent.todo = _ at htodo
      rw [htodo] at hturn hcounts hparent hps hcs hprints
      obtain ⟨hpzero, -, hcprint, hctell⟩ := hturn (Or.inl rfl)
      have hprint := (hcounts.2.1 rfl).2
      refine ⟨hparent.tail, hchild, hpcalm.next (by simp [htodo]) rest, hccalm,
        ?_, ?_, ?_, ?_⟩
      · simpa [Process.signals, process, set] using hps
      · simpa [process, set] using hcs
      · simp [process, set] at hprints ⊢
        omega
      · refine order_concat horder (if_neg ?_)
        omega
  | tell rest htodo =>
      change s.parent.todo = _ at htodo
      rw [htodo] at hturn hparent hps hcs hprints
      obtain ⟨-, hczero, -, -⟩ := hturn (Or.inr rfl)
      refine ⟨hparent.tail, hchild, hpcalm.next (by simp [htodo]) rest,
        hccalm.kill, ?_, ?_, ?_, horder⟩
      · simpa [Process.signals, process, set, Who.other] using hps
      · change s.child.kill.signals + rest.count .tell =
          s.child.todo.count .wait
        rw [signals_kill hczero]
        simp [hczero] at hcs
        omega
      · simpa [process, set, Who.other] using hprints
  | waited rest htodo hsuspended hflag =>
      change s.parent.todo = _ at htodo
      change s.parent.flag = true at hflag
      rw [htodo] at hparent hps hcs hprints
      refine ⟨hparent.tail, hchild, hpcalm.waited hsuspended rest, hccalm, ?_,
        ?_, ?_, horder⟩
      · simp [Process.signals, hflag, process, set] at hps ⊢
        omega
      · simpa [process, set] using hcs
      · simpa [process, set] using hprints
  | suspend rest htodo _ hflag =>
      change s.parent.todo = _ at htodo
      exact ⟨hparent, hchild, hpcalm.suspend hflag (by simp [htodo]), hccalm,
        hps, hcs, hprints, horder⟩

theorem Turns.go_child (hs : s.Turns k) (hnext : Gone .child s next) :
    next.Turns k := by
  have hturn := hs.child_turn
  have hcounts := hs.childTodo.counts
  obtain ⟨hparent, hchild, hpcalm, hccalm, hps, hcs, hprints, horder⟩ := hs
  cases hnext with
  | print rest htodo =>
      change s.child.todo = _ at htodo
      rw [htodo] at hturn hcounts hchild hps hcs hprints
      obtain ⟨hpzero, -, hpprint, hptell⟩ := hturn (Or.inl rfl)
      have hprint := hcounts.2.1 rfl
      refine ⟨hparent, hchild.tail, hpcalm, hccalm.next (by simp [htodo]) rest,
        ?_, ?_, ?_, ?_⟩
      · simpa [process, set] using hps
      · simpa [Process.signals, process, set] using hcs
      · simp [process, set] at hprints ⊢
        omega
      · refine order_concat horder (if_pos ?_)
        omega
  | tell rest htodo =>
      change s.child.todo = _ at htodo
      rw [htodo] at hturn hchild hps hcs hprints
      obtain ⟨hpzero, -, -, -⟩ := hturn (Or.inr rfl)
      refine ⟨hparent, hchild.tail, hpcalm.kill,
        hccalm.next (by simp [htodo]) rest, ?_, ?_, ?_, horder⟩
      · change s.parent.kill.signals + rest.count .tell =
          s.parent.todo.count .wait
        rw [signals_kill hpzero]
        simp [hpzero] at hps
        omega
      · simpa [Process.signals, process, set, Who.other] using hcs
      · simpa [process, set, Who.other] using hprints
  | waited rest htodo hsuspended hflag =>
      change s.child.todo = _ at htodo
      change s.child.flag = true at hflag
      rw [htodo] at hchild hps hcs hprints
      refine ⟨hparent, hchild.tail, hpcalm, hccalm.waited hsuspended rest, ?_,
        ?_, ?_, horder⟩
      · simpa [process, set] using hps
      · simp [Process.signals, hflag, process, set] at hcs ⊢
        omega
      · simpa [process, set] using hprints
  | suspend rest htodo _ hflag =>
      change s.child.todo = _ at htodo
      exact ⟨hparent, hchild, hpcalm, hccalm.suspend hflag (by simp [htodo]),
        hps, hcs, hprints, horder⟩

/-- The signal moves from the kernel into `flag`. -/
theorem signals_usr {p : Process} (hpending : p.pending = true)
    (hflag : p.flag = false) : p.usr.signals = p.signals := by
  simp [Process.signals, Process.usr, hpending, hflag]

theorem Turns.deliver (hs : s.Turns k) {who : Who}
    (hnext : s.deliver who = some next) : next.Turns k := by
  obtain ⟨hparent, hchild, hpcalm, hccalm, hps, hcs, hprints, horder⟩ := hs
  rw [Processes.deliver] at hnext
  split at hnext
  · case isTrue hready =>
      obtain ⟨hpending, hready⟩ := hready
      cases hnext
      cases who with
      | parent =>
          have hsuspended : s.parent.suspended = true :=
            hready.resolve_right fun h => h hpcalm.blocked
          refine ⟨hparent, hchild, hpcalm.usr hsuspended, hccalm, ?_, hcs,
            hprints, horder⟩
          have hkept : s.parent.usr.signals = s.parent.signals :=
            signals_usr hpending (hpcalm.suspended hsuspended).1
          exact (congrArg (· + _) hkept).trans hps
      | child =>
          have hsuspended : s.child.suspended = true :=
            hready.resolve_right fun h => h hccalm.blocked
          refine ⟨hparent, hchild, hpcalm, hccalm.usr hsuspended, hps, ?_,
            hprints, horder⟩
          have hkept : s.child.usr.signals = s.child.signals :=
            signals_usr hpending (hccalm.suspended hsuspended).1
          exact (congrArg (· + _) hkept).trans hcs
  · cases hnext

theorem Turns.step (hs : s.Turns k) {action : Action}
    (hnext : s.step action = some next) : next.Turns k := by
  cases action with
  | go who =>
      cases who with
      | parent => exact hs.go_parent (gone_of_go hnext)
      | child => exact hs.go_child (gone_of_go hnext)
  | deliver who => exact hs.deliver hnext

/-! ### Every wait ends -/

theorem exists_step (who : Who) (hcalm : (s.process who).Calm)
    (htodo : (s.process who).todo ≠ []) :
    (∃ action next, s.step action = some next) ∨
      ((s.process who).todo.head? = some .wait ∧
        (s.process who).signals = 0) := by
  have hgo (hsome : (s.go who).isSome) :
      ∃ action next, s.step action = some next :=
    ⟨.go who, (s.go who).get hsome, (Option.some_get hsome).symm⟩
  cases hlist : (s.process who).todo with
  | nil => exact absurd hlist htodo
  | cons op rest =>
      cases op with
      | print => exact Or.inl (hgo (by simp [go, hlist]))
      | tell => exact Or.inl (hgo (by simp [go, hlist]))
      | wait =>
          by_cases hsuspended : (s.process who).suspended = true
          · have hflag := (hcalm.suspended hsuspended).1
            by_cases hpending : (s.process who).pending = true
            · left
              refine ⟨.deliver who, s.set (s.process who).usr who, ?_⟩
              simp only [step, deliver]
              exact if_pos ⟨hpending, Or.inl hsuspended⟩
            · right
              refine ⟨rfl, ?_⟩
              simp [Process.signals, hflag, hpending]
          · left
            refine hgo ?_
            by_cases hflag : (s.process who).flag = true
            · simp [go, hlist, hsuspended, hflag]
            · simp [go, hlist, hsuspended, hflag]

/-- Where nothing more can happen, both programs are at their end. -/
theorem Turns.done (hs : s.Turns k) (hstuck : ∀ action, s.step action = none) :
    s.parent.todo = [] ∧ s.child.todo = [] := by
  have hnever : ¬∃ action next, s.step action = some next := by
    rintro ⟨action, next, hnext⟩
    rw [hstuck action] at hnext
    cases hnext
  have hp : s.parent.todo = [] ∨ (s.parent.todo.head? = some .wait ∧
      s.parent.signals = 0) := by
    by_cases hnil : s.parent.todo = []
    · exact Or.inl hnil
    · exact Or.inr ((exists_step .parent hs.parentCalm hnil).resolve_left
        hnever)
  have hc : s.child.todo = [] ∨ (s.child.todo.head? = some .wait ∧
      s.child.signals = 0) := by
    by_cases hnil : s.child.todo = []
    · exact Or.inl hnil
    · exact Or.inr ((exists_step .child hs.childCalm hnil).resolve_left hnever)
  have hpcounts := hs.parentTodo.counts
  have hccounts := hs.childTodo.counts
  have hps := hs.parentSignals
  have hcs := hs.childSignals
  have hpositive {l : List Op} (hhead : l.head? = some .wait) :
      0 < l.count .wait :=
    List.count_pos_iff.mpr (List.mem_of_head? hhead)
  obtain hpnil | ⟨hphead, hpzero⟩ := hp
  · refine ⟨hpnil, hc.resolve_right ?_⟩
    rintro ⟨hchead, hczero⟩
    have htell := (hccounts.1 (Or.inl hchead)).1
    have hwait := hpositive hchead
    rw [hpnil, List.count_nil] at hps hcs
    omega
  · have htell := (hpcounts.1 hphead).1
    have hwait := hpositive hphead
    obtain hcnil | ⟨hchead, hczero⟩ := hc
    · rw [hcnil, List.count_nil] at hps
      omega
    · have htellChild := (hccounts.1 (Or.inl hchead)).1
      omega

theorem Turns.left_gone (hs : s.Turns k) {who : Who}
    (hnext : Gone who s next) :
    next.parent.left + next.child.left + 1 = s.parent.left + s.child.left := by
  have hcalm : (s.process who).Calm := by
    cases who with
    | parent => exact hs.parentCalm
    | child => exact hs.childCalm
  have hset (p : Process) (hleft : p.left + 1 = (s.process who).left) :
      (s.set p who).parent.left + (s.set p who).child.left + 1 =
        s.parent.left + s.child.left := by
    cases who with
    | parent =>
        change p.left + s.child.left + 1 = _
        change p.left + 1 = s.parent.left at hleft
        omega
    | child =>
        change s.parent.left + p.left + 1 = _
        change p.left + 1 = s.child.left at hleft
        omega
  cases hnext with
  | print rest htodo => exact hset _ (hcalm.left_next htodo (by decide))
  | tell rest htodo =>
      have hleft := hset _ (hcalm.left_next htodo (by decide))
      cases who with
      | parent => exact hleft
      | child => exact hleft
  | waited rest htodo hsuspended hflag =>
      exact hset _ (Process.left_waited htodo hsuspended hflag)
  | suspend rest htodo hsuspended hflag =>
      exact hset _ (Process.left_suspend htodo hsuspended hflag)

theorem Turns.left_step (hs : s.Turns k) {action : Action}
    (hnext : s.step action = some next) :
    next.parent.left + next.child.left + 1 = s.parent.left + s.child.left := by
  cases action with
  | go who => exact hs.left_gone (gone_of_go hnext)
  | deliver who =>
      simp only [Processes.step, Processes.deliver] at hnext
      split at hnext
      · case isTrue hready =>
          cases hnext
          cases who with
          | parent =>
              have hleft := hs.parentCalm.left_usr
                (hready.2.resolve_right fun h => h hs.parentCalm.blocked)
              change s.parent.usr.left + s.child.left + 1 = _
              omega
          | child =>
              have hleft := hs.childCalm.left_usr
                (hready.2.resolve_right fun h => h hs.childCalm.blocked)
              change s.parent.left + s.child.usr.left + 1 = _
              omega
      · cases hnext

/-- What holds after a run, and how long it was. -/
theorem turns_run {actions : List Action}
    (hrun : run step (start (parentProgram k) (childProgram k)) actions =
      some s) :
    s.Turns k ∧
      actions.length + s.parent.left + s.child.left = 10 * k + 6 := by
  have hlength : ∀ {s : Processes} {actions : List Action} {final},
      s.Turns k → run step s actions = some final →
        actions.length + final.parent.left + final.child.left =
          s.parent.left + s.child.left := by
    intro s actions
    induction actions generalizing s with
    | nil =>
        intro final _ hrun
        cases hrun
        simp
    | cons action rest ih =>
        intro final hs hrun
        rw [run_cons, Option.bind_eq_some_iff] at hrun
        obtain ⟨next, hnext, hrest⟩ := hrun
        have htail := ih (hs.step hnext) hrest
        have hhead := hs.left_step hnext
        rw [List.length_cons]
        omega
  refine ⟨run_invariant (fun _ _ _ hs hnext => hs.step hnext)
    (turns_start k) hrun, ?_⟩
  rw [hlength (turns_start k) hrun]
  simp [start, Process.start, Process.left, parentProgram, childProgram]
  omega

theorem turns_prefix {m n : Nat} (hle : m ≤ n) : turns m <+: turns n := by
  obtain ⟨d, rfl⟩ := Nat.exists_eq_add_of_le hle
  rw [turns, turns, List.range_add, List.map_append]
  exact List.prefix_append _ _

/-- In whatever order the processes and their signals go on, the child prints
first and then each in its turn, and no signal is lost: a run that comes to an
end has printed all, after `10 * k + 6` steps. -/
theorem takes_turns (k : Nat) (actions : List Action) (s : Processes)
    (hrun : run step (start (parentProgram k) (childProgram k)) actions =
      some s) :
    s.output <+: turns (2 * k + 2) ∧ actions.length ≤ 10 * k + 6 ∧
      ((∀ action, s.step action = none) →
        s.output = turns (2 * k + 2) ∧ actions.length = 10 * k + 6) := by
  obtain ⟨hs, hlength⟩ := turns_run hrun
  have hprints := hs.prints
  refine ⟨?_, by omega, fun hstuck => ?_⟩
  · rw [hs.order]
    exact turns_prefix (by omega)
  · obtain ⟨hp, hc⟩ := hs.done hstuck
    rw [hp, hc, List.count_nil] at hprints
    refine ⟨?_, ?_⟩
    · rw [hs.order, ← hprints]
      rfl
    · have hpleft : s.parent.left = 0 := by simp [Process.left, hp]
      have hcleft : s.child.left = 0 := by simp [Process.left, hc]
      omega

/-- `main`, where the parent waits before it is told. -/
theorem takes_turns_main :
    ∃ s, run step (start [.wait, .print] [.print, .tell])
        [.go .parent, .go .child, .go .child, .deliver .parent, .go .parent,
          .go .parent] = some s ∧
      s.output <+: [.child, .parent] ∧ 6 ≤ 6 ∧
      ((∀ action, s.step action = none) →
        s.output = [.child, .parent] ∧ 6 = 6) :=
  ⟨_, rfl, takes_turns 0 [.go .parent, .go .child, .go .child,
    .deliver .parent, .go .parent, .go .parent] _ rfl⟩

end Processes

end SyncProc

end LinuxTest
