/-
`ScopedLock` over a `CASLock`: any number of guards, in any number of threads,
that are constructed, locked, unlocked and destroyed in any order.  Each step is
one access to the atomic flag or to `m_locked`.  A guard is an object of its own
in one thread: copies, and guards that threads share, are left out.
-/
import LinuxTest.Mutex
import LinuxTest.Runs

namespace LinuxTest

namespace Sone

universe u

/-- Where a guard is: not there, between two calls, at the `test_and_set` of
`CASLock::lock` or behind it, or behind the `clear` of `CASLock::unlock`. -/
inductive GuardPc where
  | absent
  | idle
  | spinning
  | gained
  | cleared
deriving DecidableEq

/-- A guard; `dying` once its destructor has begun. -/
structure ScopedLock where
  pc : GuardPc
  m_locked : Bool
  dying : Bool

/-- The guard has the lock: from its `test_and_set` to its `clear`. -/
def ScopedLock.holds (guard : ScopedLock) : Bool :=
  match guard.pc with
  | .gained => true
  | .idle => guard.m_locked
  | _ => false

/-- The flag of the lock, and the guards on it. -/
structure CASLock (A : Type u) where
  flag : Bool
  guard : A → ScopedLock

/-- The memory of a new guard holds any value of `m_locked`. -/
inductive GuardStep (A : Type u) where
  | construct (a : A) (garbage : Bool)
  | lock (a : A)
  | test_and_set (a : A)
  | setLocked (a : A)
  | unlock (a : A)
  | setUnlocked (a : A)
  | destroy (a : A)

namespace CASLock

variable {A : Type u}

def init : CASLock A := ⟨false, fun _ => ⟨.absent, false, false⟩⟩

def inside (s : CASLock A) (a : A) : Bool := (s.guard a).holds

/-- At most one guard has the lock, and the flag is up while one has it. -/
structure Exclusive (s : CASLock A) : Prop where
  apart : ∀ a b, s.inside a = true → s.inside b = true → a = b
  flag : s.flag = true ↔ ∃ a, s.inside a = true

variable [DecidableEq A]

def setGuard (s : CASLock A) (a : A) (flag : Bool) (guard : ScopedLock) :
    CASLock A :=
  ⟨flag, Function.update s.guard a guard⟩

/-- `unlock`, and the destructor, which calls it. -/
def release (s : CASLock A) (a : A) (dying : Bool) : CASLock A :=
  if (s.guard a).m_locked then s.setGuard a false ⟨.cleared, true, dying⟩
  else s.setGuard a s.flag ⟨if dying then .absent else .idle, false, dying⟩

/-- A step that its guard is not at changes nothing.  The constructor locks
without asking `m_locked`. -/
def step (s : CASLock A) : GuardStep A → CASLock A
  | .construct a garbage =>
      match (s.guard a).pc with
      | .absent => s.setGuard a s.flag ⟨.spinning, garbage, false⟩
      | _ => s
  | .lock a =>
      match (s.guard a).pc with
      | .idle =>
          if (s.guard a).m_locked then s
          else s.setGuard a s.flag ⟨.spinning, false, false⟩
      | _ => s
  | .test_and_set a =>
      match (s.guard a).pc with
      | .spinning =>
          if s.flag then s
          else s.setGuard a true ⟨.gained, (s.guard a).m_locked, false⟩
      | _ => s
  | .setLocked a =>
      match (s.guard a).pc with
      | .gained => s.setGuard a s.flag ⟨.idle, true, false⟩
      | _ => s
  | .unlock a =>
      match (s.guard a).pc with
      | .idle => s.release a false
      | _ => s
  | .setUnlocked a =>
      match (s.guard a).pc with
      | .cleared => s.setGuard a s.flag
          ⟨if (s.guard a).dying then .absent else .idle, false,
            (s.guard a).dying⟩
      | _ => s
  | .destroy a =>
      match (s.guard a).pc with
      | .idle => s.release a true
      | _ => s

/-- The flag tells whether the mutex has an owner. -/
def Held (s : CASLock A) : Prop :=
  ∃ owner : Option A, Owned owner s.inside ∧ s.flag = owner.isSome

variable {s : CASLock A} {a : A} {guard : ScopedLock} {flag : Bool}

omit [DecidableEq A] in
theorem held_init : (init : CASLock A).Held := by
  refine ⟨none, fun agent => ?_, rfl⟩
  simp [init, inside, ScopedLock.holds]

omit [DecidableEq A] in
theorem Held.exclusive (hs : s.Held) : s.Exclusive := by
  obtain ⟨owner, howned, hflag⟩ := hs
  refine ⟨fun a b ha hb => ?_, ?_⟩
  · have hlock := (howned a).mpr ha
    rw [(howned b).mpr hb] at hlock
    exact (Option.some.inj hlock).symm
  · rw [hflag, Option.isSome_iff_exists]
    exact exists_congr howned

omit [DecidableEq A] in
theorem inside_eq {pc : GuardPc} (hpc : (s.guard a).pc = pc) :
    s.inside a = ScopedLock.holds ⟨pc, (s.guard a).m_locked, false⟩ := by
  rw [inside, ScopedLock.holds, hpc]
  rfl

theorem inside_setGuard (s : CASLock A) (a : A) (flag : Bool)
    (guard : ScopedLock) : (s.setGuard a flag guard).inside =
      Function.update s.inside a guard.holds := by
  funext b
  by_cases hb : b = a
  · simp [inside, setGuard, hb]
  · simp [inside, setGuard, hb]

theorem Held.keep (hs : s.Held) (hsame : guard.holds = s.inside a) :
    (s.setGuard a s.flag guard).Held := by
  obtain ⟨owner, howned, hflag⟩ := hs
  refine ⟨owner, ?_, hflag⟩
  rw [inside_setGuard, hsame, Function.update_eq_self]
  exact howned

/-- The `test_and_set` that finds the flag down. -/
theorem Held.gain (hs : s.Held) (hfree : s.flag = false)
    (hgained : guard.holds = true) : (s.setGuard a true guard).Held := by
  obtain ⟨owner, howned, hflag⟩ := hs
  obtain rfl : owner = none := by
    rw [hfree] at hflag
    exact Option.isNone_iff_eq_none.mp
      (Option.isSome_eq_false_iff.mp hflag.symm)
  refine ⟨some a, ?_, rfl⟩
  rw [inside_setGuard, hgained]
  exact howned.acquire a

/-- Only the guard that has the lock clears the flag. -/
theorem Held.clear (hs : s.Held) (hin : s.inside a = true)
    (hcleared : guard.holds = false) : (s.setGuard a false guard).Held := by
  obtain ⟨owner, howned, _⟩ := hs
  refine ⟨none, ?_, rfl⟩
  rw [inside_setGuard, hcleared]
  exact howned.release hin

theorem Held.release (hs : s.Held) (hpc : (s.guard a).pc = .idle)
    (dying : Bool) : (s.release a dying).Held := by
  have hin : s.inside a = (s.guard a).m_locked := inside_eq hpc
  rw [CASLock.release]
  split
  · case isTrue hlocked => exact hs.clear (hin.trans hlocked) rfl
  · case isFalse hlocked =>
      refine hs.keep ?_
      rw [hin, Bool.not_eq_true] at *
      rw [hlocked]
      cases dying <;> rfl

theorem Held.step (hs : s.Held) (label : GuardStep A) :
    (s.step label).Held := by
  cases label with
  | construct a garbage =>
      rw [CASLock.step]
      split
      · case h_1 hpc => exact hs.keep (inside_eq hpc).symm
      · exact hs
  | lock a =>
      rw [CASLock.step]
      split
      · case h_1 hpc =>
          split
          · exact hs
          · case isFalse hlocked =>
              refine hs.keep ?_
              rw [inside_eq hpc]
              exact (Bool.eq_false_iff.mpr hlocked).symm
      · exact hs
  | test_and_set a =>
      rw [CASLock.step]
      split
      · split
        · exact hs
        · case isFalse hfree =>
            exact hs.gain (Bool.eq_false_iff.mpr hfree) rfl
      · exact hs
  | setLocked a =>
      rw [CASLock.step]
      split
      · case h_1 hpc => exact hs.keep (inside_eq hpc).symm
      · exact hs
  | unlock a =>
      rw [CASLock.step]
      split
      · case h_1 hpc => exact hs.release hpc false
      · exact hs
  | setUnlocked a =>
      rw [CASLock.step]
      split
      · case h_1 hpc =>
          refine hs.keep ?_
          rw [inside_eq hpc]
          cases (s.guard a).dying <;> rfl
      · exact hs
  | destroy a =>
      rw [CASLock.step]
      split
      · case h_1 hpc => exact hs.release hpc true
      · exact hs

/-- Whatever the guards do, and whatever their memory held before, at most one
has the lock at any time, and the flag is up exactly while one has it: none is
taken from its holder, and none is left behind by a guard that is destroyed. -/
theorem guards_exclude (labels : List (GuardStep A)) :
    Always (fun s label => some (step s label)) Exclusive
      (init : CASLock A) labels := by
  have hany : Along (fun s label => some (step s label)) (fun _ _ => True)
      (init : CASLock A) labels := Along.of_forall fun _ _ _ => trivial
  have hheld : Always (fun s label => some (step s label)) Held
      (init : CASLock A) labels :=
    Always.of_along (fun _ label hs _ => ⟨_, rfl, hs.step label⟩) held_init hany
  exact hheld.mono fun _ hs => hs.exclusive

end CASLock

end Sone

end LinuxTest
