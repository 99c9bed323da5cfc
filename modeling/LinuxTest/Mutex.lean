/-
A mutex among any number of agents, told by which of them are inside it: the
owner on record against the agents' own places in their code.
-/
import Mathlib.Logic.Function.Basic

namespace LinuxTest

universe u

variable {A : Type u}

/-- The owner of the mutex is the one agent inside; none is when it is free. -/
def Owned (lock : Option A) (inside : A → Bool) : Prop :=
  ∀ agent, lock = some agent ↔ inside agent = true

variable {lock : Option A} {inside : A → Bool} {agent : A}

/-- A mutex with nobody inside is free. -/
theorem Owned.free (howned : Owned lock inside)
    (hout : ∀ agent, inside agent = false) : lock = none := by
  cases hlock : lock with
  | none => rfl
  | some agent =>
      have hin := (howned agent).mp hlock
      rw [hout agent] at hin
      cases hin

variable [DecidableEq A]

theorem Owned.acquire (howned : Owned none inside) (agent : A) :
    Owned (some agent) (Function.update inside agent true) := by
  intro other
  by_cases hsame : other = agent
  · simp [hsame]
  · have hout : inside other ≠ true := by
      intro hin
      cases (howned other).mpr hin
    rw [Function.update_of_ne hsame]
    constructor
    · intro hlock
      exact absurd (Option.some.inj hlock).symm hsame
    · intro hin
      exact absurd hin hout

theorem Owned.release (howned : Owned lock inside)
    (hin : inside agent = true) :
    Owned none (Function.update inside agent false) := by
  intro other
  by_cases hsame : other = agent
  · simp [hsame]
  · rw [Function.update_of_ne hsame]
    constructor
    · intro hlock
      cases hlock
    · intro hother
      have hlock := (howned agent).mpr hin
      rw [(howned other).mpr hother] at hlock
      exact absurd (Option.some.inj hlock) hsame

end LinuxTest
