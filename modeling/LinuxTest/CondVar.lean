/-
Finitely many agents that wait on condition variables: how many of them stand at
places of some kind, and what one waking up, or all of them, does to that
number.
-/
import Mathlib.Algebra.BigOperators.Group.Finset.Piecewise
import Mathlib.Data.Fintype.Card
import Mathlib.Logic.Function.Basic

namespace LinuxTest

universe u v

variable {I : Type u} {A : Type v} [Fintype I]

/-- The number of agents whose place is of kind `p`. -/
def census (p : A → Bool) (places : I → A) : Nat :=
  (Finset.univ.filter fun agent => p (places agent)).card

variable {p : A → Bool} {places : I → A}

theorem census_le_card (p : A → Bool) (places : I → A) :
    census p places ≤ Fintype.card I :=
  Finset.card_filter_le _ _

theorem census_eq_zero_iff :
    census p places = 0 ↔ ∀ agent, p (places agent) = false := by
  simp [census, Finset.filter_eq_empty_iff]

/-- The agents at places of a kind and those at others are all the agents. -/
theorem census_add_census_not (p : A → Bool) (places : I → A) :
    census p places + census (fun place => !p place) places =
      Fintype.card I := by
  have hsum : _ = (Finset.univ : Finset I).card :=
    Finset.card_filter_add_card_filter_not fun agent => p (places agent) = true
  simpa [census] using hsum

variable [DecidableEq I]

/-- One agent moves. -/
theorem census_update (p : A → Bool) (places : I → A) (agent : I) (place : A) :
    census p (Function.update places agent place) +
        (if p (places agent) then 1 else 0) =
      census p places + (if p place then 1 else 0) := by
  have hsplit (other : I → A) : census p other =
      (if p (other agent) then 1 else 0) +
        ∑ i ∈ Finset.univ.erase agent, if p (other i) then 1 else 0 := by
    rw [census, Finset.card_filter]
    exact (Finset.add_sum_erase _ (fun i => if p (other i) then 1 else 0)
      (Finset.mem_univ agent)).symm
  have hothers : (∑ i ∈ Finset.univ.erase agent,
      if p (Function.update places agent place i) then 1 else 0) =
      ∑ i ∈ Finset.univ.erase agent, if p (places i) then 1 else 0 := by
    apply Finset.sum_congr rfl
    intro i hi
    rw [Function.update_of_ne (Finset.ne_of_mem_erase hi)]
  rw [hsplit (Function.update places agent place), hsplit places, hothers,
    Function.update_self]
  omega

/-- An agent that moves between two places of which a kind holds both or
neither. -/
theorem census_update_of_eq {agent : I} {place : A}
    (hsame : p place = p (places agent)) :
    census p (Function.update places agent place) = census p places := by
  have hmove := census_update p places agent place
  rw [hsame] at hmove
  omega

/-! ### Condition variables -/

section Notify

variable {asleep q : A → Bool} {awaken : A → A} {next : I → A}
  {wake : Option I}

/-- `notify`: the agent named by `wake` goes on from its sleep; nobody does when
nobody is asleep. -/
def notify (asleep : A → Bool) (awaken : A → A) (places : I → A) :
    Option I → Option (I → A)
  | some agent =>
      if asleep (places agent) then
        some (Function.update places agent (awaken (places agent)))
      else none
  | none => if ∃ agent, asleep (places agent) then none else some places

/-- `notifyAll`. -/
def notifyAll (asleep : A → Bool) (awaken : A → A) (places : I → A) : I → A :=
  fun agent =>
    if asleep (places agent) then awaken (places agent) else places agent

/-- Who wakes up, or that nobody was asleep. -/
theorem notify_cases (hnotify : notify asleep awaken places wake = some next) :
    (∃ agent, wake = some agent ∧ asleep (places agent) ∧
      next = Function.update places agent (awaken (places agent))) ∨
    (wake = none ∧ next = places ∧ census asleep places = 0) := by
  cases wake with
  | some agent =>
      rw [notify] at hnotify
      split at hnotify
      · case isTrue hasleep =>
          cases hnotify
          exact Or.inl ⟨agent, rfl, hasleep, rfl⟩
      · cases hnotify
  | none =>
      rw [notify] at hnotify
      split at hnotify
      · cases hnotify
      · case isFalse hnobody =>
          cases hnotify
          refine Or.inr ⟨rfl, rfl, census_eq_zero_iff.mpr fun agent => ?_⟩
          exact Bool.eq_false_iff.mpr fun hagent => hnobody ⟨agent, hagent⟩

/-- One sleeper fewer, if there was one. -/
theorem census_asleep_notify (hawake : ∀ place, asleep (awaken place) = false)
    (hnotify : notify asleep awaken places wake = some next) :
    census asleep next = census asleep places - 1 := by
  rcases notify_cases hnotify with
    ⟨agent, _, hasleep, rfl⟩ | ⟨_, rfl, hzero⟩
  · have hmove := census_update asleep places agent (awaken (places agent))
    rw [hasleep, hawake] at hmove
    simp only [if_true, Bool.false_eq_true, if_false] at hmove
    omega
  · omega

/-- A kind of place that waking up does not leave or enter. -/
theorem census_notify
    (hsame : ∀ place, asleep place → q (awaken place) = q place)
    (hnotify : notify asleep awaken places wake = some next) :
    census q next = census q places := by
  rcases notify_cases hnotify with ⟨agent, _, hasleep, rfl⟩ | ⟨_, rfl, _⟩
  · have hmove := census_update q places agent (awaken (places agent))
    rw [hsame _ hasleep] at hmove
    omega
  · rfl

omit [DecidableEq I] in
theorem census_notifyAll
    (hsame : ∀ place, asleep place → q (awaken place) = q place) :
    census q (notifyAll asleep awaken places) = census q places := by
  have hplace (agent : I) :
      q (notifyAll asleep awaken places agent) = q (places agent) := by
    rw [notifyAll]
    split
    · case isTrue hasleep => exact hsame _ hasleep
    · rfl
  simp only [census, hplace]

omit [DecidableEq I] in
theorem census_asleep_notifyAll
    (hawake : ∀ place, asleep (awaken place) = false) :
    census asleep (notifyAll asleep awaken places) = 0 := by
  rw [census_eq_zero_iff]
  intro agent
  rw [notifyAll]
  split
  · exact hawake _
  · case isFalse hasleep => exact Bool.eq_false_iff.mpr hasleep

end Notify

end LinuxTest
