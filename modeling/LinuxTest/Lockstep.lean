/-
Programs that answer every call they are given, or break off.  Two of them that
break off together and otherwise give equal answers, call by call, cannot be
told apart by any sequence of calls.
-/
import Mathlib.Data.Option.Basic

namespace LinuxTest

universe u v w z

variable {S : Type u} {T : Type v} {A : Type w} {B : Type z}

/-- The answers to a list of calls and the state behind the last. -/
def answers (step : S → A → Option (B × S)) :
    S → List A → Option (List B × S)
  | state, [] => some ([], state)
  | state, call :: rest =>
      (step state call).bind fun reply =>
        (answers step reply.2 rest).map fun later =>
          (reply.1 :: later.1, later.2)

/-- Both break off, or both give the same answer and end in related states. -/
def Agree (R : S → T → Prop) (x : Option (B × S)) (y : Option (B × T)) :
    Prop :=
  Option.Rel (fun a b => a.1 = b.1 ∧ R a.2 b.2) x y

variable {R : S → T → Prop} {step : S → A → Option (B × S)}
  {spec : T → A → Option (B × T)}

theorem Agree.broken : Agree R (none : Option (B × S)) none := Option.Rel.none

theorem Agree.answered {b : B} {s : S} {t : T} (hR : R s t) :
    Agree R (some (b, s)) (some (b, t)) :=
  Option.Rel.some ⟨rfl, hR⟩

theorem Agree.cases {x : Option (B × S)} {y : Option (B × T)}
    (hagree : Agree R x y) :
    (x = none ∧ y = none) ∨
      ∃ b s t, x = some (b, s) ∧ y = some (b, t) ∧ R s t := by
  cases hagree with
  | none => exact Or.inl ⟨rfl, rfl⟩
  | @some a b hboth =>
      obtain ⟨answer, state⟩ := a
      obtain ⟨other, abstract⟩ := b
      obtain ⟨rfl, hR⟩ := hboth
      exact Or.inr ⟨answer, state, abstract, rfl, rfl, hR⟩

/-- The simulation rule: what agrees on every call agrees on every list. -/
theorem answers_agree
    (hstep : ∀ s t call, R s t → Agree R (step s call) (spec t call))
    {s : S} {t : T} (hR : R s t) (calls : List A) :
    Agree R (answers step s calls) (answers spec t calls) := by
  induction calls generalizing s t with
  | nil => exact Agree.answered hR
  | cons call rest ih =>
      rcases (hstep s t call hR).cases with ⟨hx, hy⟩ | ⟨b, s', t', hx, hy, hR'⟩
      · rw [answers, answers, hx, hy]
        exact Agree.broken
      · rw [answers, answers, hx, hy, Option.bind_some, Option.bind_some]
        rcases (ih hR').cases with ⟨hx, hy⟩ | ⟨bs, s'', t'', hx, hy, hR''⟩
        · rw [hx, hy]
          exact Agree.broken
        · rw [hx, hy]
          exact Agree.answered hR''

end LinuxTest
