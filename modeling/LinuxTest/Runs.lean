/-
Runs of a partial deterministic step function over a list of labels.  A step
that returns `none` is stuck: the program has left its defined behaviour.  The
rules below turn one-step facts into facts about every state of a run.
-/
import Mathlib.Data.List.Infix

namespace LinuxTest

universe u v

variable {S : Type u} {A : Type v}

/-- Take the labelled steps in order; `none` once a step is stuck. -/
def run (step : S → A → Option S) : S → List A → Option S
  | state, [] => some state
  | state, label :: rest => (step state label).bind fun next =>
      run step next rest

/-- `good` holds of every step the run takes, at the state before it. -/
def Along (step : S → A → Option S) (good : S → A → Prop) :
    S → List A → Prop
  | _, [] => True
  | state, label :: rest => good state label ∧
      ∀ next, step state label = some next → Along step good next rest

/-- No step is stuck and `inv` holds in every state of the run, the first and
the last included. -/
def Always (step : S → A → Option S) (inv : S → Prop) :
    S → List A → Prop
  | state, [] => inv state
  | state, label :: rest => inv state ∧
      ∃ next, step state label = some next ∧ Always step inv next rest

variable {step : S → A → Option S}

@[simp] theorem run_nil (state : S) : run step state [] = some state := rfl

theorem run_cons (state : S) (label : A) (rest : List A) :
    run step state (label :: rest) =
      (step state label).bind fun next => run step next rest := rfl

theorem run_append (state : S) (first last : List A) :
    run step state (first ++ last) =
      (run step state first).bind fun next => run step next last := by
  induction first generalizing state with
  | nil => rfl
  | cons label rest ih =>
      simp only [List.cons_append, run_cons]
      cases step state label with
      | none => rfl
      | some next => exact ih next

/-- What holds at first and is kept by every step holds wherever a run ends. -/
theorem run_invariant {inv : S → Prop}
    (hstep : ∀ state label next, inv state → step state label = some next →
      inv next)
    {state final : S} {labels : List A} (hinv : inv state)
    (hrun : run step state labels = some final) : inv final := by
  induction labels generalizing state with
  | nil =>
      cases hrun
      exact hinv
  | cons label rest ih =>
      rw [run_cons, Option.bind_eq_some_iff] at hrun
      obtain ⟨next, hnext, hrest⟩ := hrun
      exact ih (hstep state label next hinv hnext) hrest

/-- The same for a run all of whose steps are good. -/
theorem run_invariant_along {good : S → A → Prop} {inv : S → Prop}
    (hstep : ∀ state label next, inv state → good state label →
      step state label = some next → inv next)
    {state final : S} {labels : List A} (hinv : inv state)
    (halong : Along step good state labels)
    (hrun : run step state labels = some final) : inv final := by
  induction labels generalizing state with
  | nil =>
      cases hrun
      exact hinv
  | cons label rest ih =>
      rw [run_cons, Option.bind_eq_some_iff] at hrun
      obtain ⟨next, hnext, hrest⟩ := hrun
      exact ih (hstep state label next hinv halong.1 hnext)
        (halong.2 next hnext) hrest

/-- A run over given labels can be checked. -/
instance Along.decidable {good : S → A → Prop}
    [∀ state label, Decidable (good state label)] :
    ∀ (state : S) (labels : List A), Decidable (Along step good state labels)
  | _, [] => isTrue trivial
  | state, label :: rest =>
      have : Decidable (∀ next, step state label = some next →
          Along step good next rest) :=
        match step state label with
        | none => isTrue nofun
        | some next =>
            have : Decidable (Along step good next rest) :=
              Along.decidable next rest
            decidable_of_iff (Along step good next rest)
              ⟨fun h _ hsome => Option.some.inj hsome ▸ h,
                fun h => h next rfl⟩
      inferInstanceAs (Decidable (_ ∧ _))

theorem Along.of_forall {good : S → A → Prop} {state : S} {labels : List A}
    (hgood : ∀ label ∈ labels, ∀ state, good state label) :
    Along step good state labels := by
  induction labels generalizing state with
  | nil => trivial
  | cons label rest ih =>
      refine ⟨hgood label List.mem_cons_self state, fun next _ => ih ?_⟩
      intro other hother
      exact hgood other (List.mem_cons_of_mem label hother)

theorem Along.cons {good : S → A → Prop} {state next : S} {label : A}
    {rest : List A} (hgood : good state label)
    (hstep : step state label = some next)
    (hrest : Along step good next rest) :
    Along step good state (label :: rest) := by
  refine ⟨hgood, ?_⟩
  intro other hother
  rw [hstep] at hother
  cases hother
  exact hrest

theorem Along.and {good other : S → A → Prop} {state : S} {labels : List A}
    (hgood : Along step good state labels)
    (hother : Along step other state labels) :
    Along step (fun state label => good state label ∧ other state label)
      state labels := by
  induction labels generalizing state with
  | nil => trivial
  | cons label rest ih =>
      refine ⟨⟨hgood.1, hother.1⟩, ?_⟩
      intro next hnext
      exact ih (hgood.2 next hnext) (hother.2 next hnext)

/-- Two conditions on steps that say the same wherever an invariant holds say
the same of a run of allowed steps, if these keep the invariant. -/
theorem Along.congr {good other allowed : S → A → Prop} {inv : S → Prop}
    (hkeeps : ∀ state label next, inv state → allowed state label →
      step state label = some next → inv next)
    (hiff : ∀ state label, inv state → allowed state label →
      (good state label ↔ other state label))
    {state : S} {labels : List A} (hinv : inv state)
    (hallowed : Along step allowed state labels) :
    Along step good state labels ↔ Along step other state labels := by
  induction labels generalizing state with
  | nil => exact Iff.rfl
  | cons label rest ih =>
      refine and_congr (hiff state label hinv hallowed.1) ?_
      refine forall_congr' fun next => forall_congr' fun hnext => ?_
      exact ih (hkeeps state label next hinv hallowed.1 hnext)
        (hallowed.2 next hnext)

/-- A good run stays good with one more good step. -/
theorem Along.concat {good : S → A → Prop} {state : S} {first : List A}
    {label : A} (halong : Along step good state first)
    (hlast : ∀ final, run step state first = some final → good final label) :
    Along step good state (first ++ [label]) := by
  induction first generalizing state with
  | nil => exact ⟨hlast state rfl, fun _ _ => trivial⟩
  | cons head rest ih =>
      refine ⟨halong.1, fun next hnext => ih (halong.2 next hnext) ?_⟩
      intro final hfinal
      exact hlast final (by rw [run_cons, hnext]; exact hfinal)

/-- The invariant rule: when every good step from an `inv` state succeeds and
keeps `inv`, a good run keeps `inv` throughout. -/
theorem Always.of_along {good : S → A → Prop} {inv : S → Prop}
    (hstep : ∀ state label, inv state → good state label →
      ∃ next, step state label = some next ∧ inv next)
    {state : S} {labels : List A} (hinv : inv state)
    (halong : Along step good state labels) :
    Always step inv state labels := by
  induction labels generalizing state with
  | nil => exact hinv
  | cons label rest ih =>
      obtain ⟨next, hnext, hinvNext⟩ := hstep state label hinv halong.1
      exact ⟨hinv, next, hnext, ih hinvNext (halong.2 next hnext)⟩

/-- A run that goes through always keeps `inv` exactly when it starts with it
and all its steps are good, if the good steps are those that keep it. -/
theorem always_iff_along {good : S → A → Prop} {inv : S → Prop}
    {state final : S} {labels : List A}
    (hstep : ∀ state, ∀ label ∈ labels, ∀ next, inv state →
      step state label = some next → (inv next ↔ good state label))
    (hrun : run step state labels = some final) :
    Always step inv state labels ↔
      inv state ∧ Along step good state labels := by
  induction labels generalizing state with
  | nil => exact (and_iff_left trivial).symm
  | cons label rest ih =>
      rw [run_cons, Option.bind_eq_some_iff] at hrun
      obtain ⟨next, hnext, hrest⟩ := hrun
      have htail := ih (fun state other hother =>
        hstep state other (List.mem_cons_of_mem label hother)) hrest
      have hkeeps (hinv : inv state) :=
        hstep state label List.mem_cons_self next hinv hnext
      constructor
      · rintro ⟨hinv, other, hother, halways⟩
        rw [hnext] at hother
        cases hother
        obtain ⟨hinvNext, halong⟩ := htail.mp halways
        exact ⟨hinv, Along.cons ((hkeeps hinv).mp hinvNext) hnext halong⟩
      · rintro ⟨hinv, hgood, halong⟩
        refine ⟨hinv, next, hnext, htail.mpr ⟨?_, halong next hnext⟩⟩
        exact (hkeeps hinv).mpr hgood

/-- The same where a step that is not good may be stuck: the good steps among
the allowed ones are those that succeed and keep `inv`. -/
theorem always_iff_along_of_allowed {good allowed : S → A → Prop}
    {inv : S → Prop} {state : S} {labels : List A}
    (hstep : ∀ state label, inv state → allowed state label →
      ((∃ next, step state label = some next ∧ inv next) ↔ good state label))
    (hallowed : Along step allowed state labels) :
    Always step inv state labels ↔
      inv state ∧ Along step good state labels := by
  induction labels generalizing state with
  | nil => exact (and_iff_left trivial).symm
  | cons label rest ih =>
      have hkeeps (hinv : inv state) := hstep state label hinv hallowed.1
      constructor
      · rintro ⟨hinv, next, hnext, halways⟩
        obtain ⟨hinvNext, halong⟩ := (ih (hallowed.2 next hnext)).mp halways
        exact ⟨hinv, Along.cons ((hkeeps hinv).mp ⟨next, hnext, hinvNext⟩)
          hnext halong⟩
      · rintro ⟨hinv, hgood, halong⟩
        obtain ⟨next, hnext, hinvNext⟩ := (hkeeps hinv).mpr hgood
        exact ⟨hinv, next, hnext, (ih (hallowed.2 next hnext)).mpr
          ⟨hinvNext, halong next hnext⟩⟩

theorem Always.head {inv : S → Prop} {state : S} {labels : List A}
    (halways : Always step inv state labels) : inv state := by
  cases labels with
  | nil => exact halways
  | cons label rest => exact halways.1

/-- A run that always keeps `inv` ends in an `inv` state. -/
theorem Always.final {inv : S → Prop} {state : S} {labels : List A}
    (halways : Always step inv state labels) :
    ∃ last, run step state labels = some last ∧ inv last := by
  induction labels generalizing state with
  | nil => exact ⟨state, rfl, halways⟩
  | cons label rest ih =>
      obtain ⟨_, next, hnext, hrest⟩ := halways
      obtain ⟨last, hlast, hinv⟩ := ih hrest
      exact ⟨last, by simpa [run_cons, hnext] using hlast, hinv⟩

theorem Always.mono {inv other : S → Prop} {state : S} {labels : List A}
    (himp : ∀ state, inv state → other state)
    (halways : Always step inv state labels) :
    Always step other state labels := by
  induction labels generalizing state with
  | nil => exact himp state halways
  | cons label rest ih =>
      obtain ⟨hinv, next, hnext, hrest⟩ := halways
      exact ⟨himp state hinv, next, hnext, ih hrest⟩

/-- What every step keeps can be added to what always holds. -/
theorem Always.with_invariant {inv other : S → Prop}
    (hstep : ∀ state label next, inv state → step state label = some next →
      inv next)
    {state : S} {labels : List A} (hinv : inv state)
    (halways : Always step other state labels) :
    Always step (fun state => inv state ∧ other state) state labels := by
  induction labels generalizing state with
  | nil => exact ⟨hinv, halways⟩
  | cons label rest ih =>
      obtain ⟨hother, next, hnext, hrest⟩ := halways
      exact ⟨⟨hinv, hother⟩, next, hnext,
        ih (hstep state label next hinv hnext) hrest⟩

/-- Where no step is ever stuck, every run goes through. -/
theorem exists_run (htotal : ∀ state label, ∃ next, step state label =
    some next) (state : S) (labels : List A) :
    ∃ final, run step state labels = some final := by
  induction labels generalizing state with
  | nil => exact ⟨state, rfl⟩
  | cons label rest ih =>
      obtain ⟨next, hnext⟩ := htotal state label
      obtain ⟨final, hfinal⟩ := ih next
      exact ⟨final, by rw [run_cons, hnext]; exact hfinal⟩

end LinuxTest
