/-
The producer and the consumer of `pthread/proc_cons.c` around a ring of 1024
slots.  `lock` makes each call one step, from taking the lock to the next wait
or to the end of the call; a thread that waits is asleep until the other one
signals it, or wakes up for no reason.

The consumer compares its slot with -1 where it was to assign it, so a slot
that has been filled stays filled.
-/
import LinuxTest.Runs
import Mathlib.Algebra.Order.Ring.Int
import Mathlib.Logic.Function.Basic

namespace LinuxTest

namespace ProcCons

/-! ### The program -/

/-- `index++; if(index == 1024) index = 0`. -/
def advance (index : Fin 1024) : Fin 1024 :=
  if hwrap : index.val + 1 = 1024 then ⟨0, by omega⟩
  else ⟨index.val + 1, by omega⟩

theorem advance_val (index : Fin 1024) :
    (advance index).val = (index.val + 1) % 1024 := by
  rw [advance]
  split
  · rename_i hwrap
    rw [hwrap]
  · change index.val + 1 = _
    omega

/-- The globals that `lock` protects, with all that was put in and taken
out. -/
structure Ring where
  buf : Fin 1024 → Int
  procIndex : Fin 1024
  consIndex : Fin 1024
  ind : Nat
  produced : List Int
  consumed : List Int

namespace Ring

variable (ring : Ring)

/-- What `produce` waits on. -/
def full : Prop :=
  ring.buf ring.procIndex ≠ -1

/-- What `consum` waits on. -/
def empty : Prop :=
  ring.procIndex = ring.consIndex ∧ ring.buf ring.consIndex = -1

instance : Decidable ring.full := inferInstanceAs (Decidable (_ ≠ _))

instance : Decidable ring.empty := inferInstanceAs (Decidable (_ ∧ _))

/-- The rest of `produce`. -/
def produce : Ring :=
  { ring with
    buf := Function.update ring.buf ring.procIndex ring.ind
    procIndex := advance ring.procIndex
    ind := ring.ind + 1
    produced := ring.produced ++ [(ring.ind : Int)] }

/-- The rest of `consum`.  Its `buf[cons_index] == -1;` has no effect. -/
def consum : Ring :=
  { ring with
    consIndex := advance ring.consIndex
    consumed := ring.consumed ++ [ring.buf ring.consIndex] }

end Ring

/-- Whether a thread is inside `pthread_cond_wait`. -/
inductive Thread where
  | awake
  | asleep
  deriving DecidableEq

structure State where
  ring : Ring
  producer : Thread
  consumer : Thread

inductive Act where
  | produce
  | consum
  | wakeProducer
  | wakeConsumer
  deriving DecidableEq

def step (state : State) : Act → Option State
  | .produce =>
      if state.producer = .asleep then none
      else if state.ring.full then some { state with producer := .asleep }
      else some ⟨state.ring.produce, state.producer, .awake⟩
  | .consum =>
      if state.consumer = .asleep then none
      else if state.ring.empty then some { state with consumer := .asleep }
      else some ⟨state.ring.consum, .awake, state.consumer⟩
  | .wakeProducer => some { state with producer := .awake }
  | .wakeConsumer => some { state with consumer := .awake }

/-- All slots are -1, and both threads are about to make their first call. -/
def start : State :=
  ⟨⟨fun _ => -1, 0, 0, 0, [], []⟩, .awake, .awake⟩

/-! ### The ring in every run -/

/-- The first slots are filled with their own numbers, at most one round of
them; what is taken out are these numbers, round after round. -/
structure Filled (ring : Ring) : Prop where
  ind_le : ring.ind ≤ 1024
  produced : ring.produced = (List.range ring.ind).map fun k : Nat => (k : Int)
  consumed : ring.consumed =
    (List.range ring.consumed.length).map fun k : Nat =>
      ((k % 1024 : Nat) : Int)
  buf : ∀ i, ring.buf i = if i.val < ring.ind then (i.val : Int) else -1
  procIndex : ring.procIndex.val = ring.ind % 1024
  consIndex : ring.consIndex.val = ring.consumed.length % 1024
  behind : ring.consumed.length ≤ ring.ind ∨ ring.ind = 1024

namespace Filled

variable {ring : Ring}

theorem start : Filled start.ring where
  ind_le := by decide
  produced := rfl
  consumed := rfl
  buf _ := rfl
  procIndex := rfl
  consIndex := rfl
  behind := Or.inl (le_refl 0)

/-- The producer waits once the ring has been filled. -/
theorem full_iff (hfilled : Filled ring) : ring.full ↔ ring.ind = 1024 := by
  have hle := hfilled.ind_le
  rw [Ring.full, hfilled.buf, hfilled.procIndex]
  split <;> omega

theorem produce (hfilled : Filled ring) (hroom : ¬ ring.full) :
    Filled ring.produce := by
  have hle := hfilled.ind_le
  have hlt : ring.ind < 1024 := by
    rw [hfilled.full_iff] at hroom
    omega
  have hindex : ring.procIndex.val = ring.ind := by
    rw [hfilled.procIndex]
    omega
  constructor
  · exact hlt
  · change ring.produced ++ [(ring.ind : Int)] = _
    rw [Ring.produce, List.range_succ, List.map_append, ← hfilled.produced]
    rfl
  · exact hfilled.consumed
  · intro i
    change Function.update ring.buf ring.procIndex (ring.ind : Int) i =
      if i.val < ring.ind + 1 then (i.val : Int) else -1
    by_cases hi : i = ring.procIndex
    · subst hi
      rw [Function.update_self, hindex, if_pos (by omega)]
    · have hne : i.val ≠ ring.ind := by
        intro hsame
        exact hi (Fin.ext (by omega))
      rw [Function.update_of_ne hi, hfilled.buf]
      split <;> split <;> omega
  · change (advance ring.procIndex).val = (ring.ind + 1) % 1024
    rw [advance_val, hindex]
  · exact hfilled.consIndex
  · have hbehind := hfilled.behind
    change ring.consumed.length ≤ ring.ind + 1 ∨ ring.ind + 1 = 1024
    omega

/-- A consumer that goes through has something left to take, or takes it from a
ring that is full for good. -/
theorem not_empty (hfilled : Filled ring) (hsome : ¬ ring.empty) :
    ring.consumed.length < ring.ind ∨ ring.ind = 1024 := by
  have hle := hfilled.ind_le
  by_contra hnot
  have hbehind := hfilled.behind
  refine hsome ⟨Fin.ext ?_, ?_⟩
  · rw [hfilled.procIndex, hfilled.consIndex]
    omega
  · rw [hfilled.buf, hfilled.consIndex, if_neg (by omega)]

theorem consum (hfilled : Filled ring) (hsome : ¬ ring.empty) :
    Filled ring.consum := by
  have hle := hfilled.ind_le
  have hleft := hfilled.not_empty hsome
  have hdata : ring.buf ring.consIndex =
      ((ring.consumed.length % 1024 : Nat) : Int) := by
    rw [hfilled.buf, hfilled.consIndex, if_pos (by omega)]
  have hlength : ring.consum.consumed.length = ring.consumed.length + 1 :=
    List.length_append
  constructor
  · exact hle
  · exact hfilled.produced
  · rw [hlength, List.range_succ, List.map_append, ← hfilled.consumed]
    change ring.consumed ++ [ring.buf ring.consIndex] = _
    rw [hdata]
    rfl
  · exact hfilled.buf
  · exact hfilled.procIndex
  · rw [hlength]
    change (advance ring.consIndex).val = _
    rw [advance_val, hfilled.consIndex]
    omega
  · rw [hlength]
    change _ ∨ ring.ind = 1024
    have hind : ring.consum.ind = ring.ind := rfl
    omega

/-- In order as long as one round has been taken out. -/
theorem prefix_iff (hfilled : Filled ring) :
    ring.consumed <+: ring.produced ↔ ring.consumed.length ≤ 1024 := by
  have hle := hfilled.ind_le
  have hproduced : ring.produced.length = ring.ind := by
    rw [hfilled.produced, List.length_map, List.length_range]
  constructor
  · intro horder
    have hlength := horder.length_le
    omega
  · intro hround
    have hbehind := hfilled.behind
    have htake : ring.consumed =
        ring.produced.take ring.consumed.length := by
      rw [hfilled.produced, ← List.map_take, List.take_range,
        Nat.min_eq_left (by omega), hfilled.consumed]
      simp only [List.length_map, List.length_range]
      apply List.map_congr_left
      intro k hk
      have hlt := List.mem_range.mp hk
      rw [Nat.mod_eq_of_lt (by omega)]
    rw [htake]
    exact List.take_prefix _ _

end Filled

/-- What one step does to the ring. -/
theorem step_cases {state next : State} {act : Act}
    (hstep : step state act = some next) :
    (next.ring = state.ring ∧ (act = .consum → state.ring.empty)) ∨
    (act = .produce ∧ ¬ state.ring.full ∧ next.ring = state.ring.produce) ∨
    (act = .consum ∧ ¬ state.ring.empty ∧
      next.ring = state.ring.consum) := by
  cases act with
  | produce =>
      rw [step, Option.ite_none_left_eq_some] at hstep
      obtain ⟨_, hstep⟩ := hstep
      split at hstep
      · cases hstep
        exact Or.inl ⟨rfl, fun hact => by cases hact⟩
      · rename_i hroom
        cases hstep
        exact Or.inr (Or.inl ⟨rfl, hroom, rfl⟩)
  | consum =>
      rw [step, Option.ite_none_left_eq_some] at hstep
      obtain ⟨_, hstep⟩ := hstep
      split at hstep
      · rename_i hempty
        cases hstep
        exact Or.inl ⟨rfl, fun _ => hempty⟩
      · rename_i hsome
        cases hstep
        exact Or.inr (Or.inr ⟨rfl, hsome, rfl⟩)
  | wakeProducer =>
      cases hstep
      exact Or.inl ⟨rfl, fun hact => by cases hact⟩
  | wakeConsumer =>
      cases hstep
      exact Or.inl ⟨rfl, fun hact => by cases hact⟩

theorem filled_step {state next : State} {act : Act}
    (hfilled : Filled state.ring) (hstep : step state act = some next) :
    Filled next.ring := by
  rcases step_cases hstep with
    ⟨hring, _⟩ | ⟨_, hroom, hring⟩ | ⟨_, hsome, hring⟩
  · rw [hring]
    exact hfilled
  · rw [hring]
    exact hfilled.produce hroom
  · rw [hring]
    exact hfilled.consum hsome

/-- Of the calls of `consum` that do not wait, this is one of the first
1024. -/
def FirstRound (state : State) (act : Act) : Prop :=
  act = .consum → ¬ state.ring.empty → state.ring.consumed.length < 1024

instance (state : State) (act : Act) : Decidable (FirstRound state act) :=
  inferInstanceAs (Decidable (_ → _ → _))

/-- One step keeps the order exactly when it is of the first round. -/
theorem prefix_step_iff {state next : State} {act : Act}
    (hfilled : Filled state.ring)
    (horder : state.ring.consumed <+: state.ring.produced)
    (hstep : step state act = some next) :
    next.ring.consumed <+: next.ring.produced ↔ FirstRound state act := by
  have hround := hfilled.prefix_iff.mp horder
  rw [(filled_step hfilled hstep).prefix_iff]
  rcases step_cases hstep with
    ⟨hring, hwaits⟩ | ⟨rfl, _, hring⟩ | ⟨rfl, hsome, hring⟩
  · rw [hring]
    refine iff_of_true hround ?_
    intro hact hsome
    exact absurd (hwaits hact) hsome
  · rw [hring]
    refine iff_of_true hround ?_
    intro hact
    cases hact
  · have hlength : state.ring.consum.consumed.length =
        state.ring.consumed.length + 1 := List.length_append
    rw [hring, hlength]
    exact ⟨fun hlt _ _ => hlt, fun hfirst => hfirst rfl hsome⟩

/-- What is taken out stays a prefix of what was put in exactly when no call of
`consum` goes through after 1024 have. -/
theorem consumed_prefix_iff {acts : List Act} {final : State}
    (hrun : run step start acts = some final) :
    Always step (fun state => state.ring.consumed <+: state.ring.produced)
      start acts ↔ Along step FirstRound start acts := by
  have hiff := @always_iff_along _ _ step FirstRound (fun state =>
    Filled state.ring ∧ state.ring.consumed <+: state.ring.produced)
    start final acts (by
      intro state act _ next hstate hstep
      rw [← prefix_step_iff hstate.1 hstate.2 hstep]
      exact and_iff_right (filled_step hstate.1 hstep)) hrun
  constructor
  · intro halways
    exact (hiff.mp (halways.with_invariant
      (fun _ _ _ hfilled hstep => filled_step hfilled hstep)
      Filled.start)).2
  · intro halong
    exact (hiff.mpr ⟨⟨Filled.start, List.nil_prefix⟩, halong⟩).mono
      fun _ hstate => hstate.2

/-- Up to 1024 calls of `produce` go through one after the other. -/
theorem run_produce {n : Nat} (hn : n ≤ 1024) :
    ∃ ring, run step start (List.replicate n .produce) =
      some ⟨ring, .awake, .awake⟩ ∧ Filled ring ∧ ring.ind = n ∧
      ring.consumed = [] := by
  induction n with
  | zero => exact ⟨_, rfl, Filled.start, rfl, rfl⟩
  | succ n ih =>
      obtain ⟨ring, hrun, hfilled, hind, hconsumed⟩ := ih (by omega)
      have hroom : ¬ ring.full := by
        rw [hfilled.full_iff]
        omega
      have hstep : step ⟨ring, .awake, .awake⟩ .produce =
          some ⟨ring.produce, .awake, .awake⟩ := by
        rw [step, if_neg (by simp), if_neg hroom]
      refine ⟨ring.produce, ?_, hfilled.produce hroom, ?_, hconsumed⟩
      · rw [List.replicate_succ', run_append, hrun]
        simp [run_cons, hstep]
      · rw [← hind]
        rfl

/-- A ring that has been filled lets `consum` go through any number of
times. -/
theorem run_consum {ring : Ring} (hfilled : Filled ring)
    (hind : ring.ind = 1024) (n : Nat) :
    ∃ final, run step ⟨ring, .awake, .awake⟩ (List.replicate n .consum) =
      some ⟨final, .awake, .awake⟩ ∧ Filled final ∧ final.ind = 1024 ∧
      final.consumed.length = ring.consumed.length + n := by
  induction n with
  | zero => exact ⟨ring, rfl, hfilled, hind, rfl⟩
  | succ n ih =>
      obtain ⟨middle, hrun, hmiddle, hfull, hlength⟩ := ih
      have hsome : ¬ middle.empty := by
        rintro ⟨_, hcell⟩
        rw [hmiddle.buf, if_pos (by omega)] at hcell
        omega
      have hstep : step ⟨middle, .awake, .awake⟩ .consum =
          some ⟨middle.consum, .awake, .awake⟩ := by
        rw [step, if_neg (by simp), if_neg hsome]
      refine ⟨middle.consum, ?_, hmiddle.consum hsome, hfull, ?_⟩
      · rw [List.replicate_succ', run_append, hrun]
        simp [run_cons, hstep]
      · rw [Ring.consum, List.length_append, hlength]
        rfl

/-- After 1024 calls of `produce`, 1025 of `consum` go through: the last one
takes out 0 for the second time. -/
theorem consumed_not_prefix : ∃ final,
    run step start (List.replicate 1024 .produce ++
      List.replicate 1025 .consum) = some final ∧
    ¬ final.ring.consumed <+: final.ring.produced := by
  obtain ⟨ring, hproduce, hfilled, hind, hconsumed⟩ :=
    run_produce (le_refl 1024)
  obtain ⟨final, hconsum, hfinal, _, hlength⟩ :=
    run_consum hfilled hind 1025
  refine ⟨⟨final, .awake, .awake⟩, ?_, ?_⟩
  · rw [run_append, hproduce, Option.bind_some, hconsum]
  · rw [hfinal.prefix_iff, hlength, hconsumed]
    decide

/-- The consumer is first and sleeps; three values are put in and taken out, and
it sleeps again. -/
theorem consumed_prefix_three :
    Always step (fun state => state.ring.consumed <+: state.ring.produced)
      start [.consum, .produce, .consum, .produce, .produce, .consum, .consum,
        .consum] :=
  (consumed_prefix_iff rfl).mpr (by decide)

end ProcCons

end LinuxTest
