/-
The dining philosophers of `cpp/philosopher.cpp`.  `Mutex` makes the sections of
`take_fork` and `put_fork` atomic, so each of them is one step here, and the
`s[i].wait` that ends `take_fork` is another.  `NUMS` is 5 there, and the size
of any ring here.
-/
import LinuxTest.Runs
import Mathlib.Logic.Function.Basic

namespace LinuxTest

namespace Philosopher

/-! ### The ring -/

variable {NUMS : Nat}

/-- `LEFT(i)`, `i - 1 + NUMS` never being negative. -/
def left (i : Fin NUMS) : Fin NUMS :=
  ⟨(i + (NUMS - 1)) % NUMS, Nat.mod_lt _ i.pos⟩

/-- `RIGHT(i)`. -/
def right (i : Fin NUMS) : Fin NUMS :=
  ⟨(i + 1) % NUMS, Nat.mod_lt _ i.pos⟩

@[simp] theorem right_left (i : Fin NUMS) : right (left i) = i := by
  apply Fin.ext
  have hsum : i.val + (NUMS - 1) + 1 = i.val + NUMS := by
    have hpos := i.pos
    omega
  change ((i.val + (NUMS - 1)) % NUMS + 1) % NUMS = i.val
  rw [Nat.mod_add_mod, hsum, Nat.add_mod_right, Nat.mod_eq_of_lt i.isLt]

@[simp] theorem left_right (i : Fin NUMS) : left (right i) = i := by
  apply Fin.ext
  have hsum : i.val + 1 + (NUMS - 1) = i.val + NUMS := by
    have hpos := i.pos
    omega
  change ((i.val + 1) % NUMS + (NUMS - 1)) % NUMS = i.val
  rw [Nat.mod_add_mod, hsum, Nat.add_mod_right, Nat.mod_eq_of_lt i.isLt]

theorem right_ne (hring : 2 ≤ NUMS) (i : Fin NUMS) : right i ≠ i := by
  intro hsame
  have hval : (i.val + 1) % NUMS = i.val := congrArg Fin.val hsame
  have hlt := i.isLt
  by_cases hlast : i.val + 1 = NUMS
  · rw [hlast, Nat.mod_self] at hval
    omega
  · rw [Nat.mod_eq_of_lt (by omega)] at hval
    omega

/-- `j` is one of the two neighbours of `i`. -/
def Beside (i j : Fin NUMS) : Prop :=
  j = left i ∨ j = right i

theorem Beside.symm {i j : Fin NUMS} (hbeside : Beside i j) : Beside j i := by
  rcases hbeside with rfl | rfl
  · exact Or.inr (right_left i).symm
  · exact Or.inl (left_right i).symm

theorem Beside.ne (hring : 2 ≤ NUMS) {i j : Fin NUMS}
    (hbeside : Beside i j) : i ≠ j := by
  rintro rfl
  rcases hbeside with hleft | hright
  · have hnext := right_ne hring (left i)
    rw [right_left] at hnext
    exact hnext hleft
  · exact right_ne hring i hright.symm

/-! ### The program -/

inductive STATE where
  | thinking
  | eating
  | hungry
  deriving DecidableEq

/-- Where the thread of a philosopher is: outside its two calls, at the
`s[i].wait` of `take_fork`, or past it with both forks. -/
inductive Place where
  | away
  | waiting
  | seated
  deriving DecidableEq

/-- The globals, and the place of every thread. -/
structure Table (NUMS : Nat) where
  states : Fin NUMS → STATE
  s : Fin NUMS → Nat
  places : Fin NUMS → Place

namespace Table

variable (table : Table NUMS) (i : Fin NUMS)

def test : Table NUMS :=
  if table.states i = .hungry ∧ table.states (left i) ≠ .eating ∧
      table.states (right i) ≠ .eating then
    { table with
      states := Function.update table.states i .eating
      s := Function.update table.s i (table.s i + 1) }
  else
    table

/-- The state of philosopher `i` is assigned and its thread moves on. -/
def move (state : STATE) (place : Place) : Table NUMS :=
  { table with
    states := Function.update table.states i state
    places := Function.update table.places i place }

/-- The section of `take_fork` under `Mutex`. -/
def takeFork : Table NUMS :=
  (table.move i .hungry .waiting).test i

/-- `put_fork`. -/
def putFork : Table NUMS :=
  ((table.move i .thinking .away).test (left i)).test (right i)

/-- `s[i].wait()`, when it does not block. -/
def pass : Table NUMS :=
  { table with
    s := Function.update table.s i (table.s i - 1)
    places := Function.update table.places i .seated }

end Table

inductive Act (NUMS : Nat) where
  | takeFork (i : Fin NUMS)
  | pass (i : Fin NUMS)
  | putFork (i : Fin NUMS)

/-- A thread takes its next step; it blocks at a semaphore that is zero. -/
def step (table : Table NUMS) : Act NUMS → Option (Table NUMS)
  | .takeFork i =>
      if table.places i = .away then some (table.takeFork i) else none
  | .pass i =>
      if table.places i = .waiting ∧ 0 < table.s i then
        some (table.pass i)
      else
        none
  | .putFork i =>
      if table.places i = .seated then some (table.putFork i) else none

/-- All think, and every `s[i]` is zero. -/
def start (NUMS : Nat) : Table NUMS :=
  ⟨fun _ => .thinking, fun _ => 0, fun _ => .away⟩

/-! ### What a table keeps -/

/-- No two neighbours eat. -/
def Exclusive (states : Fin NUMS → STATE) : Prop :=
  ∀ i j, Beside i j → states i = .eating → states j ≠ .eating

/-- Philosopher `i` is not left hungry between two free places. -/
def Served (states : Fin NUMS → STATE) (i : Fin NUMS) : Prop :=
  states i = .hungry → ∃ j, Beside i j ∧ states j = .eating

/-- Another state for `i` keeps neighbours apart, if it does not eat next to
one that does. -/
theorem Exclusive.update (hring : 2 ≤ NUMS) {states : Fin NUMS → STATE}
    {i : Fin NUMS} {state : STATE} (hexclusive : Exclusive states)
    (hfree : state = .eating → ∀ j, Beside i j → states j ≠ .eating) :
    Exclusive (Function.update states i state) := by
  intro j k hbeside
  have hne := hbeside.ne hring
  by_cases hj : j = i
  · subst hj
    rw [Function.update_self, Function.update_of_ne hne.symm]
    intro heats
    exact hfree heats k hbeside
  · rw [Function.update_of_ne hj]
    intro heats
    by_cases hk : k = i
    · subst hk
      rw [Function.update_self]
      intro hstate
      exact hfree hstate j hbeside.symm heats
    · rw [Function.update_of_ne hk]
      exact hexclusive j k hbeside heats

/-- A hungry philosopher stays served while its neighbours do not stop
eating. -/
theorem Served.update {states : Fin NUMS → STATE} {i j : Fin NUMS}
    {state : STATE} (hserved : Served states j)
    (hhungry : state = .hungry → i ≠ j)
    (hstays : Beside j i → states i = .eating → state = .eating) :
    Served (Function.update states i state) j := by
  intro hj
  have hbefore : states j = .hungry := by
    by_cases hsame : j = i
    · subst hsame
      rw [Function.update_self] at hj
      exact absurd rfl (hhungry hj)
    · rwa [Function.update_of_ne hsame] at hj
  obtain ⟨k, hbeside, heats⟩ := hserved hbefore
  refine ⟨k, hbeside, ?_⟩
  by_cases hk : k = i
  · subst hk
    rw [Function.update_self]
    exact hstays hbeside heats
  · rwa [Function.update_of_ne hk]

namespace Table

variable {table : Table NUMS} {i j : Fin NUMS}

/-- The state and the semaphore of philosopher `i` fit the place of its
thread. -/
structure Placed (table : Table NUMS) (i : Fin NUMS) : Prop where
  away : table.places i = .away ↔ table.states i = .thinking
  seated : table.places i = .seated → table.states i = .eating
  posted : table.s i =
    if table.states i = .eating ∧ table.places i = .waiting then 1 else 0

/-- A philosopher that a step does not touch. -/
theorem Placed.congr {other : Table NUMS} (hplaced : table.Placed i)
    (hstate : other.states i = table.states i) (hs : other.s i = table.s i)
    (hplace : other.places i = table.places i) : other.Placed i := by
  constructor
  · rw [hplace, hstate]
    exact hplaced.away
  · rw [hplace, hstate]
    exact hplaced.seated
  · rw [hs, hplace, hstate]
    exact hplaced.posted

/-- A hungry philosopher is at its `s[i].wait`, with nothing posted yet. -/
theorem Placed.of_hungry (hplaced : table.Placed i)
    (hhungry : table.states i = .hungry) :
    table.places i = .waiting ∧ table.s i = 0 := by
  have haway := hplaced.away
  have hseated := hplaced.seated
  have hposted := hplaced.posted
  rw [hhungry] at haway hseated hposted
  refine ⟨?_, hposted.trans (if_neg ?_)⟩
  · cases hplace : table.places i with
    | away => cases haway.mp hplace
    | waiting => rfl
    | seated => cases hseated hplace
  · rintro ⟨heats, _⟩
    cases heats

/-- What holds while `Mutex` is taken, too. -/
structure Sound (table : Table NUMS) : Prop where
  exclusive : Exclusive table.states
  placed : ∀ i, table.Placed i

/-- One `test` lets `i` eat between two free places, or else finds it
served. -/
theorem test_cases (table : Table NUMS) (i : Fin NUMS) :
    (table.states i = .hungry ∧
      (∀ j, Beside i j → table.states j ≠ .eating) ∧
      table.test i = { table with
        states := Function.update table.states i .eating
        s := Function.update table.s i (table.s i + 1) }) ∨
    (Served table.states i ∧ table.test i = table) := by
  by_cases hfree : table.states i = .hungry ∧
      table.states (left i) ≠ .eating ∧ table.states (right i) ≠ .eating
  · refine Or.inl ⟨hfree.1, ?_, if_pos hfree⟩
    rintro j (rfl | rfl)
    · exact hfree.2.1
    · exact hfree.2.2
  · refine Or.inr ⟨?_, if_neg hfree⟩
    intro hhungry
    by_cases hleft : table.states (left i) = .eating
    · exact ⟨left i, Or.inl rfl, hleft⟩
    · refine ⟨right i, Or.inr rfl, ?_⟩
      by_contra hright
      exact hfree ⟨hhungry, hleft, hright⟩

theorem Placed.test (hplaced : table.Placed j) : (table.test i).Placed j := by
  rcases test_cases table i with ⟨hhungry, _, htest⟩ | ⟨_, htest⟩
  · rw [htest]
    by_cases hj : j = i
    · subst hj
      obtain ⟨hplace, hs⟩ := hplaced.of_hungry hhungry
      constructor <;> simp [hplace, hs]
    · exact hplaced.congr (Function.update_of_ne hj _ _)
        (Function.update_of_ne hj _ _) rfl
  · rw [htest]
    exact hplaced

theorem Sound.test (hring : 2 ≤ NUMS) (hsound : table.Sound) :
    (table.test i).Sound := by
  refine ⟨?_, fun j => (hsound.placed j).test⟩
  rcases test_cases table i with ⟨_, hfree, htest⟩ | ⟨_, htest⟩
  · rw [htest]
    exact hsound.exclusive.update hring fun _ => hfree
  · rw [htest]
    exact hsound.exclusive

theorem served_test_self : Served (table.test i).states i := by
  rcases test_cases table i with ⟨_, _, htest⟩ | ⟨hserved, htest⟩
  · rw [htest]
    intro hhungry
    change Function.update table.states i .eating i = .hungry at hhungry
    rw [Function.update_self] at hhungry
    cases hhungry
  · rw [htest]
    exact hserved

/-- A `test` takes no eating neighbour away. -/
theorem Served.test (hserved : Served table.states j) :
    Served (table.test i).states j := by
  rcases test_cases table i with ⟨_, _, htest⟩ | ⟨_, htest⟩
  · rw [htest]
    refine hserved.update ?_ fun _ _ => rfl
    intro hstate
    cases hstate
  · rw [htest]
    exact hserved

/-- A philosopher that does not start to eat moves to a place that fits. -/
theorem Sound.move {state : STATE} {place : Place} (hring : 2 ≤ NUMS)
    (hsound : table.Sound) (hstate : state ≠ .eating)
    (hplace : place = .away ↔ state = .thinking) (hseated : place ≠ .seated)
    (hposted : table.s i = 0) : (table.move i state place).Sound := by
  constructor
  · refine hsound.exclusive.update hring ?_
    intro heats
    exact absurd heats hstate
  · intro j
    by_cases hj : j = i
    · subst hj
      constructor <;> simp [Table.move, hstate, hplace, hseated, hposted]
    · exact (hsound.placed j).congr (Function.update_of_ne hj _ _) rfl
        (Function.update_of_ne hj _ _)

/-- A thread that is not at its `s[i].wait` has nothing posted. -/
theorem Sound.s_eq_zero (hsound : table.Sound)
    (hplace : table.places i ≠ .waiting) : table.s i = 0 := by
  rw [(hsound.placed i).posted, if_neg]
  rintro ⟨_, hwaiting⟩
  exact hplace hwaiting

end Table

/-- What holds whenever `Mutex` is free. -/
structure Settled (table : Table NUMS) : Prop where
  sound : table.Sound
  served : ∀ i, Served table.states i

namespace Settled

variable {table : Table NUMS} {i : Fin NUMS}

theorem start : Settled (start NUMS) := by
  constructor
  · constructor
    · intro i j _ heats
      cases heats
    · intro i
      constructor <;> simp [Philosopher.start]
  · intro i hhungry
    cases hhungry

theorem takeFork (hring : 2 ≤ NUMS) (hsettled : Settled table)
    (hplace : table.places i = .away) : Settled (table.takeFork i) := by
  have hzero : table.s i = 0 :=
    hsettled.sound.s_eq_zero (by simp [hplace])
  have hmove : (table.move i .hungry .waiting).Sound :=
    hsettled.sound.move hring (by simp) (by simp) (by simp) hzero
  refine ⟨hmove.test hring, ?_⟩
  intro j
  by_cases hj : j = i
  · subst hj
    exact Table.served_test_self
  · refine Table.Served.test ?_
    refine (hsettled.served j).update (fun _ => Ne.symm hj) ?_
    -- The philosopher that now gets hungry was not eating before.
    intro _ heats
    have hthinks := (hsettled.sound.placed i).away.mp hplace
    rw [hthinks] at heats
    cases heats

theorem putFork (hring : 2 ≤ NUMS) (hsettled : Settled table)
    (hplace : table.places i = .seated) : Settled (table.putFork i) := by
  have hzero : table.s i = 0 :=
    hsettled.sound.s_eq_zero (by simp [hplace])
  have hmove : (table.move i .thinking .away).Sound :=
    hsettled.sound.move hring (by simp) (by simp) (by simp) hzero
  refine ⟨(hmove.test hring).test hring, ?_⟩
  intro j
  -- Only the two neighbours can lose a neighbour that eats.
  by_cases hleft : j = left i
  · subst hleft
    exact Table.Served.test Table.served_test_self
  by_cases hright : j = right i
  · subst hright
    exact Table.served_test_self
  refine Table.Served.test (Table.Served.test ?_)
  refine (hsettled.served j).update (fun hstate => by cases hstate) ?_
  intro hbeside
  rcases hbeside.symm with hj | hj
  · exact absurd hj hleft
  · exact absurd hj hright

theorem pass (hsettled : Settled table) (hplace : table.places i = .waiting)
    (hposted : 0 < table.s i) : Settled (table.pass i) := by
  refine ⟨⟨hsettled.sound.exclusive, ?_⟩, hsettled.served⟩
  intro j
  have hplaced := hsettled.sound.placed j
  by_cases hj : j = i
  · subst hj
    have hs := hplaced.posted
    have heats : table.states j = .eating := by
      by_contra hnot
      rw [if_neg (by simp [hnot])] at hs
      omega
    rw [if_pos ⟨heats, hplace⟩] at hs
    constructor <;> simp [Table.pass, heats, hs]
  · exact hplaced.congr rfl (Function.update_of_ne hj _ _)
      (Function.update_of_ne hj _ _)

theorem step (hring : 2 ≤ NUMS) {act : Act NUMS} {next : Table NUMS}
    (hsettled : Settled table) (hstep : step table act = some next) :
    Settled next := by
  cases act with
  | takeFork i =>
      rw [Philosopher.step, Option.ite_none_right_eq_some] at hstep
      obtain ⟨hplace, hnext⟩ := hstep
      cases hnext
      exact hsettled.takeFork hring hplace
  | pass i =>
      rw [Philosopher.step, Option.ite_none_right_eq_some] at hstep
      obtain ⟨⟨hplace, hposted⟩, hnext⟩ := hstep
      cases hnext
      exact hsettled.pass hplace hposted
  | putFork i =>
      rw [Philosopher.step, Option.ite_none_right_eq_some] at hstep
      obtain ⟨hplace, hnext⟩ := hstep
      cases hnext
      exact hsettled.putFork hring hplace

/-- A philosopher that eats before its `s[i].wait` can go through it. -/
theorem exists_pass (hsettled : Settled table)
    (heats : table.states i = .eating) (hplace : table.places i = .waiting) :
    Philosopher.step table (.pass i) = some (table.pass i) := by
  have hposted := (hsettled.sound.placed i).posted
  rw [if_pos ⟨heats, hplace⟩] at hposted
  exact if_pos ⟨hplace, by omega⟩

/-- There is no deadlock: some thread can take a step. -/
theorem exists_step (i : Fin NUMS) (hsettled : Settled table) :
    ∃ act next, Philosopher.step table act = some next := by
  cases hplace : table.places i with
  | away => exact ⟨.takeFork i, _, if_pos hplace⟩
  | seated => exact ⟨.putFork i, _, if_pos hplace⟩
  | waiting =>
      cases hstate : table.states i with
      | thinking =>
          rw [(hsettled.sound.placed i).away.mpr hstate] at hplace
          cases hplace
      | eating => exact ⟨_, _, hsettled.exists_pass hstate hplace⟩
      | hungry =>
          -- The neighbour that eats has been let in, or is about to be.
          obtain ⟨j, _, heats⟩ := hsettled.served i hstate
          cases hseat : table.places j with
          | away =>
              rw [(hsettled.sound.placed j).away.mp hseat] at heats
              cases heats
          | waiting => exact ⟨_, _, hsettled.exists_pass heats hseat⟩
          | seated => exact ⟨.putFork j, _, if_pos hseat⟩

end Settled

theorem settled_of_run (hring : 2 ≤ NUMS) {acts : List (Act NUMS)}
    {table : Table NUMS} (hrun : run step (start NUMS) acts = some table) :
    Settled table :=
  run_invariant (fun _ _ _ hbefore hstep => hbefore.step hring hstep)
    Settled.start hrun

/-- Every run keeps neighbours from eating together, leaves nobody hungry
between two free places, posts a semaphore once for each philosopher that eats
and has yet to find out, and does not end in a deadlock. -/
theorem philosophers_run (hring : 2 ≤ NUMS) {acts : List (Act NUMS)}
    {table : Table NUMS} (hrun : run step (start NUMS) acts = some table) :
    (∀ i, table.states i = .eating →
      table.states (left i) ≠ .eating ∧ table.states (right i) ≠ .eating) ∧
    (∀ i, table.states i = .hungry →
      table.states (left i) = .eating ∨ table.states (right i) = .eating) ∧
    (∀ i, (table.s i = 0 ∨ table.s i = 1) ∧
      (table.s i = 1 ↔
        table.states i = .eating ∧ table.places i = .waiting)) ∧
    ∃ act next, step table act = some next := by
  have hsettled := settled_of_run hring hrun
  refine ⟨?_, ?_, ?_, hsettled.exists_step ⟨0, by omega⟩⟩
  · intro i heats
    exact ⟨hsettled.sound.exclusive i _ (Or.inl rfl) heats,
      hsettled.sound.exclusive i _ (Or.inr rfl) heats⟩
  · intro i hhungry
    obtain ⟨j, hbeside, heats⟩ := hsettled.served i hhungry
    rcases hbeside with rfl | rfl
    · exact Or.inl heats
    · exact Or.inr heats
  · intro i
    have hposted := (hsettled.sound.placed i).posted
    split at hposted
    · rename_i hwaits
      exact ⟨Or.inr hposted, fun _ => hwaits, fun _ => hposted⟩
    · rename_i hnot
      refine ⟨Or.inl hposted, ?_, fun hwaits => absurd hwaits hnot⟩
      intro hone
      omega

/-- With two of five at the table, the second is let in by the first. -/
theorem philosophers_run_five : ∃ table,
    run step (start 5) [.takeFork 0, .takeFork 1, .pass 0, .putFork 0] =
      some table ∧ table.s 1 = 1 := by
  refine ⟨_, rfl, ?_⟩
  have hlast := (@philosophers_run 5 (by decide)
    [.takeFork 0, .takeFork 1, .pass 0, .putFork 0] _ rfl).2.2.1 1
  exact hlast.2.mpr ⟨rfl, rfl⟩

end Philosopher

end LinuxTest
