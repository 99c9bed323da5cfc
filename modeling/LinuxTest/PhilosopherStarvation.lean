/-
Whether a philosopher can be kept hungry.  In a ring of four or more its two
neighbours need not wait for each other, and can take turns so that one of them
always eats.
-/
import LinuxTest.Philosophers

namespace LinuxTest

namespace Philosopher

variable {NUMS : Nat}

/-- A meal ends. -/
def isMeal : Act NUMS → Bool
  | .putFork _ => true
  | _ => false

/-! ### The ring -/

theorem add_mod_ne {i k n : Nat} (hi : i < n) (hpos : 0 < k) (hk : k < n) :
    (i + k) % n ≠ i := by
  by_cases hlt : i + k < n
  · rw [Nat.mod_eq_of_lt hlt]
    omega
  · rw [Nat.mod_eq_sub_mod (Nat.not_lt.mp hlt), Nat.mod_eq_of_lt (by omega)]
    omega

theorem right_right_ne (hring : 3 ≤ NUMS) (i : Fin NUMS) :
    right (right i) ≠ i := by
  intro hsame
  have hval : ((i.val + 1) % NUMS + 1) % NUMS = i.val := congrArg Fin.val hsame
  rw [Nat.mod_add_mod, Nat.add_assoc] at hval
  exact add_mod_ne i.isLt (by omega) (by omega) hval

theorem right_right_right_ne (hring : 4 ≤ NUMS) (i : Fin NUMS) :
    right (right (right i)) ≠ i := by
  intro hsame
  have hval : (((i.val + 1) % NUMS + 1) % NUMS + 1) % NUMS = i.val :=
    congrArg Fin.val hsame
  rw [Nat.mod_add_mod, Nat.add_assoc, Nat.mod_add_mod, Nat.add_assoc] at hval
  exact add_mod_ne i.isLt (by omega) (by omega) hval

theorem left_ne_right (hring : 3 ≤ NUMS) (i : Fin NUMS) : left i ≠ right i := by
  intro hsame
  have hback := right_right_ne hring (left i)
  rw [right_left, hsame] at hback
  exact hback rfl

/-- The neighbours of a philosopher are no neighbours in a ring of four. -/
theorem not_beside_sides (hring : 4 ≤ NUMS) (i : Fin NUMS) :
    ¬Beside (right i) (left i) := by
  rintro (hsame | hsame)
  · rw [left_right] at hsame
    have hbeside : Beside i (left i) := Or.inl rfl
    exact hbeside.ne (by omega) hsame.symm
  · have hback := right_right_right_ne hring (left i)
    rw [right_left, ← hsame] at hback
    exact hback rfl

/-- In a ring of three all sit next to each other. -/
theorem beside_of_ne (hring : 2 ≤ NUMS) (hsmall : NUMS ≤ 3) {i j : Fin NUMS}
    (hne : j ≠ i) : Beside i j := by
  obtain rfl | rfl : NUMS = 2 ∨ NUMS = 3 := by omega
  · have hall : ∀ i j : Fin 2, j ≠ i → j = left i ∨ j = right i := by decide
    exact hall i j hne
  · have hall : ∀ i j : Fin 3, j ≠ i → j = left i ∨ j = right i := by decide
    exact hall i j hne

namespace Table

variable {table : Table NUMS} {i j : Fin NUMS}

theorem test_eq_self (hserved : Served table.states i) :
    table.test i = table := by
  obtain ⟨hhungry, hfree, -⟩ | ⟨-, htest⟩ := test_cases table i
  · obtain ⟨j, hbeside, heats⟩ := hserved hhungry
    exact absurd heats (hfree j hbeside)
  · exact htest

/-- The table once `j` has both forks. -/
def seat (table : Table NUMS) (j : Fin NUMS) : Table NUMS :=
  { table with
    states := Function.update table.states j .eating
    places := Function.update table.places j .seated }

/-- The table once `j` has put them down, if nobody gets them. -/
def clear (table : Table NUMS) (j : Fin NUMS) : Table NUMS :=
  table.move j .thinking .away

theorem takeFork_eq (hring : 2 ≤ NUMS)
    (hfree : ∀ k, Beside j k → table.states k ≠ .eating) :
    table.takeFork j =
      { states := Function.update table.states j .eating
        s := Function.update table.s j (table.s j + 1)
        places := Function.update table.places j .waiting } := by
  have hbeside : ∀ k, Beside j k →
      (table.move j .hungry .waiting).states k ≠ .eating := by
    intro k hk
    change Function.update table.states j .hungry k ≠ .eating
    rw [Function.update_of_ne (hk.ne hring).symm]
    exact hfree k hk
  have hboth : (table.move j .hungry .waiting).states j = .hungry ∧
      (table.move j .hungry .waiting).states (left j) ≠ .eating ∧
      (table.move j .hungry .waiting).states (right j) ≠ .eating :=
    ⟨Function.update_self _ _ _, hbeside _ (Or.inl rfl), hbeside _ (Or.inr rfl)⟩
  rw [takeFork, test, if_pos hboth]
  simp only [move, Function.update_idem]

/-- A philosopher between two free places comes to eat. -/
theorem steps_seat (hring : 2 ≤ NUMS) (haway : table.places j = .away)
    (hfree : ∀ k, Beside j k → table.states k ≠ .eating) :
    ∃ mid, step table (.takeFork j) = some mid ∧
      mid.states = Function.update table.states j .eating ∧
      step mid (.pass j) = some (table.seat j) := by
  refine ⟨_, if_pos haway, ?_, ?_⟩
  · rw [takeFork_eq hring hfree]
  · have hpost : 0 < Function.update table.s j (table.s j + 1) j := by
      rw [Function.update_self]
      exact Nat.succ_pos _
    rw [takeFork_eq hring hfree, step,
      if_pos ⟨Function.update_self _ _ _, hpost⟩]
    simp only [pass, seat, Function.update_idem, Function.update_self,
      Nat.add_sub_cancel, Function.update_eq_self]

/-- A philosopher gets up between two who are not hungry, or are kept waiting by
another neighbour. -/
theorem step_clear (hseated : table.places j = .seated)
    (hserved : ∀ k, Beside j k → Served (table.clear j).states k) :
    step table (.putFork j) = some (table.clear j) := by
  rw [step, if_pos hseated, putFork]
  have hleft : (table.move j .thinking .away).test (left j) = table.clear j :=
    test_eq_self (hserved _ (Or.inl rfl))
  rw [hleft, test_eq_self (hserved _ (Or.inr rfl))]

theorem seat_clear (heats : table.states j = .eating)
    (hseated : table.places j = .seated) : (table.clear j).seat j = table := by
  obtain ⟨states, s, places⟩ := table
  change states j = .eating at heats
  change places j = .seated at hseated
  simp only [clear, move, seat, Function.update_idem, ← heats, ← hseated,
    Function.update_eq_self]

theorem clear_seat (hthinks : table.states j = .thinking)
    (haway : table.places j = .away) : (table.seat j).clear j = table := by
  obtain ⟨states, s, places⟩ := table
  change states j = .thinking at hthinks
  change places j = .away at haway
  simp only [clear, move, seat, Function.update_idem, ← hthinks, ← haway,
    Function.update_eq_self]

theorem seat_states_of_ne (hne : i ≠ j) :
    (table.seat j).states i = table.states i :=
  Function.update_of_ne hne _ _

theorem clear_states_of_ne (hne : i ≠ j) :
    (table.clear j).states i = table.states i :=
  Function.update_of_ne hne _ _

end Table

/-! ### In a large ring -/

/-- The neighbour to the left of `i` eats, `i` waits, and the others think. -/
structure Besieged (table : Table NUMS) (i : Fin NUMS) : Prop where
  hungry : table.states i = .hungry
  eats : table.states (left i) = .eating
  seated : table.places (left i) = .seated
  thinks : ∀ j, j ≠ i → j ≠ left i →
    table.states j = .thinking ∧ table.places j = .away

/-- The other neighbour takes over and gives back. -/
def siege (i : Fin NUMS) : List (Act NUMS) :=
  [.takeFork (right i), .pass (right i), .putFork (left i),
    .takeFork (left i), .pass (left i), .putFork (right i)]

variable {table : Table NUMS} {i : Fin NUMS}

/-- The six steps lead back to the same table, with `i` hungry all along. -/
theorem Besieged.siege (hring : 4 ≤ NUMS) (hbesieged : Besieged table i)
    {rest : List (Act NUMS)}
    (hrest : Always step (fun t => t.states i = .hungry) table rest) :
    Always step (fun t => t.states i = .hungry) table (siege i ++ rest) := by
  have hleft : i ≠ left i := Beside.ne (by omega) (Or.inl rfl)
  have hright : i ≠ right i := Beside.ne (by omega) (Or.inr rfl)
  have hsides : right i ≠ left i := (left_ne_right (by omega) i).symm
  have hhungry := hbesieged.hungry
  obtain ⟨hthinks, haway⟩ := hbesieged.thinks (right i) hright.symm hsides
  have hothers : ∀ k, k ≠ i → k ≠ left i → table.states k ≠ .eating ∧
      table.states k ≠ .hungry := by
    intro k hk hkl
    rw [(hbesieged.thinks k hk hkl).1]
    exact ⟨by decide, by decide⟩
  have hnear : ∀ k, Beside (right i) k → k ≠ left i := by
    rintro k hk rfl
    exact not_beside_sides hring i hk
  have hfar : ∀ k, Beside (left i) k → k ≠ right i := by
    rintro k hk rfl
    exact not_beside_sides hring i hk.symm
  -- The neighbour to the right sits down.
  obtain ⟨mid, hmid, hmidStates, hseat⟩ :=
    table.steps_seat (j := right i) (by omega) haway fun k hk => by
      by_cases hki : k = i
      · rw [hki, hhungry]
        decide
      · exact (hothers k hki (hnear k hk)).1
  -- The one to the left gets up and sits down again.
  have hclear : step (table.seat (right i)) (.putFork (left i)) =
      some ((table.seat (right i)).clear (left i)) := by
    refine Table.step_clear ?_ fun k hk hwaits => ?_
    · exact (Function.update_of_ne hsides.symm _ _).trans hbesieged.seated
    · by_cases hki : k = i
      · subst hki
        refine ⟨right k, Or.inr rfl, ?_⟩
        rw [Table.clear_states_of_ne hsides]
        exact Function.update_self _ _ _
      · have hkl : k ≠ left i := (hk.ne (by omega)).symm
        rw [Table.clear_states_of_ne hkl, Table.seat_states_of_ne (hfar k hk)]
          at hwaits
        exact absurd hwaits (hothers k hki hkl).2
  obtain ⟨mid', hmid', hmidStates', hseat'⟩ :=
    ((table.seat (right i)).clear (left i)).steps_seat (j := left i) (by omega)
      (Function.update_self _ _ _) fun k hk => by
        have hkl : k ≠ left i := (hk.ne (by omega)).symm
        rw [Table.clear_states_of_ne hkl, Table.seat_states_of_ne (hfar k hk)]
        by_cases hki : k = i
        · rw [hki, hhungry]
          decide
        · exact (hothers k hki hkl).1
  have hback : ((table.seat (right i)).clear (left i)).seat (left i) =
      table.seat (right i) := by
    refine Table.seat_clear ?_ ?_
    · rw [Table.seat_states_of_ne hsides.symm, hbesieged.eats]
    · exact (Function.update_of_ne hsides.symm _ _).trans hbesieged.seated
  -- The one to the right gets up.
  have hlast : step (table.seat (right i)) (.putFork (right i)) =
      some table := by
    have hsame := Table.clear_seat hthinks haway
    rw [Table.step_clear (Function.update_self _ _ _), hsame]
    intro k hk hwaits
    rw [hsame] at hwaits ⊢
    by_cases hki : k = i
    · exact ⟨left i, hki ▸ Or.inl rfl, hbesieged.eats⟩
    · exact absurd hwaits (hothers k hki (hnear k hk)).2
  rw [hback] at hseat'
  have hone : (table.seat (right i)).states i = .hungry := by
    rw [Table.seat_states_of_ne hright, hhungry]
  have htwo : ((table.seat (right i)).clear (left i)).states i = .hungry := by
    rw [Table.clear_states_of_ne hleft, hone]
  refine ⟨hhungry, mid, hmid, ?_, _, hseat, hone, _, hclear, htwo, mid', hmid',
    ?_, _, hseat', hone, _, hlast, hrest⟩
  · change mid.states i = .hungry
    rw [hmidStates, Function.update_of_ne hright, hhungry]
  · change mid'.states i = .hungry
    rw [hmidStates', Function.update_of_ne hleft, htwo]

theorem exists_besieged (hring : 2 ≤ NUMS) (i : Fin NUMS) :
    ∃ table, run step (start NUMS)
        [.takeFork (left i), .pass (left i), .takeFork i] = some table ∧
      Besieged table i := by
  have hleft : i ≠ left i := Beside.ne hring (Or.inl rfl)
  have hthink : ∀ k, (start NUMS).states k ≠ .eating := by
    intro k
    change STATE.thinking ≠ .eating
    decide
  obtain ⟨mid, hmid, -, hseat⟩ :=
    (start NUMS).steps_seat (j := left i) hring rfl fun k _ => hthink k
  have hwaits : ((start NUMS).seat (left i)).takeFork i =
      ((start NUMS).seat (left i)).move i .hungry .waiting := by
    refine Table.test_eq_self fun _ => ⟨left i, Or.inl rfl, ?_⟩
    exact (Function.update_of_ne hleft.symm _ _).trans
      (Function.update_self _ _ _)
  have haway : ((start NUMS).seat (left i)).places i = .away :=
    Function.update_of_ne hleft _ _
  refine ⟨((start NUMS).seat (left i)).move i .hungry .waiting, ?_, ?_⟩
  · rw [run_cons, hmid, Option.bind_some, run_cons, hseat, Option.bind_some,
      run_cons, step, if_pos haway, hwaits]
    rfl
  · constructor
    · exact Function.update_self _ _ _
    · exact (Function.update_of_ne hleft.symm _ _).trans
        (Function.update_self _ _ _)
    · exact (Function.update_of_ne hleft.symm _ _).trans
        (Function.update_self _ _ _)
    · intro j hj hjl
      exact ⟨(Function.update_of_ne hj _ _).trans
          (Function.update_of_ne hjl _ _),
        (Function.update_of_ne hj _ _).trans (Function.update_of_ne hjl _ _)⟩

/-- As many rounds of the siege as one likes. -/
theorem Besieged.sieges (hring : 4 ≤ NUMS) (hbesieged : Besieged table i)
    (meals : Nat) : ∃ rest,
      Always step (fun t => t.states i = .hungry) table rest ∧
      meals ≤ rest.countP isMeal := by
  induction meals with
  | zero => exact ⟨[], hbesieged.hungry, Nat.zero_le _⟩
  | succ meals ih =>
      obtain ⟨rest, hrest, hmeals⟩ := ih
      refine ⟨Philosopher.siege i ++ rest, hbesieged.siege hring hrest, ?_⟩
      have htwo : (Philosopher.siege i).countP isMeal = 2 := rfl
      rw [List.countP_append, htwo]
      omega

/-! ### Who gets up -/

section Meals

variable {next : Table NUMS} {j k : Fin NUMS}

theorem Table.eating_test (heats : table.states j = .eating) :
    (table.test k).states j = .eating := by
  obtain ⟨-, -, htest⟩ | ⟨-, htest⟩ := Table.test_cases table k
  · rw [htest]
    change Function.update table.states k .eating j = .eating
    by_cases hj : j = k
    · rw [hj, Function.update_self]
    · rw [Function.update_of_ne hj, heats]
  · rw [htest, heats]

theorem Table.test_states_of_ne (hne : j ≠ k) :
    (table.test k).states j = table.states j := by
  obtain ⟨-, -, htest⟩ | ⟨-, htest⟩ := Table.test_cases table k
  · rw [htest]
    exact Function.update_of_ne hne _ _
  · rw [htest]

/-- A `test` leaves who is hungry hungry, or lets it eat. -/
theorem Table.waits_test
    (hwaits : table.states j = .eating ∨ table.states j = .hungry) :
    (table.test k).states j = .eating ∨ (table.test k).states j = .hungry := by
  rcases hwaits with heats | hhungry
  · exact Or.inl (eating_test heats)
  by_cases hj : j = k
  · obtain ⟨-, -, htest⟩ | ⟨-, htest⟩ := test_cases table k
    · rw [htest, hj]
      exact Or.inl (Function.update_self _ _ _)
    · rw [htest]
      exact Or.inr hhungry
  · rw [test_states_of_ne hj]
    exact Or.inr hhungry

/-- The one that gets up does not eat again. -/
theorem Table.putFork_states_self (hring : 2 ≤ NUMS) (table : Table NUMS)
    (j : Fin NUMS) : (table.putFork j).states j = .thinking := by
  have hleft : j ≠ left j := Beside.ne hring (Or.inl rfl)
  have hright : j ≠ right j := Beside.ne hring (Or.inr rfl)
  rw [putFork, test_states_of_ne hright, test_states_of_ne hleft]
  exact Function.update_self _ _ _

/-- When the neighbour to the right gets up, `i` is the first to be let in. -/
theorem Table.let_in (hring : 2 ≤ NUMS) (hhungry : table.states i = .hungry)
    (hleft : left i = right i ∨ table.states (left i) ≠ .eating) :
    (table.putFork (right i)).states i = .eating := by
  have hne : i ≠ right i := Beside.ne hring (Or.inr rfl)
  have hstill : (table.move (right i) .thinking .away).states i = .hungry :=
    (Function.update_of_ne hne _ _).trans hhungry
  have hright : (table.move (right i) .thinking .away).states (right i) =
      .thinking := Function.update_self _ _ _
  have hleft' : (table.move (right i) .thinking .away).states (left i) ≠
      .eating := by
    by_cases hsame : left i = right i
    · rw [hsame, hright]
      decide
    · change Function.update table.states (right i) .thinking (left i) ≠ _
      rw [Function.update_of_ne hsame]
      exact hleft.resolve_left hsame
  rw [putFork, left_right]
  refine eating_test ?_
  rw [test, if_pos ⟨hstill, hleft', by rw [hright]; decide⟩]
  exact Function.update_self _ _ _

/-! ### Every one can be fed -/

/-- Who eats can get up, in two steps at most. -/
theorem Settled.exists_putFork (hsettled : Settled table)
    (heats : table.states j = .eating) :
    ∃ acts mid, acts.length ≤ 2 ∧
      run Philosopher.step table acts = some (mid.putFork j) ∧
      Settled mid ∧ mid.states = table.states ∧ mid.places j = .seated := by
  cases hplace : table.places j with
  | away =>
      rw [(hsettled.sound.placed j).away.mp hplace] at heats
      cases heats
  | waiting =>
      have hpass := hsettled.exists_pass heats hplace
      have hpost := (hsettled.sound.placed j).posted
      rw [if_pos ⟨heats, hplace⟩] at hpost
      have hseated : (table.pass j).places j = .seated :=
        Function.update_self _ _ _
      refine ⟨[.pass j, .putFork j], table.pass j, Nat.le_refl 2, ?_,
        hsettled.pass hplace (by omega), rfl, hseated⟩
      rw [run_cons, hpass, Option.bind_some, run_cons, Philosopher.step,
        if_pos hseated]
      rfl
  | seated =>
      refine ⟨[.putFork j], table, Nat.le_succ 1, ?_, hsettled, rfl, hplace⟩
      rw [run_cons, Philosopher.step, if_pos hplace]
      rfl

/-- At most the two neighbours have to get up. -/
theorem Settled.exists_meal (hring : 2 ≤ NUMS) (hsettled : Settled table)
    (hhungry : table.states i = .hungry) :
    ∃ acts final, acts.length ≤ 4 ∧
      run Philosopher.step table acts = some final ∧
      final.states i = .eating := by
  by_cases hleft : left i = right i ∨ table.states (left i) ≠ .eating
  · have hright : table.states (right i) = .eating := by
      obtain ⟨k, rfl | rfl, hk⟩ := hsettled.served i hhungry
      · rcases hleft with hsame | hnot
        · rwa [← hsame]
        · exact absurd hk hnot
      · exact hk
    obtain ⟨acts, mid, hlength, hrun, -, hstates, -⟩ :=
      hsettled.exists_putFork hright
    exact ⟨acts, _, by omega, hrun,
      Table.let_in hring (hstates ▸ hhungry) (hstates ▸ hleft)⟩
  · obtain ⟨hsides, heats⟩ := not_or.mp hleft
    obtain ⟨acts, mid, hlength, hrun, hmid, hstates, hseated⟩ :=
      hsettled.exists_putFork (not_not.mp heats)
    have hmid' := hmid.putFork hring hseated
    have hgone := Table.putFork_states_self hring mid (left i)
    have hstill : (mid.putFork (left i)).states i = .eating ∨
        (mid.putFork (left i)).states i = .hungry := by
      have hne : i ≠ left i := Beside.ne hring (Or.inl rfl)
      refine Table.waits_test (Table.waits_test (Or.inr ?_))
      exact (Function.update_of_ne hne _ _).trans (hstates ▸ hhungry)
    rcases hstill with hdone | hstill
    · exact ⟨acts, _, by omega, hrun, hdone⟩
    · have hright : (mid.putFork (left i)).states (right i) = .eating := by
        obtain ⟨k, rfl | rfl, hk⟩ := hmid'.served i hstill
        · rw [hgone] at hk
          cases hk
        · exact hk
      obtain ⟨acts', mid', hlength', hrun', -, hstates', -⟩ :=
        hmid'.exists_putFork hright
      refine ⟨acts ++ acts', _, ?_, by rw [run_append, hrun]; exact hrun',
        Table.let_in hring (hstates' ▸ hstill) (Or.inr ?_)⟩
      · rw [List.length_append]
        omega
      · rw [hstates', hgone]
        decide

/-! ### In a small ring -/

/-- No one else eats. -/
theorem Settled.alone (hring : 2 ≤ NUMS) (hsmall : NUMS ≤ 3)
    (hsettled : Settled table) (heats : table.states j = .eating)
    (hne : k ≠ j) : table.states k ≠ .eating :=
  hsettled.sound.exclusive j k (beside_of_ne hring hsmall hne) heats

/-- If `i` is still hungry after a meal, it was a meal to the left, and now the
neighbour to the right eats. -/
theorem Settled.right_eats (hring : 2 ≤ NUMS) (hsmall : NUMS ≤ 3)
    (hsettled : Settled table) (hhungry : table.states i = .hungry)
    (hseated : table.places j = .seated)
    (hstill : (table.putFork j).states i = .hungry) :
    table.states (right i) ≠ .eating ∧
      (table.putFork j).states (right i) = .eating := by
  have heats := (hsettled.sound.placed j).seated hseated
  have hji : j ≠ i := by
    rintro rfl
    rw [hhungry] at heats
    cases heats
  have hjr : j ≠ right i := by
    rintro rfl
    have hleft : left i = right i ∨ table.states (left i) ≠ .eating :=
      or_iff_not_imp_left.mpr (hsettled.alone hring hsmall heats)
    rw [Table.let_in hring hhungry hleft] at hstill
    cases hstill
  refine ⟨hsettled.alone hring hsmall heats hjr.symm, ?_⟩
  have hjl : j = left i :=
    (beside_of_ne hring hsmall hji).resolve_right hjr
  obtain ⟨k, rfl | rfl, hk⟩ := (hsettled.putFork hring hseated).served i hstill
  · rw [← hjl, Table.putFork_states_self hring] at hk
    cases hk
  · exact hk

/-- Who eats goes on until it gets up. -/
theorem Settled.eats_on {act : Act NUMS} (hsettled : Settled table)
    (heats : table.states j = .eating) (hmeal : isMeal act = false)
    (hstep : Philosopher.step table act = some next) :
    next.states j = .eating := by
  cases act with
  | takeFork k =>
      rw [Philosopher.step, Option.ite_none_right_eq_some] at hstep
      obtain ⟨haway, hnext⟩ := hstep
      cases hnext
      have hne : j ≠ k := by
        rintro rfl
        rw [(hsettled.sound.placed j).away.mp haway] at heats
        cases heats
      exact Table.eating_test ((Function.update_of_ne hne _ _).trans heats)
  | pass k =>
      rw [Philosopher.step, Option.ite_none_right_eq_some] at hstep
      cases hstep.2
      exact heats
  | putFork k => cases hmeal

/-- With the neighbour to the right at table, no meal leaves `i` hungry. -/
theorem Settled.no_meal (hring : 2 ≤ NUMS) (hsmall : NUMS ≤ 3)
    (hsettled : Settled table) (heats : table.states (right i) = .eating)
    {acts : List (Act NUMS)}
    (hhungry : Always Philosopher.step (fun t => t.states i = .hungry) table
      acts) :
    acts.countP isMeal = 0 := by
  induction acts generalizing table with
  | nil => rfl
  | cons act rest ih =>
      obtain ⟨hnow, next, hstep, hrest⟩ := hhungry
      have hmeal : isMeal act = false := by
        cases act with
        | takeFork k => rfl
        | pass k => rfl
        | putFork k =>
            rw [Philosopher.step, Option.ite_none_right_eq_some] at hstep
            obtain ⟨hseated, hnext⟩ := hstep
            cases hnext
            exact absurd heats (hsettled.right_eats hring hsmall hnow hseated
              hrest.head).1
      rw [List.countP_cons_of_neg (by simp [hmeal])]
      exact ih (hsettled.step hring hstep)
        (hsettled.eats_on heats hmeal hstep) hrest

theorem Settled.one_meal (hring : 2 ≤ NUMS) (hsmall : NUMS ≤ 3)
    (hsettled : Settled table) {acts : List (Act NUMS)}
    (hhungry : Always Philosopher.step (fun t => t.states i = .hungry) table
      acts) :
    acts.countP isMeal ≤ 1 := by
  induction acts generalizing table with
  | nil => exact Nat.zero_le _
  | cons act rest ih =>
      obtain ⟨hnow, next, hstep, hrest⟩ := hhungry
      have hnext := hsettled.step hring hstep
      cases hmeal : isMeal act with
      | false =>
          rw [List.countP_cons_of_neg (by simp [hmeal])]
          exact ih hnext hrest
      | true =>
          cases act with
          | takeFork k => cases hmeal
          | pass k => cases hmeal
          | putFork k =>
              rw [Philosopher.step, Option.ite_none_right_eq_some] at hstep
              obtain ⟨hseated, heq⟩ := hstep
              cases heq
              have heats := (hsettled.right_eats hring hsmall hnow hseated
                hrest.head).2
              rw [List.countP_cons_of_pos hmeal,
                hnext.no_meal hring hsmall heats hrest]

end Meals

/-- In every run from the start, whoever is hungry can still come to eat, once
at most its neighbours have gone on. -/
theorem can_be_fed (hring : 2 ≤ NUMS) {acts : List (Act NUMS)}
    (hrun : run step (start NUMS) acts = some table)
    (hhungry : table.states i = .hungry) :
    ∃ rest final, rest.length ≤ 4 ∧ run step table rest = some final ∧
      final.states i = .eating :=
  (settled_of_run hring hrun).exists_meal hring hhungry

/-- The second of five, behind the first. -/
theorem can_be_fed_five : ∃ rest final, rest.length ≤ 4 ∧
    run step (((start 5).takeFork 0).takeFork 1) rest = some final ∧
      final.states 1 = .eating :=
  @can_be_fed 5 _ 1 (by decide) [.takeFork 0, .takeFork 1] rfl rfl

/-- A philosopher can be kept hungry, in a run from the start, through as many
meals of the others as one likes, exactly in a ring of four or more.  In a
smaller one at most one more meal ends before it eats. -/
theorem starves_iff (hring : 2 ≤ NUMS) (i : Fin NUMS) :
    ((∀ meals, ∃ acts rest table, run step (start NUMS) acts = some table ∧
      Always step (fun t => t.states i = .hungry) table rest ∧
      meals ≤ rest.countP isMeal) ↔ 4 ≤ NUMS) ∧
    (NUMS < 4 → ∀ acts rest table, run step (start NUMS) acts = some table →
      Always step (fun t => t.states i = .hungry) table rest →
      rest.countP isMeal ≤ 1) := by
  have hone (hsmall : NUMS < 4) {acts rest : List (Act NUMS)}
      {table : Table NUMS} (hrun : run step (start NUMS) acts = some table)
      (hhungry : Always step (fun t => t.states i = .hungry) table rest) :
      rest.countP isMeal ≤ 1 :=
    (settled_of_run hring hrun).one_meal hring (Nat.le_of_lt_succ hsmall)
      hhungry
  refine ⟨⟨?_, ?_⟩, fun hsmall _ _ _ => hone hsmall⟩
  · intro hstarves
    by_contra hsmall
    obtain ⟨acts, rest, table, hrun, hhungry, hmeals⟩ := hstarves 2
    have hmost := hone (Nat.lt_of_not_le hsmall) hrun hhungry
    omega
  · intro hlarge meals
    obtain ⟨table, hrun, hbesieged⟩ := exists_besieged hring i
    obtain ⟨rest, hrest, hmeals⟩ := hbesieged.sieges hlarge meals
    exact ⟨_, rest, table, hrun, hrest, hmeals⟩

/-- The first of the five is kept hungry through seven meals, the second of
three, all of whom have come to eat, through one. -/
theorem starves_iff_five :
    (∃ acts rest table, run step (start 5) acts = some table ∧
      Always step (fun t => t.states 0 = .hungry) table rest ∧
      7 ≤ rest.countP isMeal) ∧
    ([Act.putFork 0] : List (Act 3)).countP isMeal ≤ 1 :=
  ⟨(starves_iff (by decide) (0 : Fin 5)).1.mpr (by decide) 7,
    (starves_iff (by decide) (1 : Fin 3)).2 (by decide)
      [.takeFork 0, .takeFork 1, .takeFork 2, .pass 0] [.putFork 0] _ rfl
      ⟨rfl, _, rfl, rfl⟩⟩

end Philosopher

end LinuxTest
