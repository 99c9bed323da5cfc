/-
`build` and `kmp` of `cpp/test.cpp`.  Their indices are `int`s, and so are the
lengths they are compared with; every access to the strings and to the table is
checked here.

The table that `kmp` makes has no slot for the whole pattern, which `build`
fills all the same, and its search starts with `j` at -1, so that it begins at
the second character of `s`.
-/
import LinuxTest.Borders
import LinuxTest.ByteString
import LinuxTest.MachineInt

namespace LinuxTest

namespace Kmp

/-! ### The program -/

/-- `xs[i]`; `none` outside. -/
def slot {V : Type} (xs : List V) (i : Int) : Option V :=
  if 0 ≤ i then xs[i.toNat]? else none

/-- `vec[j] = t`; `none` outside. -/
def store (vec : List Int) (j : Nat) (t : Int) : Option (List Int) :=
  if j < vec.length then some (vec.set j t) else none

/-- `j < 0 || s[i] == p[j]`. -/
def same (s : Bytes) (i : Nat) (p : Bytes) (j : Int) : Option Bool :=
  if j < 0 then some true
  else (slot s i).bind fun a => (slot p j).map fun b => a == b

/-- The loop of `build`. -/
def buildLoop (p : Bytes) : Nat → List Int → Nat → Int → Option (List Int)
  | 0, _, _, _ => none
  | fuel + 1, vec, j, t =>
      if (j : Int) < asInt p.length then
        (same p j p t).bind fun hit =>
          if hit then
            (store vec (j + 1) (t + 1)).bind fun vec =>
              buildLoop p fuel vec (j + 1) (t + 1)
          else (slot vec t).bind fun t => buildLoop p fuel vec j t
      else some vec

def build (p : Bytes) (vec : List Int) (fuel : Nat) : Option (List Int) :=
  (store vec 0 (-1)).bind fun vec => buildLoop p fuel vec 0 (-1)

/-- The loop of `kmp`. -/
def kmpLoop (s p : Bytes) (ne : List Int) : Nat → Nat → Int → Option Int
  | 0, _, _ => none
  | fuel + 1, i, j =>
      if (i : Int) < asInt s.length ∧ j < asInt p.length then
        (same s i p j).bind fun hit =>
          if hit then kmpLoop s p ne fuel (i + 1) (j + 1)
          else (slot ne j).bind fun j => kmpLoop s p ne fuel i j
      else some (i - j)

def kmp (s p : Bytes) (buildFuel fuel : Nat) : Option Int :=
  (build p (List.replicate p.length 0) buildFuel).bind fun ne =>
    kmpLoop s p ne fuel 0 (-1)

/-! ### What the two functions are for -/

/-- In any table with a slot for the whole pattern, `build` stores -1 and then
the longest proper border of each prefix. -/
def BuildsBorders (p : Bytes) : Prop :=
  ∀ vec : List Int, vec.length = p.length + 1 → ∃ fuel table,
    build p vec fuel = some table ∧ table[0]? = some (-1) ∧
    ∀ j, 1 ≤ j → j ≤ p.length → ∃ k : Nat, table[j]? = some (k : Int) ∧
      IsGreatest {k | k < j ∧ p.take k <:+ p.take j} k

def Occurs (s p : Bytes) (index : Nat) : Prop :=
  p <+: s.drop index

/-- The least index of an occurrence, or a value too large for one. -/
def Answer (s p : Bytes) (result : Int) : Prop :=
  (∃ index : Nat, result = index ∧
    IsLeast {index | Occurs s p index} index) ∨
  ((∀ index, ¬ Occurs s p index) ∧
    (s.length : Int) - p.length < result)

/-- `kmp` returns, inside its table and the strings, with the answer. -/
def Finds (s p : Bytes) : Prop :=
  ∃ buildFuel fuel result, kmp s p buildFuel fuel = some result ∧
    Answer s p result

/-- How far a loop goes that counts up to `(int)xs.length()`. -/
def reach (xs : Bytes) : Nat :=
  (asInt xs.length).toNat

/-- The first place from 1 on where the pattern and the text agree, as far as
both go, when no more of them is seen than the loops reach. -/
def FirstFit (s p : Bytes) (r : Nat) : Prop :=
  IsLeast {r : Nat | 1 ≤ r ∧ Fits p s (reach p) (reach s) r} r

/-- What the loops see of the two is enough: where that much agrees and there
is room for the pattern, it occurs, there or before. -/
def SeenEnough (s p : Bytes) : Prop :=
  ∀ r, 1 ≤ r → r + p.length ≤ s.length →
    Fits p s (reach p) (reach s) r → ∃ index ≤ r, Occurs s p index

/-! ### One round -/

theorem reach_le (xs : Bytes) : reach xs ≤ xs.length := by
  rw [reach, asInt, Int.bmod_def]
  split <;> omega

theorem lt_reach_iff {xs : Bytes} {i : Nat} :
    (i : Int) < asInt xs.length ↔ i < reach xs := by
  rw [reach]
  omega

theorem lt_of_toNat_lt_reach {xs : Bytes} {j : Int}
    (hj : j.toNat < reach xs) : j < asInt xs.length := by
  rw [reach] at hj
  omega

theorem reach_lt (xs : Bytes) : reach xs < 2 ^ 31 := by
  have hlt := asInt_lt xs.length
  rw [reach]
  omega

theorem reach_of_lt {xs : Bytes} (hlt : xs.length < 2 ^ 31) :
    reach xs = xs.length := by
  rw [reach, asInt_of_lt xs.length (by omega) (by omega), Int.toNat_natCast]

theorem slot_natCast {V : Type} (xs : List V) (i : Nat) :
    slot xs i = xs[i]? := by
  rw [slot, if_pos (Int.natCast_nonneg i), Int.toNat_natCast]

theorem same_of_neg (s p : Bytes) (i : Nat) {j : Int} (hj : j < 0) :
    same s i p j = some true :=
  if_pos hj

/-- Inside the two strings the comparison comes to a decision. -/
theorem same_cases {s p : Bytes} {i : Nat} {j : Int} (hi : i < s.length)
    (hj : j < p.length) :
    (same s i p j = some true ∧ (j < 0 ∨ p[j.toNat]? = s[i]?)) ∨
    (same s i p j = some false ∧ 0 ≤ j ∧ p[j.toNat]? ≠ s[i]?) := by
  by_cases hneg : j < 0
  · exact Or.inl ⟨same_of_neg s p i hneg, Or.inl hneg⟩
  · have hj' : j.toNat < p.length := by omega
    have hsame : same s i p j = some (s[i] == p[j.toNat]) := by
      rw [same, if_neg hneg, slot_natCast, List.getElem?_eq_getElem hi,
        Option.bind_some, slot, if_pos (by omega),
        List.getElem?_eq_getElem hj']
      rfl
    rw [hsame, List.getElem?_eq_getElem hi, List.getElem?_eq_getElem hj']
    by_cases heq : s[i] = p[j.toNat]
    · exact Or.inl ⟨by simp [heq], Or.inr (by rw [heq])⟩
    · refine Or.inr ⟨by simp [heq], by omega, ?_⟩
      intro hsome
      exact heq (Option.some.inj hsome).symm

section BuildLoop

variable {p : Bytes} {fuel j : Nat} {vec : List Int} {t v : Int}

theorem buildLoop_done (hdone : ¬ (j : Int) < asInt p.length) :
    buildLoop p (fuel + 1) vec j t = some vec :=
  if_neg hdone

theorem buildLoop_hit (hmore : (j : Int) < asInt p.length)
    (hsame : same p j p t = some true) (hslot : j + 1 < vec.length) :
    buildLoop p (fuel + 1) vec j t =
      buildLoop p fuel (vec.set (j + 1) (t + 1)) (j + 1) (t + 1) := by
  rw [buildLoop, if_pos hmore, hsame, Option.bind_some, if_pos rfl, store,
    if_pos hslot, Option.bind_some]

theorem buildLoop_miss (hmore : (j : Int) < asInt p.length)
    (hsame : same p j p t = some false) (hslot : slot vec t = some v) :
    buildLoop p (fuel + 1) vec j t = buildLoop p fuel vec j v := by
  rw [buildLoop, if_pos hmore, hsame, Option.bind_some,
    if_neg Bool.false_ne_true, hslot, Option.bind_some]

/-! ### `build` -/

/-- The entries up to `m` are those of the failure function. -/
def Entries (p : Bytes) (table : List Int) (m : Nat) : Prop :=
  ∀ j ≤ m, ∃ v, table[j]? = some v ∧ Failure p j v

theorem Entries.slot (hentries : Entries p vec j) (ht : 0 ≤ t)
    (hle : t.toNat ≤ j) : ∃ v, slot vec t = some v ∧ Failure p t.toNat v := by
  obtain ⟨v, hv, hfailure⟩ := hentries t.toNat hle
  exact ⟨v, by rw [Kmp.slot, if_pos ht, hv], hfailure⟩

theorem Entries.set (hentries : Entries p vec j) (hslot : j + 1 < vec.length)
    (hfailure : Failure p (j + 1) v) :
    Entries p (vec.set (j + 1) v) (j + 1) := by
  intro i hi
  rcases Nat.lt_succ_iff_lt_or_eq.mp (Nat.lt_succ_of_le hi) with hlt | rfl
  · obtain ⟨w, hw, hentry⟩ := hentries i (by omega)
    exact ⟨w, by rw [List.getElem?_set_ne (by omega), hw], hentry⟩
  · exact ⟨v, List.getElem?_set_self hslot, hfailure⟩

/-- The loop ends with all the entries, if the table has the slots: each round
takes `j` on, or takes `t` back and leaves `j`. -/
theorem buildLoop_ends (hslots : reach p < vec.length) (hj : j ≤ reach p)
    (hentries : Entries p vec j) (hextends : Extends p j t) :
    ∃ fuel table, buildLoop p fuel vec j t = some table ∧
      Entries p table (reach p) := by
  induction hmeasure : 2 * (reach p - j) + (t + 1).toNat using
    Nat.strong_induction_on generalizing vec j t with
  | _ measure ih =>
      have hlower := hextends.lower
      have hupper := hextends.upper
      by_cases hmore : (j : Int) < asInt p.length
      · have hlength := reach_le p
        have hlt : j < reach p := lt_reach_iff.mp hmore
        rcases @same_cases p p j t (by omega) (by omega) with
          ⟨hsame, hnext⟩ | ⟨hsame, ht, hnext⟩
        · have hfailure := hextends.advance hnext
          obtain ⟨fuel, table, hloop, htable⟩ :=
            ih (2 * (reach p - (j + 1)) + (t + 1 + 1).toNat) (by omega)
              (by rw [List.length_set]; exact hslots) hlt
              (hentries.set (by omega) hfailure) hfailure.extends rfl
          exact ⟨fuel + 1, table,
            (buildLoop_hit hmore hsame (by omega)).trans hloop, htable⟩
        · obtain ⟨v, hslot, hfailure⟩ := hentries.slot ht (by omega)
          have hvupper := hfailure.upper
          have hvlower := hfailure.lower
          obtain ⟨fuel, table, hloop, htable⟩ :=
            ih (2 * (reach p - j) + (v + 1).toNat) (by omega) hslots hj hentries
              (hextends.fallback ht hnext hfailure) rfl
          exact ⟨fuel + 1, table,
            (buildLoop_miss hmore hsame hslot).trans hloop, htable⟩
      · have hend : j = reach p := by
          rw [lt_reach_iff] at hmore
          omega
        rw [hend] at hentries
        exact ⟨1, vec, buildLoop_done hmore, hentries⟩

theorem build_ends (hslots : reach p < vec.length) :
    ∃ fuel table, build p vec fuel = some table ∧
      Entries p table (reach p) := by
  have hzero : 0 < vec.length := by omega
  have hentries : Entries p (vec.set 0 (-1)) 0 := by
    intro i hi
    have hi' : i = 0 := by omega
    subst hi'
    exact ⟨-1, List.getElem?_set_self hzero, failure_zero p⟩
  obtain ⟨fuel, table, hloop, htable⟩ :=
    buildLoop_ends (by rw [List.length_set]; exact hslots) (Nat.zero_le _)
      hentries (failure_zero p).extends
  refine ⟨fuel, table, ?_, htable⟩
  rw [build, store, if_pos hzero, Option.bind_some]
  exact hloop

/-- What a round of the loop does when it goes on. -/
theorem buildLoop_succ_cases {table : List Int}
    (hmore : (j : Int) < asInt p.length)
    (hloop : buildLoop p (fuel + 1) vec j t = some table) :
    (j + 1 < vec.length ∧ buildLoop p fuel (vec.set (j + 1) (t + 1)) (j + 1)
      (t + 1) = some table) ∨
    ∃ v, buildLoop p fuel vec j v = some table := by
  rw [buildLoop, if_pos hmore, Option.bind_eq_some_iff] at hloop
  obtain ⟨hit, _, hloop⟩ := hloop
  cases hit with
  | true =>
      rw [if_pos rfl, Option.bind_eq_some_iff] at hloop
      obtain ⟨next, hstore, hloop⟩ := hloop
      rw [store, Option.ite_none_right_eq_some] at hstore
      obtain ⟨hslot, hnext⟩ := hstore
      rw [← Option.some.inj hnext] at hloop
      exact Or.inl ⟨hslot, hloop⟩
  | false =>
      rw [if_neg Bool.false_ne_true, Option.bind_eq_some_iff] at hloop
      obtain ⟨v, _, hloop⟩ := hloop
      exact Or.inr ⟨v, hloop⟩

/-- The loop leaves the slots behind the length it sees as they are. -/
theorem buildLoop_getElem? {table : List Int} {k : Nat} (hj : j < k)
    (hk : asInt p.length < k)
    (hloop : buildLoop p fuel vec j t = some table) : table[k]? = vec[k]? := by
  induction fuel generalizing vec j t with
  | zero => cases hloop
  | succ fuel ih =>
      by_cases hmore : (j : Int) < asInt p.length
      · rcases buildLoop_succ_cases hmore hloop with ⟨_, hrest⟩ | ⟨v, hrest⟩
        · rw [ih (by omega) hrest, List.getElem?_set_ne (by omega)]
        · exact ih hj hrest
      · rw [buildLoop_done hmore] at hloop
        cases hloop
        rfl

/-- A table of as many slots as the pattern has characters is too small. -/
theorem buildLoop_eq_none (hlength : asInt p.length = p.length)
    (hslots : vec.length ≤ p.length) (hj : j < p.length) :
    buildLoop p fuel vec j t = none := by
  rw [Option.eq_none_iff_forall_ne_some]
  intro table hloop
  induction fuel generalizing vec j t with
  | zero => cases hloop
  | succ fuel ih =>
      rcases buildLoop_succ_cases (by omega) hloop with
        ⟨hslot, hrest⟩ | ⟨v, hrest⟩
      · exact ih (by rw [List.length_set]; exact hslots) (by omega) hrest
      · exact ih hslots hj hrest

/-- More fuel does not change the table. -/
theorem buildLoop_unique {fuel' : Nat} {table table' : List Int}
    (hloop : buildLoop p fuel vec j t = some table)
    (hloop' : buildLoop p fuel' vec j t = some table') : table = table' := by
  induction fuel generalizing fuel' vec j t with
  | zero => cases hloop
  | succ fuel ih =>
      cases fuel' with
      | zero => cases hloop'
      | succ fuel' =>
          by_cases hmore : (j : Int) < asInt p.length
          · rw [buildLoop, if_pos hmore, Option.bind_eq_some_iff]
              at hloop hloop'
            obtain ⟨hit, hsame, hloop⟩ := hloop
            obtain ⟨hit', hsame', hloop'⟩ := hloop'
            cases hsame.symm.trans hsame'
            cases hit with
            | true =>
                rw [if_pos rfl, Option.bind_eq_some_iff] at hloop hloop'
                obtain ⟨next, hstore, hloop⟩ := hloop
                obtain ⟨next', hstore', hloop'⟩ := hloop'
                cases hstore.symm.trans hstore'
                exact ih hloop hloop'
            | false =>
                rw [if_neg Bool.false_ne_true, Option.bind_eq_some_iff]
                  at hloop hloop'
                obtain ⟨v, hslot, hloop⟩ := hloop
                obtain ⟨v', hslot', hloop'⟩ := hloop'
                cases hslot.symm.trans hslot'
                exact ih hloop hloop'
          · rw [buildLoop_done hmore] at hloop hloop'
            exact Option.some.inj (hloop.symm.trans hloop')

end BuildLoop

theorem not_buildsBorders {p : Bytes} (hlong : 2 ^ 31 ≤ p.length) :
    ¬ BuildsBorders p := by
  intro hbuilds
  obtain ⟨fuel, table, hbuild, _, hborders⟩ :=
    hbuilds (List.replicate (p.length + 1) (-1)) List.length_replicate
  obtain ⟨k, hk, _⟩ := hborders p.length (by omega) (le_refl _)
  rw [build, store, if_pos (by rw [List.length_replicate]; omega),
    Option.bind_some] at hbuild
  have hlt := asInt_lt p.length
  rw [buildLoop_getElem? (by omega) (by omega) hbuild,
    List.getElem?_set_ne (by omega), List.getElem?_replicate,
    if_pos (by omega)] at hk
  have hneg := Option.some.inj hk
  omega

/-- `build` does its work as long as an `int` holds the length. -/
theorem buildsBorders_iff (p : Bytes) :
    BuildsBorders p ↔ p.length < 2 ^ 31 := by
  constructor
  · intro hbuilds
    by_contra hlong
    exact not_buildsBorders (by omega) hbuilds
  · intro hshort vec hlength
    have hreach := reach_of_lt hshort
    obtain ⟨fuel, table, hbuild, hentries⟩ := @build_ends p vec (by omega)
    rw [hreach] at hentries
    refine ⟨fuel, table, hbuild, ?_, fun j hj hle => ?_⟩
    · obtain ⟨v, hv, hfailure⟩ := hentries 0 (Nat.zero_le _)
      rw [hv, hfailure.eq_neg_one]
    · obtain ⟨v, hv, hfailure⟩ := hentries j hle
      obtain ⟨k, rfl, hgreatest⟩ := hfailure.isGreatest hj hle
      exact ⟨k, hv, hgreatest⟩

/-- A pattern of 2 GiB: nothing but the first slot is stored. -/
theorem not_buildsBorders_replicate :
    ¬ BuildsBorders (List.replicate (2 ^ 31) 97) :=
  not_buildsBorders (by rw [List.length_replicate])

/-! ### `kmp` -/

section KmpLoop

variable {s p : Bytes} {ne : List Int} {fuel i : Nat} {j v result : Int}

theorem kmpLoop_done (hdone : ¬ ((i : Int) < asInt s.length ∧
    j < asInt p.length)) :
    kmpLoop s p ne (fuel + 1) i j = some (i - j) :=
  if_neg hdone

theorem kmpLoop_hit (hmore : (i : Int) < asInt s.length ∧ j < asInt p.length)
    (hsame : same s i p j = some true) :
    kmpLoop s p ne (fuel + 1) i j =
      kmpLoop s p ne fuel (i + 1) (j + 1) := by
  rw [kmpLoop, if_pos hmore, hsame, Option.bind_some, if_pos rfl]

theorem kmpLoop_miss (hmore : (i : Int) < asInt s.length ∧ j < asInt p.length)
    (hsame : same s i p j = some false) (hslot : slot ne j = some v) :
    kmpLoop s p ne (fuel + 1) i j = kmpLoop s p ne fuel i v := by
  rw [kmpLoop, if_pos hmore, hsame, Option.bind_some,
    if_neg Bool.false_ne_true, hslot, Option.bind_some]

/-- With the entries of the failure function the loop ends at the first
fit. -/
theorem kmpLoop_ends (hentries : Entries p ne (reach p))
    (hscan : Scan p s (reach p) (reach s) i j) :
    ∃ fuel, ∃ r : Nat, kmpLoop s p ne fuel i j = some (r : Int) ∧
      FirstFit s p r := by
  induction hmeasure : 2 * (reach s - i) + (j + 1).toNat using
    Nat.strong_induction_on generalizing i j with
  | _ measure ih =>
      have hlower := hscan.lower
      have hupper := hscan.upper
      by_cases hmore : (i : Int) < asInt s.length ∧ j < asInt p.length
      · have hi : i < reach s := lt_reach_iff.mp hmore.1
        have hj : j < reach p := hmore.2.trans_le (Int.self_le_toNat _)
        have hslength := reach_le s
        have hplength := reach_le p
        rcases @same_cases s p i j (by omega) (by omega) with
          ⟨hsame, hnext⟩ | ⟨hsame, hpos, hnext⟩
        · obtain ⟨fuel, r, hloop, hr⟩ :=
            ih (2 * (reach s - (i + 1)) + (j + 1 + 1).toNat) (by omega)
              (hscan.advance hi hj hnext) rfl
          exact ⟨fuel + 1, r, (kmpLoop_hit hmore hsame).trans hloop, hr⟩
        · obtain ⟨v, hslot, hfailure⟩ := hentries.slot hpos (by omega)
          have hvupper := hfailure.upper
          have hvlower := hfailure.lower
          obtain ⟨fuel, r, hloop, hr⟩ :=
            ih (2 * (reach s - i) + (v + 1).toNat) (by omega)
              (hscan.fallback hi hj hpos hnext hfailure) rfl
          exact ⟨fuel + 1, r, (kmpLoop_miss hmore hsame hslot).trans hloop,
            hr⟩
      · have hend : reach s ≤ i ∨ reach p ≤ j.toNat := by
          by_contra hnot
          rw [not_or, Nat.not_le, Nat.not_le] at hnot
          exact hmore ⟨lt_reach_iff.mpr hnot.1, lt_of_toNat_lt_reach hnot.2⟩
        refine ⟨1, (i - j).toNat, ?_, hscan.isLeast hend⟩
        rw [kmpLoop_done hmore, Int.toNat_of_nonneg (by omega)]

/-- The right table lets the search pass over index 0 all the same. -/
example : kmpLoop [97] [97] [-1, 0] 2 0 (-1) = some 1 := by decide

/-- More fuel does not change the result. -/
theorem kmpLoop_unique {fuel' : Nat} {result' : Int}
    (hloop : kmpLoop s p ne fuel i j = some result)
    (hloop' : kmpLoop s p ne fuel' i j = some result') :
    result = result' := by
  induction fuel generalizing fuel' i j with
  | zero => cases hloop
  | succ fuel ih =>
      cases fuel' with
      | zero => cases hloop'
      | succ fuel' =>
          by_cases hmore : (i : Int) < asInt s.length ∧ j < asInt p.length
          · rw [kmpLoop, if_pos hmore, Option.bind_eq_some_iff]
              at hloop hloop'
            obtain ⟨hit, hsame, hloop⟩ := hloop
            obtain ⟨hit', hsame', hloop'⟩ := hloop'
            cases hsame.symm.trans hsame'
            cases hit with
            | true => exact ih hloop hloop'
            | false =>
                rw [if_neg Bool.false_ne_true, Option.bind_eq_some_iff]
                  at hloop hloop'
                obtain ⟨v, hslot, hloop⟩ := hloop
                obtain ⟨v', hslot', hloop'⟩ := hloop'
                cases hslot.symm.trans hslot'
                exact ih hloop hloop'
          · rw [kmpLoop_done hmore] at hloop hloop'
            exact Option.some.inj (hloop.symm.trans hloop')

end KmpLoop

theorem kmp_unique {s p : Bytes} {buildFuel buildFuel' fuel fuel' : Nat}
    {result result' : Int} (hkmp : kmp s p buildFuel fuel = some result)
    (hkmp' : kmp s p buildFuel' fuel' = some result') : result = result' := by
  rw [kmp, Option.bind_eq_some_iff] at hkmp hkmp'
  obtain ⟨ne, hbuild, hloop⟩ := hkmp
  obtain ⟨ne', hbuild', hloop'⟩ := hkmp'
  rw [build, Option.bind_eq_some_iff] at hbuild hbuild'
  obtain ⟨vec, hstore, hbuild⟩ := hbuild
  obtain ⟨vec', hstore', hbuild'⟩ := hbuild'
  cases hstore.symm.trans hstore'
  cases buildLoop_unique hbuild hbuild'
  exact kmpLoop_unique hloop hloop'

/-- Up to the greatest `int`, `build` leaves the table that `kmp` has made. -/
theorem kmp_eq_none {p : Bytes} (hp : p ≠ []) (hshort : p.length < 2 ^ 31)
    (s : Bytes) (buildFuel fuel : Nat) : kmp s p buildFuel fuel = none := by
  have hpos := List.length_pos_iff.mpr hp
  have hslots : (List.replicate p.length (0 : Int)).length = p.length :=
    List.length_replicate
  rw [kmp, build, store, if_pos (by omega), Option.bind_some,
    buildLoop_eq_none (asInt_of_lt p.length (by omega) (by omega))
      (by rw [List.length_set]; omega) hpos]
  rfl

/-- Beyond it, the length that the loops see is less than that of the
table. -/
theorem kmp_ends {p : Bytes} (hlong : 2 ^ 31 ≤ p.length) (s : Bytes) :
    ∃ buildFuel fuel, ∃ r : Nat, kmp s p buildFuel fuel = some (r : Int) ∧
      FirstFit s p r := by
  have hreach := reach_lt p
  have hslots : (List.replicate p.length (0 : Int)).length = p.length :=
    List.length_replicate
  obtain ⟨buildFuel, ne, hbuild, hentries⟩ :=
    @build_ends p (List.replicate p.length 0) (by omega)
  obtain ⟨fuel, r, hloop, hr⟩ :=
    kmpLoop_ends hentries (scan_start p s (reach p) (reach s))
  refine ⟨buildFuel, fuel, r, ?_, hr⟩
  rw [kmp, hbuild, Option.bind_some, hloop]

theorem Occurs.add_length_le {s p : Bytes} {index : Nat} (hp : p ≠ [])
    (hoccurs : Occurs s p index) : index + p.length ≤ s.length := by
  have hpos := List.length_pos_iff.mpr hp
  have hle := hoccurs.length_le
  rw [List.length_drop] at hle
  omega

theorem Occurs.fits {s p : Bytes} {index : Nat} (hoccurs : Occurs s p index) :
    Fits p s (reach p) (reach s) index := by
  intro x hx _
  have hlt : x < p.length := hx.trans_le (reach_le p)
  have hsame := List.prefix_iff_getElem?.mp hoccurs x hlt
  rw [List.getElem?_drop] at hsame
  rw [hsame, List.getElem?_eq_getElem]

/-- When the first fit is the answer. -/
theorem FirstFit.answer_iff {s p : Bytes} {r : Nat} (hp : p ≠ [])
    (hr : FirstFit s p r) :
    Answer s p r ↔ ¬ Occurs s p 0 ∧ SeenEnough s p := by
  have hone : 1 ≤ r := hr.1.1
  constructor
  · rintro (⟨index, hindex, hleast⟩ | ⟨hnone, hlarge⟩)
    · have hsame : index = r := by omega
      subst hsame
      refine ⟨fun hzero => ?_, fun later hlater _ hfits => ?_⟩
      · have hle := hleast.2 hzero
        omega
      · exact ⟨index, hr.2 ⟨hlater, hfits⟩, hleast.1⟩
    · refine ⟨hnone 0, fun later hlater hroom hfits => ?_⟩
      have hle := hr.2 ⟨hlater, hfits⟩
      omega
  · rintro ⟨hzero, hseen⟩
    by_cases hsome : ∃ index, Occurs s p index
    · classical
      have hfirst := Nat.find_spec hsome
      have hpos : 1 ≤ Nat.find hsome := by
        by_contra hnot
        have hindex : Nat.find hsome = 0 := by omega
        rw [hindex] at hfirst
        exact hzero hfirst
      have hle := hr.2 ⟨hpos, hfirst.fits⟩
      have hroom := hfirst.add_length_le hp
      obtain ⟨index, hindex, hoccurs⟩ := hseen r hone (by omega) hr.1.2
      have hmin := Nat.find_min' hsome hoccurs
      refine Or.inl ⟨r, rfl, ?_, fun other hother => ?_⟩
      · have hsame : Nat.find hsome = r := by omega
        rw [hsame] at hfirst
        exact hfirst
      · have hother' := Nat.find_min' hsome hother
        omega
    · have hnone (index : Nat) : ¬ Occurs s p index :=
        fun hoccurs => hsome ⟨index, hoccurs⟩
      refine Or.inr ⟨hnone, ?_⟩
      by_contra hsmall
      obtain ⟨index, _, hoccurs⟩ := hseen r hone (by omega) hr.1.2
      exact hnone index hoccurs

/-- `kmp` does its work for no pattern whose length an `int` holds; for a longer
one it does where the text does not start with it, and what the loops see of
the two is enough. -/
theorem finds_iff {s p : Bytes} (hp : p ≠ []) :
    Finds s p ↔
      2 ^ 31 ≤ p.length ∧ ¬ Occurs s p 0 ∧ SeenEnough s p := by
  constructor
  · rintro ⟨buildFuel, fuel, result, hkmp, hanswer⟩
    have hlong : 2 ^ 31 ≤ p.length := by
      by_contra hshort
      rw [kmp_eq_none hp (by omega)] at hkmp
      cases hkmp
    obtain ⟨_, _, r, hends, hr⟩ := kmp_ends hlong s
    rw [kmp_unique hkmp hends] at hanswer
    exact ⟨hlong, (hr.answer_iff hp).mp hanswer⟩
  · rintro ⟨hlong, hseen⟩
    obtain ⟨buildFuel, fuel, r, hends, hr⟩ := kmp_ends hlong s
    exact ⟨buildFuel, fuel, r, hends, (hr.answer_iff hp).mpr hseen⟩

/-- A pattern of one character is enough for the missing slot. -/
theorem not_finds_one : ¬ Finds [97] [97] := by
  rintro ⟨buildFuel, fuel, result, hkmp, _⟩
  have hnone := @kmp_eq_none [97] (by decide) (by decide) [97] buildFuel fuel
  cases hnone.symm.trans hkmp

theorem not_occurs_of_length_lt {s p : Bytes} (hlt : s.length < p.length)
    (index : Nat) : ¬ Occurs s p index := by
  intro hoccurs
  have hle := hoccurs.length_le
  rw [List.length_drop] at hle
  omega

/-- A pattern of 2 GiB is searched for in no text at all. -/
theorem finds_nil : Finds [] (List.replicate (2 ^ 31) 97) := by
  have hlength : (List.replicate (2 ^ 31) (97 : UInt8)).length = 2 ^ 31 :=
    List.length_replicate
  have hne : List.replicate (2 ^ 31) (97 : UInt8) ≠ [] := by
    rw [← List.length_pos_iff, hlength]
    decide
  refine (finds_iff hne).mpr ⟨le_of_eq hlength.symm, ?_, ?_⟩
  · exact not_occurs_of_length_lt (by rw [hlength]; decide) 0
  · intro r _ hroom
    rw [hlength, List.length_nil] at hroom
    omega

end Kmp

end LinuxTest
