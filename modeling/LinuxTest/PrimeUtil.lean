/-
`isPrime` and `nextPrime` of `cpp/util.cpp`, on an `unsigned int` of 32 bits.
The square root of such a number is exact enough as a `double` that
`i <= sqrt(v)` says `i * i ≤ v`.
-/
import Mathlib.Data.ZMod.Basic
import Mathlib.NumberTheory.LucasPrimality
import Mathlib.Order.Bounds.Defs
import Mathlib.Tactic.NormNum.Prime
import Mathlib.Tactic.ReduceModChar

namespace LinuxTest

namespace MUtils

/-- The loop of `isPrime` from `i` on. -/
def testFrom (v : Nat) : Nat → Nat → Option Bool
  | 0, _ => none
  | rounds + 1, i =>
      if i * i ≤ v then
        if v % i = 0 then some false else testFrom v rounds (i + 1)
      else
        some true

/-- The loop has not as many as `2 ^ 16` rounds. -/
def isPrime (v : Nat) : Option Bool :=
  if v = 1 then some true
  else if v % 2 = 0 then some false
  else testFrom v (2 ^ 16) 3

/-- The loop of `nextPrime`. -/
def nextFrom : Nat → Nat → Option Nat
  | 0, _ => none
  | rounds + 1, i =>
      let i := (i + 1) % 2 ^ 32
      (isPrime i).bind fun found => if found then some i else nextFrom rounds i

def nextPrime (n : Nat) : Option Nat :=
  nextFrom (2 ^ 32) n

/-! ### The test -/

/-- The loop ends with `true` iff no number from `i` on up to the square root
of `v` divides `v`, and with `false` otherwise. -/
theorem testFrom_cases (v rounds i : Nat)
    (hbound : v < (i + rounds) * (i + rounds)) :
    (testFrom v (rounds + 1) i = some true ∧
        ∀ j, i ≤ j → j * j ≤ v → ¬j ∣ v) ∨
      (testFrom v (rounds + 1) i = some false ∧
        ∃ j, i ≤ j ∧ j * j ≤ v ∧ j ∣ v) := by
  induction rounds generalizing i with
  | zero =>
      have hstop : ¬i * i ≤ v := Nat.not_le.mpr hbound
      refine Or.inl ⟨by rw [testFrom, if_neg hstop], fun j hij hj => ?_⟩
      exact absurd ((Nat.mul_le_mul hij hij).trans hj) hstop
  | succ rounds ih =>
      by_cases hgo : i * i ≤ v
      · by_cases hdvd : v % i = 0
        · refine Or.inr ⟨by rw [testFrom, if_pos hgo, if_pos hdvd], ?_⟩
          exact ⟨i, le_refl i, hgo, Nat.dvd_of_mod_eq_zero hdvd⟩
        · have hround : testFrom v (rounds + 1 + 1) i =
              testFrom v (rounds + 1) (i + 1) := by
            rw [testFrom, if_pos hgo, if_neg hdvd]
          have hstep : i + 1 + rounds = i + (rounds + 1) := by omega
          rw [hround]
          obtain ⟨heq, hall⟩ | ⟨heq, j, hij, hj⟩ :=
            ih (i + 1) (by rwa [hstep])
          · refine Or.inl ⟨heq, fun j hij hj => ?_⟩
            obtain rfl | hlt := Nat.eq_or_lt_of_le hij
            · exact fun hd => hdvd (Nat.mod_eq_zero_of_dvd hd)
            · exact hall j hlt hj
          · exact Or.inr ⟨heq, j, Nat.le_of_succ_le hij, hj⟩
      · refine Or.inl ⟨by rw [testFrom, if_neg hgo], fun j hij hj => ?_⟩
        exact absurd ((Nat.mul_le_mul hij hij).trans hj) hgo

/-- What `isPrime` takes for prime: `1`, but not `2`. -/
def TakenForPrime (v : Nat) : Prop :=
  v = 1 ∨ (v ≠ 2 ∧ v.Prime)

theorem prime_iff_of_odd {v : Nat} (hone : v ≠ 1) (hodd : v % 2 ≠ 0) :
    (∀ j, 3 ≤ j → j * j ≤ v → ¬j ∣ v) ↔ v.Prime := by
  rw [Nat.prime_def_le_sqrt]
  constructor
  · intro h
    refine ⟨by omega, fun j hj hsqrt hdvd => ?_⟩
    obtain rfl | hlt := Nat.eq_or_lt_of_le hj
    · exact hodd (Nat.mod_eq_zero_of_dvd hdvd)
    · exact h j hlt (Nat.le_sqrt.mp hsqrt) hdvd
  · rintro ⟨-, h⟩ j hj hle hdvd
    exact h j (by omega) (Nat.le_sqrt.mpr hle) hdvd

/-- The test always ends. -/
theorem isPrime_cases {v : Nat} (hv : v < 2 ^ 32) :
    (isPrime v = some true ∧ TakenForPrime v) ∨
      (isPrime v = some false ∧ ¬TakenForPrime v) := by
  rw [isPrime]
  by_cases hone : v = 1
  · rw [if_pos hone]
    exact Or.inl ⟨rfl, Or.inl hone⟩
  rw [if_neg hone]
  by_cases heven : v % 2 = 0
  · rw [if_pos heven]
    refine Or.inr ⟨rfl, ?_⟩
    rintro (h | ⟨htwo, hprime⟩)
    · exact hone h
    · have hdvd : 2 ∣ v := Nat.dvd_of_mod_eq_zero heven
      have heq := (Nat.prime_dvd_prime_iff_eq Nat.prime_two hprime).mp hdvd
      exact htwo heq.symm
  rw [if_neg heven]
  have hbound : v < (3 + 65535) * (3 + 65535) := by omega
  have htwo : v ≠ 2 := by omega
  have hprime := prime_iff_of_odd hone heven
  obtain ⟨heq, hall⟩ | ⟨heq, j, hij, hj, hdvd⟩ :=
    testFrom_cases v 65535 3 hbound
  · exact Or.inl ⟨heq, Or.inr ⟨htwo, hprime.mp hall⟩⟩
  · refine Or.inr ⟨heq, ?_⟩
    rintro (h | ⟨-, h⟩)
    · exact hone h
    · exact hprime.mpr h j hij hj hdvd

/-! ### The next one -/

theorem nextFrom_found {i rounds : Nat}
    (htaken : TakenForPrime ((i + 1) % 2 ^ 32)) :
    nextFrom (rounds + 1) i = some ((i + 1) % 2 ^ 32) := by
  have hv : (i + 1) % 2 ^ 32 < 2 ^ 32 := Nat.mod_lt _ (by norm_num)
  obtain ⟨heq, -⟩ | ⟨-, hnot⟩ := isPrime_cases hv
  · rw [nextFrom, heq]
    rfl
  · exact absurd htaken hnot

theorem nextFrom_passed {i rounds : Nat}
    (htaken : ¬TakenForPrime ((i + 1) % 2 ^ 32)) :
    nextFrom (rounds + 1) i = nextFrom rounds ((i + 1) % 2 ^ 32) := by
  have hv : (i + 1) % 2 ^ 32 < 2 ^ 32 := Nat.mod_lt _ (by norm_num)
  obtain ⟨-, hyes⟩ | ⟨heq, -⟩ := isPrime_cases hv
  · exact absurd hyes htaken
  · rw [nextFrom, heq]
    rfl

/-- The loop stops at the first number taken for prime, counted round `2 ^ 32`.
-/
theorem nextFrom_reaches (gap : Nat) {i rounds : Nat} (hrounds : gap < rounds)
    (hskip : ∀ k < gap, ¬TakenForPrime ((i + k + 1) % 2 ^ 32))
    (htaken : TakenForPrime ((i + gap + 1) % 2 ^ 32)) :
    nextFrom rounds i = some ((i + gap + 1) % 2 ^ 32) := by
  induction gap generalizing i rounds with
  | zero =>
      obtain ⟨rounds, rfl⟩ : ∃ r, rounds = r + 1 := ⟨rounds - 1, by omega⟩
      exact nextFrom_found htaken
  | succ gap ih =>
      obtain ⟨rounds, rfl⟩ : ∃ r, rounds = r + 1 := ⟨rounds - 1, by omega⟩
      have hshift : ∀ k, ((i + 1) % 2 ^ 32 + k + 1) % 2 ^ 32 =
          (i + (k + 1) + 1) % 2 ^ 32 := by
        intro k
        omega
      rw [nextFrom_passed (hskip 0 (Nat.succ_pos gap)), ih (by omega)]
      · rw [hshift]
      · intro k hk
        rw [hshift]
        exact hskip (k + 1) (by omega)
      · rw [hshift]
        exact htaken

/-! ### The last prime of 32 bits -/

theorem natCast_ne_one {n p : Nat} (hne : n % p ≠ 1 % p) :
    (n : ZMod p) ≠ 1 := by
  intro h
  have heq : ((n : Nat) : ZMod p) = ((1 : Nat) : ZMod p) := by
    rw [h, Nat.cast_one]
  exact hne ((ZMod.natCast_eq_natCast_iff' n 1 p).mp heq)

/-- The primes that divide `4294967290`. -/
theorem factors_of_lastPrime_pred {q : Nat} (hq : q.Prime)
    (hdvd : q ∣ 4294967290) :
    q = 2 ∨ q = 5 ∨ q = 19 ∨ q = 22605091 := by
  have hbig : Nat.Prime 22605091 := by norm_num
  have hfactor : 4294967290 = 2 * (5 * (19 * 22605091)) := by norm_num
  rw [hfactor] at hdvd
  obtain h | h := (Nat.Prime.dvd_mul hq).mp hdvd
  · exact Or.inl ((Nat.prime_dvd_prime_iff_eq hq Nat.prime_two).mp h)
  obtain h | h := (Nat.Prime.dvd_mul hq).mp h
  · exact Or.inr (Or.inl ((Nat.prime_dvd_prime_iff_eq hq Nat.prime_five).mp h))
  obtain h | h := (Nat.Prime.dvd_mul hq).mp h
  · have hprime : Nat.Prime 19 := by norm_num
    exact Or.inr (Or.inr (Or.inl ((Nat.prime_dvd_prime_iff_eq hq hprime).mp h)))
  · exact Or.inr (Or.inr (Or.inr ((Nat.prime_dvd_prime_iff_eq hq hbig).mp h)))

def lastPrime : Nat := 4294967291

/-- By the powers of `2`, a primitive root. -/
theorem lastPrime_prime : lastPrime.Prime := by
  refine lucas_primality 4294967291 2 ?_ fun q hq hdvd => ?_
  · norm_num only
    reduce_mod_char
  · obtain rfl | rfl | rfl | rfl := factors_of_lastPrime_pred hq hdvd
    · norm_num only
      reduce_mod_char
      exact @natCast_ne_one 4294967290 _ (by norm_num)
    · norm_num only
      reduce_mod_char
      exact @natCast_ne_one 149005400 _ (by norm_num)
    · norm_num only
      reduce_mod_char
      exact @natCast_ne_one 81549662 _ (by norm_num)
    · norm_num only
      reduce_mod_char
      exact @natCast_ne_one 1073745729 _ (by norm_num)

theorem not_takenForPrime_above {v : Nat} (hlo : lastPrime < v)
    (hhi : v < 2 ^ 32) : ¬TakenForPrime v := by
  have hcases : v = 4294967292 ∨ v = 4294967293 ∨ v = 4294967294 ∨
      v = 4294967295 := by
    rw [lastPrime] at hlo
    omega
  rintro (hone | ⟨-, hprime⟩)
  · rw [lastPrime] at hlo
    omega
  · obtain rfl | rfl | rfl | rfl := hcases <;> norm_num at hprime

theorem not_takenForPrime_zero : ¬TakenForPrime 0 := by
  rintro (h | ⟨-, h⟩)
  · exact absurd h (by norm_num)
  · exact Nat.not_prime_zero h

/-- `nextPrime` always ends. Below the last prime of 32 bits it gives the least
greater number that `isPrime` takes for prime; from there on it counts round and
gives `1`. -/
theorem nextPrime_spec (n : Nat) (hn : n < 2 ^ 32) :
    ∃ r, nextPrime n = some r ∧
      (n < lastPrime → IsLeast {v | n < v ∧ TakenForPrime v} r) ∧
      (lastPrime ≤ n → r = 1) := by
  have hlast : lastPrime = 4294967291 := rfl
  by_cases hlt : n < lastPrime
  · have htaken : TakenForPrime lastPrime :=
      Or.inr ⟨by norm_num [lastPrime], lastPrime_prime⟩
    obtain ⟨r, hr, hmin⟩ := wellFounded_lt.has_min
      {v : Nat | n < v ∧ TakenForPrime v} ⟨lastPrime, hlt, htaken⟩
    have hle : r ≤ lastPrime :=
      Nat.not_lt.mp (hmin lastPrime ⟨hlt, htaken⟩)
    have hgap : (n + (r - n - 1) + 1) % 2 ^ 32 = r := by
      have := hr.1
      rw [Nat.mod_eq_of_lt (by omega)]
      omega
    refine ⟨r, ?_, fun _ => ⟨hr, fun v hv => Nat.not_lt.mp (hmin v hv)⟩,
      fun h => absurd hlt (Nat.not_lt.mpr h)⟩
    rw [nextPrime, nextFrom_reaches (r - n - 1), hgap]
    · omega
    · intro k hk hnext
      rw [Nat.mod_eq_of_lt (by omega)] at hnext
      exact hmin (n + k + 1) ⟨by omega, hnext⟩ (by omega)
    · rw [hgap]
      exact hr.2
  · have hgap : (n + (2 ^ 32 - n) + 1) % 2 ^ 32 = 1 := by omega
    refine ⟨1, ?_, fun h => absurd h hlt, fun _ => rfl⟩
    rw [nextPrime, nextFrom_reaches (2 ^ 32 - n), hgap]
    · rw [hlast] at hlt
      omega
    · intro k hk
      obtain hzero | hbelow : n + k + 1 = 2 ^ 32 ∨ n + k + 1 < 2 ^ 32 := by
        omega
      · rw [hzero, Nat.mod_self]
        exact not_takenForPrime_zero
      · rw [Nat.mod_eq_of_lt hbelow]
        exact not_takenForPrime_above (by omega) hbelow
    · rw [hgap]
      exact Or.inl rfl

theorem nextPrime_spec_max : nextPrime 4294967295 = some 1 := by
  obtain ⟨r, hr, -, hlast⟩ := nextPrime_spec 4294967295 (by norm_num)
  rw [hr, hlast (by norm_num [lastPrime])]

end MUtils

end LinuxTest
