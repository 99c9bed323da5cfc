/-
Where a pattern overlaps a text or itself.  The failure function of a pattern
gives the longest proper border of each of its prefixes; a search that falls
back along it passes over no place where the pattern could stand.
-/
import Mathlib.Data.List.Basic
import Mathlib.Order.Bounds.Basic
import Mathlib.Tactic.Common

namespace LinuxTest

universe u

variable {V : Type u} {p s : List V} {r j k l : Nat} {t v : Int}

/-! ### Overlaps and borders -/

/-- The first `k` of `p` stand in `s` from place `r` on. -/
def Overlap (p s : List V) (r k : Nat) : Prop :=
  ∀ x < k, p[x]? = s[r + x]?

theorem overlap_zero (p s : List V) (r : Nat) : Overlap p s r 0 :=
  fun x hx => absurd hx (Nat.not_lt_zero x)

theorem Overlap.mono (hoverlap : Overlap p s r k) (hle : l ≤ k) :
    Overlap p s r l :=
  fun x hx => hoverlap x (by omega)

theorem Overlap.succ (hoverlap : Overlap p s r k) (hnext : p[k]? = s[r + k]?) :
    Overlap p s r (k + 1) := by
  intro x hx
  rcases Nat.lt_succ_iff_lt_or_eq.mp hx with hlt | rfl
  · exact hoverlap x hlt
  · exact hnext

/-- The first `k` of `p` are a proper border of the first `j`. -/
def Border (p : List V) (j k : Nat) : Prop :=
  k < j ∧ Overlap p p (j - k) k

theorem border_zero (p : List V) (hj : 0 < j) : Border p j 0 :=
  ⟨hj, overlap_zero p p _⟩

/-- Borders in words. -/
theorem border_iff_suffix (hj : j ≤ p.length) :
    Border p j k ↔ k < j ∧ p.take k <:+ p.take j := by
  refine and_congr_right fun hk => ?_
  have hlength (n : Nat) (hn : n ≤ p.length) : (p.take n).length = n := by
    rw [List.length_take]
    omega
  have hk' := hlength k (by omega)
  have hj' := hlength j hj
  have hplace (x : Nat) : x + (p.take j).length - (p.take k).length =
      j - k + x := by
    omega
  rw [List.suffix_iff_getElem?]
  constructor
  · intro hoverlap
    refine ⟨by omega, fun x hx => ?_⟩
    rw [hplace, List.getElem?_take_of_lt (by omega),
      ← hoverlap x (by omega), List.getElem_take, List.getElem?_eq_getElem]
  · rintro ⟨_, hsame⟩ x hx
    have hx' := hsame x (by omega)
    rw [hplace, List.getElem?_take_of_lt (by omega), List.getElem_take] at hx'
    rw [hx', List.getElem?_eq_getElem]

/-- A border of what overlaps overlaps further on. -/
theorem Overlap.border (hoverlap : Overlap p s r j) (hborder : Border p j k) :
    Overlap p s (r + (j - k)) k := by
  intro x hx
  have hlt := hborder.1
  have hplace : r + (j - k) + x = r + (j - k + x) := by omega
  rw [hborder.2 x hx, hplace]
  exact hoverlap (j - k + x) (by omega)

/-- Two overlaps that end at one place make a border. -/
theorem border_of_overlap (hoverlap : Overlap p s r j) (hlt : k < j)
    (hlater : Overlap p s (r + (j - k)) k) : Border p j k := by
  refine ⟨hlt, fun x hx => ?_⟩
  have hplace : r + (j - k) + x = r + (j - k + x) := by omega
  rw [hlater x hx, hplace]
  exact (hoverlap (j - k + x) (by omega)).symm

theorem Border.trans (hborder : Border p j k) (hinner : Border p k l) :
    Border p j l := by
  have hlt := hborder.1
  have hlt' := hinner.1
  have hplace : j - k + (k - l) = j - l := by omega
  have hoverlap := hborder.2.border hinner
  rw [hplace] at hoverlap
  exact ⟨by omega, hoverlap⟩

/-- The shorter one of two borders is a border of the longer one. -/
theorem Border.of_border (hborder : Border p j k) (hother : Border p j l)
    (hlt : l < k) : Border p k l := by
  have hk := hborder.1
  have hplace : j - k + (k - l) = j - l := by omega
  refine border_of_overlap hborder.2 hlt ?_
  rw [hplace]
  exact hother.2

/-- A border without its last place. -/
theorem Border.pred (hborder : Border p (j + 1) (k + 1)) : Border p j k := by
  have hlt := hborder.1
  have hplace : j + 1 - (k + 1) = j - k := by omega
  have hoverlap := hborder.2
  rw [hplace] at hoverlap
  exact ⟨by omega, hoverlap.mono (Nat.le_succ k)⟩

theorem Border.last (hborder : Border p (j + 1) (k + 1)) :
    p[k]? = p[j]? := by
  have hlt := hborder.1
  have hplace : j + 1 - (k + 1) + k = j := by omega
  have hlast := hborder.2 k (Nat.lt_succ_self k)
  rwa [hplace] at hlast

theorem Border.succ (hborder : Border p j k) (hnext : p[k]? = p[j]?) :
    Border p (j + 1) (k + 1) := by
  have hlt := hborder.1
  have hplace : j + 1 - (k + 1) = j - k := by omega
  have hlast : j - k + k = j := by omega
  refine ⟨by omega, ?_⟩
  rw [hplace]
  exact hborder.2.succ (by rw [hlast]; exact hnext)

/-! ### The failure function -/

/-- `v` is the entry for `j`: the longest proper border of the first `j`, and
-1 where there is none. -/
structure Failure (p : List V) (j : Nat) (v : Int) : Prop where
  lower : -1 ≤ v
  upper : v < j
  border : 0 ≤ v → Border p j v.toNat
  longest : ∀ l, Border p j l → (l : Int) ≤ v

/-- While the entry for `j + 1` is sought: `t` is a border of the first `j`
still to be tried, and longer ones cannot be extended. -/
structure Extends (p : List V) (j : Nat) (t : Int) : Prop where
  lower : -1 ≤ t
  upper : t < j
  border : 0 ≤ t → Border p j t.toNat
  longest : ∀ l, Border p (j + 1) (l + 1) → (l : Int) ≤ t

theorem failure_zero (p : List V) : Failure p 0 (-1) where
  lower := le_refl _
  upper := by decide
  border hv := by omega
  longest l hborder := absurd hborder.1 (Nat.not_lt_zero l)

theorem Failure.eq_neg_one (hfailure : Failure p 0 v) : v = -1 := by
  have hlower := hfailure.lower
  have hupper := hfailure.upper
  omega

/-- From the second entry on, the entries are lengths. -/
theorem Failure.isGreatest (hfailure : Failure p j v) (hj : 0 < j)
    (hlength : j ≤ p.length) :
    ∃ n : Nat, v = n ∧ IsGreatest {k | k < j ∧ p.take k <:+ p.take j} n := by
  have hv : 0 ≤ v := hfailure.longest 0 (border_zero p hj)
  obtain ⟨n, rfl⟩ := Int.eq_ofNat_of_zero_le hv
  refine ⟨n, rfl, (border_iff_suffix hlength).mp (hfailure.border hv), ?_⟩
  intro k hk
  have hle := hfailure.longest k ((border_iff_suffix hlength).mpr hk)
  omega

theorem Failure.extends (hfailure : Failure p j v) : Extends p j v where
  lower := hfailure.lower
  upper := hfailure.upper
  border := hfailure.border
  longest l hborder := hfailure.longest l hborder.pred

/-- The candidate can be extended, or there is none left. -/
theorem Extends.advance (hextends : Extends p j t)
    (hnext : t < 0 ∨ p[t.toNat]? = p[j]?) : Failure p (j + 1) (t + 1) := by
  have hlower := hextends.lower
  have hupper := hextends.upper
  refine ⟨by omega, by omega, fun _ => ?_, fun l hborder => ?_⟩
  · by_cases ht : t < 0
    · have hzero : (t + 1).toNat = 0 := by omega
      rw [hzero]
      exact border_zero p (Nat.succ_pos j)
    · have hsucc : (t + 1).toNat = t.toNat + 1 := by omega
      rw [hsucc]
      exact (hextends.border (by omega)).succ (hnext.resolve_left ht)
  · cases l with
    | zero => omega
    | succ l =>
        have hle := hextends.longest l hborder
        omega

/-- The candidate cannot be extended: the next one is its own entry. -/
theorem Extends.fallback (hextends : Extends p j t) (ht : 0 ≤ t)
    (hnext : p[t.toNat]? ≠ p[j]?) (hfailure : Failure p t.toNat v) :
    Extends p j v := by
  have hupper := hextends.upper
  have hvupper := hfailure.upper
  refine ⟨hfailure.lower, by omega, fun hv => ?_, fun l hborder => ?_⟩
  · exact (hextends.border ht).trans (hfailure.border hv)
  · have hle := hextends.longest l hborder
    have hne : l ≠ t.toNat := by
      rintro rfl
      exact hnext hborder.last
    refine hfailure.longest l ?_
    exact (hextends.border ht).of_border hborder.pred (by omega)

/-! ### The search -/

/-- From place `r` on, the first `m` of `p` and the first `n` of `s` agree as
far as both go. -/
def Fits (p s : List V) (m n r : Nat) : Prop :=
  ∀ x, x < m → r + x < n → p[x]? = s[r + x]?

/-- A search that started at place 1 has reached place `i` of the text and `j`
of the pattern, which then stands at `i - j`: it fits so far, and nowhere
before. -/
structure Scan (p s : List V) (m n i : Nat) (j : Int) : Prop where
  lower : -1 ≤ j
  upper : j < i
  pattern : j ≤ m
  text : i ≤ n
  overlap : 0 ≤ j → Overlap p s (i - j).toNat j.toNat
  earlier : ∀ r : Nat, 1 ≤ r → r < i - j → ¬ Fits p s m n r

variable {m n i : Nat}

theorem scan_start (p s : List V) (m n : Nat) : Scan p s m n 0 (-1) where
  lower := le_refl _
  upper := by decide
  pattern := by omega
  text := Nat.zero_le n
  overlap hj := by omega
  earlier r hr hlt := by omega

theorem Scan.advance (hscan : Scan p s m n i t) (hi : i < n) (ht : t < m)
    (hnext : t < 0 ∨ p[t.toNat]? = s[i]?) :
    Scan p s m n (i + 1) (t + 1) := by
  have hlower := hscan.lower
  have hupper := hscan.upper
  refine ⟨by omega, by omega, by omega, hi, fun _ => ?_, fun r hr hlt => ?_⟩
  · have hplace : ((i + 1 : Nat) - (t + 1)).toNat = (i - t).toNat := by omega
    rw [hplace]
    by_cases hneg : t < 0
    · have hzero : (t + 1).toNat = 0 := by omega
      rw [hzero]
      exact overlap_zero p s _
    · have hsucc : (t + 1).toNat = t.toNat + 1 := by omega
      have hend : (i - t).toNat + t.toNat = i := by omega
      rw [hsucc]
      refine (hscan.overlap (by omega)).succ ?_
      rw [hend]
      exact hnext.resolve_left hneg
  · exact hscan.earlier r hr (by omega)

/-- At a mismatch the pattern moves on by its failure function. -/
theorem Scan.fallback (hscan : Scan p s m n i t) (hi : i < n) (htm : t < m)
    (ht : 0 ≤ t) (hnext : p[t.toNat]? ≠ s[i]?)
    (hfailure : Failure p t.toNat v) : Scan p s m n i v := by
  have hupper := hscan.upper
  have hvlower := hfailure.lower
  have hvupper := hfailure.upper
  have hoverlap := hscan.overlap ht
  refine ⟨hfailure.lower, by omega, by omega, hscan.text, fun hv => ?_,
    fun r hr hlt hfits => ?_⟩
  · have hplace : (i - v).toNat = (i - t).toNat + (t.toNat - v.toNat) := by
      omega
    rw [hplace]
    exact hoverlap.border (hfailure.border hv)
  · by_cases hearlier : (r : Int) < i - t
    · exact hscan.earlier r hr hearlier hfits
    by_cases hsame : (r : Int) = i - t
    · -- At the old place the mismatch itself speaks against it.
      have hend : r + t.toNat = i := by omega
      have hagree := hfits t.toNat (by omega) (by omega)
      rw [hend] at hagree
      exact hnext hagree
    · -- In between, a fit would make a border longer than the failure
      -- function allows.
      have hplace : (i - t).toNat + (t.toNat - (i - r)) = r := by omega
      have hborder : Border p t.toNat (i - r) := by
        refine border_of_overlap hoverlap (by omega) ?_
        rw [hplace]
        exact fun x hx => hfits x (by omega) (by omega)
      have hle := hfailure.longest _ hborder
      omega

/-- A search that has come to the end of one of the two stands at the first
place from 1 on where they agree. -/
theorem Scan.isLeast (hscan : Scan p s m n i t)
    (hend : n ≤ i ∨ m ≤ t.toNat) :
    IsLeast {r : Nat | 1 ≤ r ∧ Fits p s m n r} (i - t).toNat := by
  have hupper := hscan.upper
  have hpattern := hscan.pattern
  refine ⟨⟨by omega, fun x hx hlt => ?_⟩, ?_⟩
  · have htext := hscan.text
    exact hscan.overlap (by omega) x (by omega)
  · rintro r ⟨hr, hfits⟩
    by_contra hlt
    exact hscan.earlier r hr (by omega) hfits

end LinuxTest
