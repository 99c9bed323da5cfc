/-
The two searches of `m_vector` in a sorted range: one halves the range, the
other divides it at Fibonacci numbers.  Both use the iterators only.
-/
import Mathlib.Data.Nat.Fib.Basic
import LinuxTest.CellArray
import LinuxTest.MachineInt
import LinuxTest.SortedSearch

namespace LinuxTest

namespace Mst

variable {T : Type} [LinearOrder T]

/-! ### Binary search -/

/-- The loop of `search`; `hi` is what it returns in the end. -/
def searchLoop (vec : Cells T) (e : T) (hi start stop : Nat) : Option Nat :=
  if start < stop then do
    let mid := start + (stop - start) / 2
    let x ← vec.read mid
    if x < e then
      searchLoop vec e hi (mid + 1) stop
    else if e < x then
      searchLoop vec e hi start mid
    else
      some mid
  else
    some hi
termination_by stop - start
decreasing_by
  · omega
  · omega

def search (vec : Cells T) (e : T) (lo hi : Nat) : Option Nat :=
  searchLoop vec e hi lo hi

/-! ### Fibonacci search -/

/-- Two neighbours of the Fibonacci sequence as `int`s. -/
structure Fib where
  f : Int
  g : Int

/-- The sum has to be an `int`. -/
def Fib.next (fib : Fib) : Option Fib :=
  let g := fib.g + fib.f
  if g < 2 ^ 31 then
    some ⟨g - fib.f, g⟩
  else
    none

def Fib.prev (fib : Fib) : Fib :=
  let f := fib.g - fib.f
  ⟨f, fib.g - f⟩

/-- `while(g < n) next();` -/
def Fib.atLeast (n : Int) : Nat → Fib → Option Fib
  | 0, _ => none
  | fuel + 1, fib =>
      if fib.g < n then do
        let fib ← fib.next
        atLeast n fuel fib
      else
        some fib

/-- The constructor. -/
def Fib.make (fuel : Nat) (n : Int) : Option Fib :=
  atLeast n fuel ⟨1, 0⟩

/-- `while(hi - lo < fib.get()) fib.prev();` -/
def Fib.atMost (n : Int) : Nat → Fib → Option Fib
  | 0, _ => none
  | fuel + 1, fib =>
      if n < fib.g then
        atMost n fuel fib.prev
      else
        some fib

/-- Nothing is read before the first cell. -/
def readAt (vec : Cells T) (p : Int) : Option T :=
  if 0 ≤ p then vec.read p.toNat else none

def fibLoop (vec : Cells T) (e : T) (last : Nat) :
    Nat → Fib → Nat → Nat → Option Nat
  | 0, _, _, _ => none
  | fuel + 1, fib, lo, hi =>
      if lo < hi then do
        let fib ← Fib.atMost (hi - lo) fuel fib
        let mid := lo + fib.g - 1
        let x ← readAt vec mid
        if x < e then
          fibLoop vec e last fuel fib (mid + 1).toNat hi
        else if e < x then
          fibLoop vec e last fuel fib lo mid.toNat
        else
          some mid.toNat
      else
        some last

/-- The length of the range becomes an `int` where `fib` is made. -/
def fibsearch (fuel : Nat) (vec : Cells T) (e : T) (lo hi : Nat) :
    Option Nat := do
  let fib ← Fib.make fuel (asInt (hi - lo))
  fibLoop vec e hi fuel fib lo hi

/-! ### Both find -/

variable {vec : Cells T} {e : T} {list : List T} {lo a b : Nat}

theorem searchLoop_finds (hvec : vec.Segment lo list)
    (hsorted : list.Pairwise (· ≤ ·)) (h : Window list e a b) :
    ∃ place, searchLoop vec e (lo + list.length) (lo + a) (lo + b) =
      some (lo + place) ∧ Finds list e place := by
  induction hn : b - a using Nat.strong_induction_on generalizing a b with
  | _ n ih =>
      subst hn
      rw [searchLoop]
      by_cases hlt : a < b
      · have hinside := h.inside
        have hmid : lo + a + (lo + b - (lo + a)) / 2 =
            lo + (a + (b - a) / 2) := by omega
        have hin : a + (b - a) / 2 < list.length := by omega
        rw [if_pos (by omega)]
        dsimp only
        rw [hmid, hvec.read hin, Option.bind_eq_bind, Option.bind_some]
        generalize hprobe : a + (b - a) / 2 = mid at *
        by_cases hless : list[mid] < e
        · rw [if_pos hless]
          exact ih (b - (mid + 1)) (by omega)
            (h.above hsorted (by omega) hin hless) rfl
        · rw [if_neg hless]
          by_cases hgreater : e < list[mid]
          · rw [if_pos hgreater]
            exact ih (mid - a) (by omega)
              (h.below hsorted (by omega) hin hgreater) rfl
          · rw [if_neg hgreater]
            exact ⟨mid, rfl, finds_at hin hless hgreater⟩
      · rw [if_neg (by omega)]
        exact ⟨list.length, rfl, h.absent (Nat.le_of_not_lt hlt)⟩

/-- The pair stands at the k-th place of the sequence. -/
def Fib.At (fib : Fib) (k : Nat) : Prop :=
  fib.f = Nat.fib k ∧ fib.g = Nat.fib (k + 1)

variable {fib : Fib} {k fuel n : Nat}

theorem Fib.At.pos (h : fib.At k) : 0 < fib.g := by
  rw [h.2]
  exact_mod_cast Nat.fib_pos.mpr (Nat.succ_pos k)

theorem fib_last : Nat.fib 46 = 1836311903 := by
  rw [Nat.fib_eq_fastFib]
  decide +kernel

theorem Fib.At.next (h : fib.At k) (hk : k < 45) :
    ∃ after, fib.next = some after ∧ after.At (k + 1) := by
  have hsum : fib.g + fib.f = Nat.fib (k + 2) := by
    rw [h.1, h.2, Nat.fib_add_two]
    push_cast
    ring
  have hle : Nat.fib (k + 2) ≤ Nat.fib 46 := Nat.fib_mono (by omega)
  have hlast := fib_last
  have hfits : (Nat.fib (k + 2) : Int) < 2 ^ 31 := by omega
  refine ⟨⟨Nat.fib (k + 1), Nat.fib (k + 2)⟩, ?_, rfl, rfl⟩
  rw [Fib.next, hsum, if_pos hfits, ← hsum, Int.add_sub_cancel, ← h.2]

theorem Fib.At.prev (h : fib.At (k + 1)) : fib.prev.At k := by
  have hf : fib.g - fib.f = Nat.fib k := by
    rw [h.1, h.2, Nat.fib_add_two]
    push_cast
    ring
  refine ⟨hf, ?_⟩
  rw [Fib.prev]
  dsimp only
  rw [hf, h.2, Nat.fib_add_two]
  push_cast
  ring

/-- Up to a term that is at least `n`, if the 46th is. -/
theorem Fib.atLeast_at {left : Nat} (h : fib.At k) (hk : k + left = 45)
    (hn : n ≤ Nat.fib 46) :
    ∃ after k', after.At k' ∧ k' ≤ 45 ∧
      ∀ fuel, left < fuel → Fib.atLeast n fuel fib = some after := by
  induction left generalizing fib k with
  | zero =>
      refine ⟨fib, k, h, by omega, fun fuel hfuel => ?_⟩
      have hge : ¬fib.g < n := by
        have heq : k = 45 := by omega
        rw [h.2, heq]
        change ¬(Nat.fib 46 : Int) < n
        omega
      cases fuel with
      | zero => omega
      | succ fuel => rw [Fib.atLeast, if_neg hge]
  | succ left ih =>
      by_cases hlt : fib.g < n
      · obtain ⟨next, hnext, hat⟩ := h.next (by omega)
        obtain ⟨after, k', hafter, hk', hfound⟩ := ih hat (by omega)
        refine ⟨after, k', hafter, hk', fun fuel hfuel => ?_⟩
        cases fuel with
        | zero => omega
        | succ fuel =>
            rw [Fib.atLeast, if_pos hlt, hnext]
            exact hfound fuel (by omega)
      · refine ⟨fib, k, h, by omega, fun fuel hfuel => ?_⟩
        cases fuel with
        | zero => omega
        | succ fuel => rw [Fib.atLeast, if_neg hlt]

/-- Down to a term that is at most `n`; it stays positive. -/
theorem Fib.atMost_at (h : fib.At k) (hn : 1 ≤ n) :
    ∃ (after : Fib) (k' : Nat), after.At k' ∧ k' ≤ k ∧ after.g ≤ n ∧
      ∀ fuel, k < fuel → Fib.atMost n fuel fib = some after := by
  induction k generalizing fib with
  | zero =>
      have hle : fib.g ≤ n := by
        rw [h.2, Nat.zero_add, Nat.fib_one]
        exact_mod_cast hn
      refine ⟨fib, 0, h, Nat.le_refl 0, hle, fun fuel hfuel => ?_⟩
      cases fuel with
      | zero => omega
      | succ fuel => rw [Fib.atMost, if_neg (not_lt.mpr hle)]
  | succ k ih =>
      by_cases hlt : (n : Int) < fib.g
      · obtain ⟨after, k', hat, hle, hsmall, hfound⟩ := ih h.prev
        refine ⟨after, k', hat, by omega, hsmall, fun fuel hfuel => ?_⟩
        cases fuel with
        | zero => omega
        | succ fuel =>
            rw [Fib.atMost, if_pos hlt]
            exact hfound fuel (by omega)
      · refine ⟨fib, k + 1, h, Nat.le_refl _, not_lt.mp hlt,
          fun fuel hfuel => ?_⟩
        cases fuel with
        | zero => omega
        | succ fuel => rw [Fib.atMost, if_neg hlt]

/-- In an empty range the first pair is kept. -/
theorem Fib.make_at (hn : n ≤ 1836311903) :
    ∃ fib k, (0 < n → fib.At k) ∧ k ≤ 45 ∧
      ∀ fuel, 46 < fuel → Fib.make fuel n = some fib := by
  cases n with
  | zero =>
      refine ⟨⟨1, 0⟩, 0, fun h => absurd h (Nat.lt_irrefl 0), Nat.zero_le _,
        fun fuel hfuel => ?_⟩
      cases fuel with
      | zero => omega
      | succ fuel => rfl
  | succ n =>
      have hfirst : Fib.At ⟨0, 1⟩ 0 := ⟨rfl, rfl⟩
      obtain ⟨after, k, hat, hk, hfound⟩ :=
        @Fib.atLeast_at _ _ (n + 1) 45 hfirst rfl (by rw [fib_last]; exact hn)
      refine ⟨after, k, fun _ => hat, hk, fun fuel hfuel => ?_⟩
      cases fuel with
      | zero => omega
      | succ fuel =>
          have hstart : (⟨1, 0⟩ : Fib).g < ((n + 1 : Nat) : Int) :=
            Int.natCast_pos.mpr (Nat.succ_pos n)
          rw [Fib.make, Fib.atLeast, if_pos hstart]
          exact hfound fuel (by omega)

theorem fibLoop_finds (hvec : vec.Segment lo list)
    (hsorted : list.Pairwise (· ≤ ·)) (h : Window list e a b)
    (hfib : a < b → fib.At k) (hk : k ≤ 45) :
    ∃ place, Finds list e place ∧ ∀ fuel, b - a + 46 < fuel →
      fibLoop vec e (lo + list.length) fuel fib (lo + a) (lo + b) =
        some (lo + place) := by
  induction hn : b - a using Nat.strong_induction_on
    generalizing a b fib k with
  | _ n ih =>
      subst hn
      by_cases hlt : a < b
      · obtain ⟨after, k', hat, hle, hsmall, hafter⟩ :=
          @Fib.atMost_at fib k (b - a) (hfib hlt) (by omega)
        have hinside := h.inside
        have hpos := hat.pos
        have hlength : ((lo + b : Nat) : Int) - ((lo + a : Nat) : Int) =
            ((b - a : Nat) : Int) := by omega
        obtain ⟨mid, hmid⟩ : ∃ mid : Nat,
            ((lo + a : Nat) : Int) + after.g - 1 = ((lo + mid : Nat) : Int) :=
          ⟨a + (after.g - 1).toNat, by omega⟩
        have hstart : a ≤ mid := by omega
        have hstop : mid < b := by omega
        have hin : mid < list.length := by omega
        have hread : readAt vec ((lo + mid : Nat) : Int) = some list[mid] := by
          rw [readAt, if_pos (Int.natCast_nonneg _), Int.toNat_natCast]
          exact hvec.read hin
        have hnext : (((lo + mid : Nat) : Int) + 1).toNat = lo + (mid + 1) := by
          omega
        -- One round, whatever fuel is left for those behind it.
        have hround (fuel : Nat) (hfuel : k < fuel) :
            fibLoop vec e (lo + list.length) (fuel + 1) fib (lo + a) (lo + b) =
              if list[mid] < e then
                fibLoop vec e (lo + list.length) fuel after (lo + (mid + 1))
                  (lo + b)
              else if e < list[mid] then
                fibLoop vec e (lo + list.length) fuel after (lo + a) (lo + mid)
              else some (lo + mid) := by
          rw [fibLoop, if_pos (by omega), hlength, hafter fuel hfuel,
            Option.bind_eq_bind, Option.bind_some, hmid]
          dsimp only
          rw [hread, Option.bind_eq_bind, Option.bind_some, hnext,
            Int.toNat_natCast]
        by_cases hless : list[mid] < e
        · obtain ⟨place, hfinds, hrest⟩ := ih (b - (mid + 1)) (by omega)
            (h.above hsorted hstop hin hless) (fun _ => hat) (by omega) rfl
          refine ⟨place, hfinds, fun fuel hfuel => ?_⟩
          cases fuel with
          | zero => omega
          | succ fuel =>
              rw [hround fuel (by omega), if_pos hless]
              exact hrest fuel (by omega)
        · by_cases hgreater : e < list[mid]
          · obtain ⟨place, hfinds, hrest⟩ := ih (mid - a) (by omega)
              (h.below hsorted hstart hin hgreater) (fun _ => hat)
              (by omega) rfl
            refine ⟨place, hfinds, fun fuel hfuel => ?_⟩
            cases fuel with
            | zero => omega
            | succ fuel =>
                rw [hround fuel (by omega), if_neg hless, if_pos hgreater]
                exact hrest fuel (by omega)
          · refine ⟨mid, finds_at hin hless hgreater, fun fuel hfuel => ?_⟩
            cases fuel with
            | zero => omega
            | succ fuel =>
                rw [hround fuel (by omega), if_neg hless, if_neg hgreater]
      · refine ⟨list.length, h.absent (Nat.le_of_not_lt hlt),
          fun fuel hfuel => ?_⟩
        cases fuel with
        | zero => omega
        | succ fuel => rw [fibLoop, if_neg (by omega)]

/-- In a sorted range of at most fib(46) elements both searches end, having
read no cell outside it, and return where the element stands or the end. -/
theorem searches_find (vec : Cells T) (e : T) (list : List T) (lo : Nat)
    (hvec : vec.Segment lo list) (hsorted : list.Pairwise (· ≤ ·))
    (hlength : list.length ≤ 1836311903) :
    (∃ place, Finds list e place ∧
      search vec e lo (lo + list.length) = some (lo + place)) ∧
    ∃ place, Finds list e place ∧ ∀ fuel, list.length + 46 < fuel →
      fibsearch fuel vec e lo (lo + list.length) = some (lo + place) := by
  have hwhole := Window.whole list e
  constructor
  · obtain ⟨place, hsearch, hfinds⟩ := searchLoop_finds hvec hsorted hwhole
    exact ⟨place, hfinds, hsearch⟩
  · obtain ⟨fib, k, hat, hk, hmake⟩ := Fib.make_at hlength
    obtain ⟨place, hfinds, hloop⟩ :=
      fibLoop_finds hvec hsorted hwhole hat hk
    refine ⟨place, hfinds, fun fuel hfuel => ?_⟩
    have hint : asInt (((lo + list.length : Nat) : Int) - (lo : Int)) =
        list.length := by
      rw [asInt_of_lt _ (by omega) (by omega)]
      omega
    rw [fibsearch, hint, hmake fuel (by omega)]
    exact hloop fuel (by omega)

theorem searches_find_three :
    (∃ place, Finds [(1 : Int), 2, 2] 2 place ∧
      search [none, some (1 : Int), some 2, some 2] 2 1 (1 + 3) =
        some (1 + place)) ∧
    ∃ place, Finds [(1 : Int), 2, 2] 2 place ∧ ∀ fuel, 3 + 46 < fuel →
      fibsearch fuel [none, some (1 : Int), some 2, some 2] 2 1 (1 + 3) =
        some (1 + place) :=
  searches_find [none, some (1 : Int), some 2, some 2] 2 [1, 2, 2] 1
    ⟨rfl, rfl, rfl, trivial⟩ (by decide) (by decide)

end Mst

end LinuxTest
