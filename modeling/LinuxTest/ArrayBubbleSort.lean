/-
Bubble sort of a part of an array between two `int` indices, both inclusive.
The element exchanged goes through an `int`, so the elements are `int`s.
-/
import Mathlib.Data.List.Sort
import LinuxTest.BubblePass
import LinuxTest.CellArray
import LinuxTest.MachineInt

namespace LinuxTest

namespace Sta

/-- The body of the `if`, and the place of the last exchange. -/
def exchange (vec : Cells Int) (i j last : Nat) : Option (Cells Int × Nat) := do
  let x ← vec.read i
  let temp ← vec.read j
  if x > temp then
    let vec ← vec.write j x
    let vec ← vec.write i temp
    return (vec, j)
  else
    return (vec, last)

/-- `while(j <= high)` with so many rounds left. -/
def bubbleLoop : Nat → Cells Int → Nat → Nat → Nat → Option (Cells Int × Nat)
  | 0, vec, _, _, last => some (vec, last)
  | rounds + 1, vec, i, j, last => do
      let (vec, last) ← exchange vec i j last
      let i ← incr i
      let j ← incr j
      bubbleLoop rounds vec i j last

/-- `while(low < high)`; the fuel need only be greater than `high - low`. -/
def bubblePasses : Nat → Cells Int → Nat → Nat → Option (Cells Int)
  | 0, _, _, _ => none
  | fuel + 1, vec, low, high =>
      if low < high then do
        let j ← incr low
        let (vec, last) ← bubbleLoop (high + 1 - j) vec low j low
        bubblePasses fuel vec low last
      else
        some vec

def bubbleSort (fuel : Nat) (vec : Cells Int) (lo hi : Nat) :
    Option (Cells Int) := do
  let _ ← incr lo
  bubblePasses fuel vec lo hi

/-! ### The indices -/

variable {vec front back : Cells Int} {i j lo hi last fuel : Nat}

/-- A loop that ends has counted `j` past its last round. -/
theorem bubbleLoop_counts {rounds : Nat} {result : Cells Int × Nat}
    (h : bubbleLoop (rounds + 1) vec i j last = some result) :
    j + rounds + 1 < 2 ^ 31 := by
  induction rounds generalizing vec i j last with
  | zero =>
      rw [bubbleLoop] at h
      simp only [Option.bind_eq_bind, Option.bind_eq_some_iff] at h
      obtain ⟨_, _, _, _, next, hj, _⟩ := h
      exact (incr_eq_some hj).2
  | succ rounds ih =>
      rw [bubbleLoop] at h
      simp only [Option.bind_eq_bind, Option.bind_eq_some_iff] at h
      obtain ⟨_, _, _, _, next, hj, hrest⟩ := h
      have hcount := ih hrest
      rw [(incr_eq_some hj).1] at hcount
      omega

theorem bubbleSort_counts {result : Cells Int} (hlohi : lo ≤ hi)
    (h : bubbleSort fuel vec lo hi = some result) : hi + 1 < 2 ^ 31 := by
  rw [bubbleSort] at h
  simp only [Option.bind_eq_bind, Option.bind_eq_some_iff] at h
  obtain ⟨_, hlo, hpasses⟩ := h
  cases fuel with
  | zero => cases hpasses
  | succ fuel =>
      by_cases hlt : lo < hi
      · rw [bubblePasses, if_pos hlt] at hpasses
        simp only [Option.bind_eq_bind, Option.bind_eq_some_iff] at hpasses
        obtain ⟨j, hj, passed, hloop, _⟩ := hpasses
        obtain ⟨rounds, hrounds⟩ : ∃ rounds, hi + 1 - j = rounds + 1 :=
          ⟨hi - j, by have := (incr_eq_some hj).1; omega⟩
        rw [hrounds] at hloop
        have hcount := bubbleLoop_counts hloop
        omega
      · have heq : lo = hi := by omega
        exact heq ▸ (incr_eq_some hlo).2

/-! ### The passes -/

theorem exchange_append {x y : Int} (hi : front.length = i) (hj : i + 1 = j)
    (last : Nat) :
    exchange (front ++ some x :: some y :: back) i j last =
      if y < x then some (front ++ some y :: some x :: back, j)
      else some (front ++ some x :: some y :: back, last) := by
  have hshape (cell : Option Int) (z : Int) :
      front ++ cell :: some z :: back =
        (front ++ [cell]) ++ some z :: back := by
    simp
  have hlength : (front ++ [some x]).length = j := by simp [hi, hj]
  have hx : Cells.read (front ++ some x :: some y :: back) i = some x :=
    Cells.read_append hi
  have hy : Cells.read (front ++ some x :: some y :: back) j = some y := by
    rw [hshape]
    exact Cells.read_append hlength
  have hwrite : Cells.write (front ++ some x :: some y :: back) j x =
      some (front ++ some x :: some x :: back) := by
    rw [hshape, Cells.write_append hlength, hshape]
  rw [exchange, hx, hy]
  by_cases hlt : y < x
  · rw [if_pos hlt]
    simp only [Option.bind_eq_bind, Option.bind_some, gt_iff_lt, if_pos hlt,
      hwrite, Cells.write_append hi]
    rfl
  · rw [if_neg hlt]
    simp only [Option.bind_eq_bind, Option.bind_some, gt_iff_lt, if_neg hlt]
    rfl

theorem bubbleLoop_append {x : Int} {rest : List Int}
    (hi : front.length = i) (hj : i + 1 = j)
    (hfits : j + rest.length < 2 ^ 31) :
    bubbleLoop rest.length (front ++ (x :: rest).map some ++ back) i j last =
      some (front ++ (bubblePass x rest j last).1.map some ++ back,
        (bubblePass x rest j last).2) := by
  induction rest generalizing front x i j last with
  | nil => rfl
  | cons y rest ih =>
      rw [List.length_cons] at hfits
      have hshape : front ++ (x :: y :: rest).map some ++ back =
          front ++ some x :: some y :: (rest.map some ++ back) := by simp
      have hincri : incr i = some (i + 1) := incr_of_lt (by omega)
      have hincrj : incr j = some (j + 1) := incr_of_lt (by omega)
      rw [hshape, List.length_cons, bubbleLoop, exchange_append hi hj]
      by_cases hlt : y < x
      · have hnext := @ih (front ++ [some y]) (i + 1) (j + 1) j x
          (by simp [hi]) (by omega) (by omega)
        rw [if_pos hlt, bubblePass_cons_lt hlt]
        simp only [Option.bind_eq_bind, Option.bind_some, hincri, hincrj]
        simpa using hnext
      · have hnext := @ih (front ++ [some x]) (i + 1) (j + 1) last y
          (by simp [hi]) (by omega) (by omega)
        rw [if_neg hlt, bubblePass_cons_ge hlt]
        simp only [Option.bind_eq_bind, Option.bind_some, hincri, hincrj]
        simpa using hnext

/-- One pass over a part of at least two elements. -/
theorem bubblePasses_pass {x : Int} {rest : List Int} (hlo : front.length = lo)
    (hne : rest ≠ []) (hfits : lo + rest.length + 1 < 2 ^ 31) :
    bubblePasses (fuel + 1) (front ++ (x :: rest).map some ++ back) lo
        (lo + rest.length) =
      bubblePasses fuel
        (front ++ (bubblePass x rest (lo + 1) lo).1.map some ++ back) lo
        (bubblePass x rest (lo + 1) lo).2 := by
  have hpos := List.length_pos_of_ne_nil hne
  have hrounds : lo + rest.length + 1 - (lo + 1) = rest.length := by omega
  have hloop := @bubbleLoop_append front back lo (lo + 1) lo x rest hlo rfl
    (by omega)
  have hincr : incr lo = some (lo + 1) := incr_of_lt (by omega)
  rw [bubblePasses, if_pos (by omega), hincr]
  simp only [Option.bind_eq_bind, Option.bind_some, hrounds, hloop]

/-- Once the greatest element is at the upper end, every pass ends below it. -/
theorem bubblePasses_append {xs zs : List Int} {m : Int}
    (hlo : front.length = lo) (hfuel : xs.length < fuel)
    (hfits : lo + xs.length + 1 < 2 ^ 31) (hle : ∀ a ∈ xs, a ≤ m)
    (hzs : (m :: zs).Pairwise (· ≤ ·)) :
    ∃ ys : List Int, ys.Pairwise (· ≤ ·) ∧ ys.Perm (xs ++ m :: zs) ∧
      bubblePasses fuel (front ++ (xs ++ m :: zs).map some ++ back) lo
        (lo + xs.length) = some (front ++ ys.map some ++ back) := by
  induction fuel generalizing xs m zs with
  | zero => omega
  | succ fuel ih =>
      cases xs with
      | nil =>
          refine ⟨m :: zs, hzs, List.Perm.refl _, ?_⟩
          exact if_neg (Nat.lt_irrefl lo)
      | cons x rest =>
          rw [List.length_cons] at hfuel hfits ⊢
          have hpass := @bubblePasses_pass front (zs.map some ++ back) lo fuel x
            (rest ++ [m]) hlo (by simp) (by simp; omega)
          have hbelow : ∀ a ∈ x :: rest, ∀ b ∈ m :: zs, a ≤ b := by
            intro a ha b hb
            rcases List.mem_cons.mp hb with rfl | hmem
            · exact hle a ha
            · exact le_trans (hle a ha) (List.rel_of_pairwise_cons hzs hmem)
          obtain ⟨below, greatest, above, hshape, hlast, hbound, hgreatest,
            habove⟩ := bubblePass_split lo hzs hbelow
          have hperm := (bubblePass_perm x rest (lo + 1) lo).append_right
            (m :: zs)
          rw [bubblePass_concat hle, List.length_append,
            List.length_singleton, hlast] at hpass
          rw [hshape] at hperm
          obtain ⟨ys, hys, hysPerm, hresult⟩ := ih (by omega) (by omega)
            hgreatest habove
          refine ⟨ys, hys, hysPerm.trans hperm, ?_⟩
          rw [← hresult, ← hshape]
          simpa using hpass

/-- The first pass leaves the greatest element at its upper end. -/
theorem bubblePasses_sorts {x : Int} {rest : List Int}
    (hlo : front.length = lo) (hfuel : rest.length + 1 < fuel)
    (hfits : lo + rest.length + 1 < 2 ^ 31) :
    ∃ ys : List Int, ys.Pairwise (· ≤ ·) ∧ ys.Perm (x :: rest) ∧
      bubblePasses fuel (front ++ (x :: rest).map some ++ back) lo
        (lo + rest.length) = some (front ++ ys.map some ++ back) := by
  obtain ⟨fuel, rfl⟩ : ∃ n, fuel = n + 1 := ⟨fuel - 1, by omega⟩
  by_cases hne : rest = []
  · subst hne
    refine ⟨[x], List.pairwise_singleton _ x, List.Perm.refl _, ?_⟩
    exact if_neg (Nat.lt_irrefl lo)
  · have hpass := @bubblePasses_pass front back lo fuel x rest hlo hne hfits
    obtain ⟨below, greatest, above, hshape, hlast, hbound, hgreatest, habove⟩ :=
      @bubblePass_split _ _ x rest [] lo List.Pairwise.nil
        fun _ _ b hb => absurd hb List.not_mem_nil
    have hperm := bubblePass_perm x rest (lo + 1) lo
    rw [List.append_nil] at hshape
    rw [hlast, hshape] at hpass
    rw [hshape] at hperm
    obtain ⟨ys, hys, hysPerm, hresult⟩ :=
      @bubblePasses_append front back lo fuel below above greatest hlo
        (by omega) (by omega) hgreatest habove
    exact ⟨ys, hys, hysPerm.trans hperm, hpass.trans hresult⟩

/-- The part between the two indices is sorted, and the rest is as it was. -/
def SortsPart {T : Type} [LinearOrder T]
    (sort : Nat → Cells T → Nat → Nat → Option (Cells T)) (items : List T)
    (lo hi : Nat) : Prop :=
  ∃ ys : List T, ys.Pairwise (· ≤ ·) ∧
    ys.Perm ((items.drop lo).take (hi + 1 - lo)) ∧
    ∃ enough, ∀ fuel, enough ≤ fuel → sort fuel (items.map some) lo hi =
      some ((items.take lo ++ ys ++ items.drop (hi + 1)).map some)

/-- A sort that sorts with enough fuel gives one result. -/
theorem sortsPart_of_fuel {T : Type} [LinearOrder T]
    {sort : Nat → Cells T → Nat → Nat → Option (Cells T)} {items : List T}
    (enough : Nat) (hsorts : ∀ fuel, enough ≤ fuel →
      ∃ ys : List T, ys.Pairwise (· ≤ ·) ∧
        ys.Perm ((items.drop lo).take (hi + 1 - lo)) ∧
        sort fuel (items.map some) lo hi =
          some ((items.take lo ++ ys ++ items.drop (hi + 1)).map some)) :
    SortsPart sort items lo hi := by
  obtain ⟨ys, hys, hperm, _⟩ := hsorts enough (Nat.le_refl _)
  refine ⟨ys, hys, hperm, enough, fun fuel hfuel => ?_⟩
  obtain ⟨zs, hzs, hzsPerm, hresult⟩ := hsorts fuel hfuel
  rwa [(hzsPerm.trans hperm.symm).eq_of_pairwise' hzs hys] at hresult

/-- The array in front of the part, its elements, and the array behind it. -/
theorem part_split {T : Type} {items : List T} {lo hi : Nat} (hlohi : lo ≤ hi)
    (hhi : hi < items.length) :
    ∃ x rest, (items.drop lo).take (hi + 1 - lo) = x :: rest ∧
      lo + rest.length = hi ∧ (items.take lo).length = lo ∧
      items = items.take lo ++ x :: rest ++ items.drop (hi + 1) := by
  have hlength : ((items.drop lo).take (hi + 1 - lo)).length = hi + 1 - lo := by
    rw [List.length_take, List.length_drop]
    omega
  have hbehind : items.drop (hi + 1) =
      (items.drop lo).drop (hi + 1 - lo) := by
    rw [List.drop_drop]
    congr 1
    omega
  obtain ⟨x, rest, hpart⟩ := List.exists_cons_of_length_pos
    (l := (items.drop lo).take (hi + 1 - lo)) (by omega)
  refine ⟨x, rest, hpart, ?_, ?_, ?_⟩
  · rw [hpart, List.length_cons] at hlength
    omega
  · rw [List.length_take]
    omega
  · rw [← hpart, hbehind, List.append_assoc, List.take_append_drop,
      List.take_append_drop]

/-- Bubble sort sorts exactly the parts whose last index is not the last
`int`. -/
theorem bubbleSort_sorts_iff {items : List Int} (hlohi : lo ≤ hi)
    (hhi : hi < items.length) :
    SortsPart bubbleSort items lo hi ↔ hi + 1 < 2 ^ 31 := by
  constructor
  · rintro ⟨_, _, _, enough, henough⟩
    exact bubbleSort_counts hlohi (henough enough (Nat.le_refl _))
  · intro hfits
    obtain ⟨x, rest, hpart, hend, hfront, hitems⟩ := part_split hlohi hhi
    refine sortsPart_of_fuel (rest.length + 2) fun fuel hfuel => ?_
    obtain ⟨ys, hys, hperm, hresult⟩ :=
      @bubblePasses_sorts ((items.take lo).map some)
        ((items.drop (hi + 1)).map some) lo fuel x rest
        ((List.length_map _).trans hfront) hfuel (by omega)
    have hincr : incr lo = some (lo + 1) := incr_of_lt (by omega)
    rw [← List.map_append, ← List.map_append, ← hitems, hend,
      ← List.map_append, ← List.map_append] at hresult
    refine ⟨ys, hys, hpart ▸ hperm, ?_⟩
    rw [bubbleSort, hincr, Option.bind_eq_bind, Option.bind_some, hresult]

theorem bubbleSort_sorts_three :
    SortsPart bubbleSort [(3 : Int), 1, 2] 0 2 ↔ 2 + 1 < 2 ^ 31 :=
  bubbleSort_sorts_iff (by decide) (by decide)

/-- Past the last place an `int` can name, the second index overflows. -/
theorem bubbleSort_index_overflows :
    ¬∀ (items : List Int) (lo hi : Nat), lo ≤ hi → hi < items.length →
      hi < 2 ^ 31 → SortsPart bubbleSort items lo hi := by
  intro hclaim
  have hlength : 2 ^ 31 - 1 < (List.replicate (2 ^ 31) (0 : Int)).length := by
    rw [List.length_replicate]
    omega
  obtain ⟨_, _, _, enough, henough⟩ := hclaim _ 0 (2 ^ 31 - 1)
    (Nat.zero_le _) hlength (by omega)
  have hcount := bubbleSort_counts (Nat.zero_le _)
    (henough enough (Nat.le_refl _))
  omega

end Sta

end LinuxTest
