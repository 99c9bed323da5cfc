/-
Merge sort of a part of an array between two `int` indices, both inclusive.
The merge takes an element only where it is strictly less than the head of the
other side, so that it never ends on two equal elements.
-/
import Mathlib.Data.List.Nodup
import LinuxTest.ArrayBubbleSort

namespace LinuxTest

namespace Sta

variable {T : Type} [LinearOrder T]

/-- One `if` of the loop of `merge`: the next element of `v` is stored, where
`other` is at its end or its next element is greater. -/
def storeLess (v other : Cells T) (n p m q : Nat) (vec : Cells T)
    (index : Nat) : Option (Cells T × Nat × Nat) :=
  if p < n then do
    let x ← v.read p
    let less ← if m ≤ q then some true else
      (other.read q).map fun y => decide (y > x)
    if less then
      let vec ← vec.write index x
      let index ← incr index
      let p ← incr p
      return (vec, index, p)
    else
      return (vec, index, p)
  else
    some (vec, index, p)

def mergeLoop (v1 v2 : Cells T) (n1 n2 : Nat) :
    Nat → Cells T → Nat → Nat → Nat → Option (Cells T)
  | 0, _, _, _, _ => none
  | fuel + 1, vec, i, j, index =>
      if i < n1 ∨ j < n2 then do
        let (vec, index, j) ← storeLess v2 v1 n2 j n1 i vec index
        let (vec, index, i) ← storeLess v1 v2 n1 i n2 j vec index
        mergeLoop v1 v2 n1 n2 fuel vec i j index
      else
        some vec

def merge (fuel : Nat) (vec : Cells T) (low mid high : Nat) :
    Option (Cells T) := do
  let n1 := mid - low + 1
  let n2 := high - mid
  let v1 ← Cells.copy n1 vec low (Cells.allocate n1) 0
  let v2 ← Cells.copy n2 vec (mid + 1) (Cells.allocate n2) 0
  mergeLoop v1 v2 n1 n2 fuel vec 0 0 low

/-- The fuel bounds the depth of the calls, and the rounds of each merge. -/
def mergeSort : Nat → Cells T → Nat → Nat → Option (Cells T)
  | 0, _, _, _ => none
  | fuel + 1, vec, low, high =>
      if low = high then
        some vec
      else if low + high < 2 ^ 31 then do
        let mid := (low + high) / 2
        let vec ← mergeSort fuel vec low mid
        let vec ← mergeSort fuel vec (mid + 1) high
        merge fuel vec low mid high
      else
        none

/-! ### The merge of two lists -/

/-- What one `if` takes from a list, and what it leaves. -/
def takeLess : List T → List T → List T × List T
  | [], _ => ([], [])
  | x :: xs, [] => ([x], xs)
  | x :: xs, y :: _ => if x < y then ([x], xs) else ([], x :: xs)

def mergeLists : Nat → List T → List T → Option (List T)
  | 0, _, _ => none
  | fuel + 1, left, right =>
      if left = [] ∧ right = [] then
        some []
      else
        let (second, right) := takeLess right left
        let (first, left) := takeLess left right
        (mergeLists fuel left right).map fun out => second ++ first ++ out

def merged (left right : List T) : List T :=
  left.merge right fun x y => decide (x ≤ y)

variable {left right : List T} {x y : T}

theorem takeLess_append (xs other : List T) :
    (takeLess xs other).1 ++ (takeLess xs other).2 = xs := by
  cases xs with
  | nil => rfl
  | cons x xs =>
      cases other with
      | nil => rfl
      | cons y ys =>
          rw [takeLess]
          split <;> rfl

theorem takeLess_sublist (xs other : List T) :
    (takeLess xs other).2.Sublist xs := by
  have hsub := List.sublist_append_right (takeLess xs other).1
    (takeLess xs other).2
  rwa [takeLess_append] at hsub

/-- An element of both lists is never taken. -/
theorem mem_takeLess {xs ys : List T} (hy : ys.Pairwise (· ≤ ·))
    (hx : x ∈ xs) (hxy : x ∈ ys) : x ∈ (takeLess xs ys).2 := by
  cases xs with
  | nil => cases hx
  | cons a xs =>
      cases ys with
      | nil => cases hxy
      | cons b ys =>
          rw [takeLess]
          split
          · rename_i hlt
            have hle : b ≤ x := by
              rcases List.mem_cons.mp hxy with rfl | hmem
              · exact le_refl _
              · exact List.rel_of_pairwise_cons hy hmem
            rcases List.mem_cons.mp hx with rfl | hmem
            · exact absurd hle (not_le.mpr hlt)
            · exact hmem
          · exact hx

/-- A list with an element in common with the other is merged with it never. -/
theorem mergeLists_common (fuel : Nat) (hleft : left.Pairwise (· ≤ ·))
    (hright : right.Pairwise (· ≤ ·)) (hx : x ∈ left) (hxr : x ∈ right) :
    mergeLists fuel left right = none := by
  induction fuel generalizing left right with
  | zero => rfl
  | succ fuel ih =>
      have hmore : ¬(left = [] ∧ right = []) := by
        rintro ⟨rfl, _⟩
        cases hx
      have hright' := hright.sublist (takeLess_sublist right left)
      have hxr' := mem_takeLess hleft hxr hx
      rw [mergeLists, if_neg hmore]
      dsimp only
      rw [ih (hleft.sublist (takeLess_sublist _ _)) hright'
        (mem_takeLess hright' hx hxr') hxr']
      rfl

theorem takeLess_merged_right :
    (takeLess right left).1 ++ merged left (takeLess right left).2 =
      merged left right := by
  cases right with
  | nil => rfl
  | cons y right =>
      cases left with
      | nil =>
          rw [takeLess, merged, merged, List.nil_merge, List.nil_merge]
          rfl
      | cons x left =>
          rw [takeLess]
          by_cases hlt : y < x
          · have hle : ¬decide (x ≤ y) = true := by simpa using hlt
            rw [if_pos hlt, merged, merged,
              List.cons_merge_cons_neg _ _ _ hle]
            rfl
          · rw [if_neg hlt]
            rfl

theorem takeLess_merged_left :
    (takeLess left right).1 ++ merged (takeLess left right).2 right =
      merged left right := by
  cases left with
  | nil => rfl
  | cons x left =>
      cases right with
      | nil =>
          rw [takeLess, merged, merged, List.merge_right, List.merge_right]
          rfl
      | cons y right =>
          rw [takeLess]
          by_cases hlt : x < y
          · have hle : decide (x ≤ y) = true := decide_eq_true hlt.le
            rw [if_pos hlt, merged, merged,
              List.cons_merge_cons_pos _ _ _ hle]
            rfl
          · rw [if_neg hlt]
            rfl

/-- Where the heads differ, a round takes one of them at least. -/
theorem takeLess_progress (hdisjoint : left.Disjoint right)
    (hmore : ¬(left = [] ∧ right = [])) :
    (takeLess right left).1 ≠ [] ∨
      (takeLess left (takeLess right left).2).1 ≠ [] := by
  cases right with
  | nil =>
      cases left with
      | nil => exact absurd ⟨rfl, rfl⟩ hmore
      | cons x left => exact Or.inr (List.cons_ne_nil _ _)
  | cons y right =>
      cases left with
      | nil => exact Or.inl (List.cons_ne_nil _ _)
      | cons x left =>
          rcases lt_trichotomy y x with hlt | heq | hgt
          · rw [takeLess, if_pos hlt]
            exact Or.inl (List.cons_ne_nil _ _)
          · exact absurd List.mem_cons_self
              (heq ▸ hdisjoint List.mem_cons_self)
          · rw [takeLess, if_neg (lt_asymm hgt), takeLess, if_pos hgt]
            exact Or.inr (List.cons_ne_nil _ _)

theorem mergeLists_eq {fuel : Nat} {out : List T}
    (h : mergeLists fuel left right = some out) : out = merged left right := by
  induction fuel generalizing left right out with
  | zero => cases h
  | succ fuel ih =>
      rw [mergeLists] at h
      split at h
      · rename_i hend
        obtain ⟨rfl, rfl⟩ := hend
        rw [merged, List.nil_merge]
        exact (Option.some.inj h).symm
      · dsimp only at h
        obtain ⟨rest, hrest, rfl⟩ := Option.map_eq_some_iff.mp h
        rw [ih hrest, List.append_assoc, takeLess_merged_left,
          takeLess_merged_right]

theorem mergeLists_of_disjoint {fuel : Nat} (hdisjoint : left.Disjoint right)
    (hfuel : left.length + right.length < fuel) :
    mergeLists fuel left right = some (merged left right) := by
  obtain ⟨out, hout⟩ : ∃ out, mergeLists fuel left right = some out := by
    induction fuel generalizing left right with
    | zero => omega
    | succ fuel ih =>
        rw [mergeLists]
        by_cases hend : left = [] ∧ right = []
        · exact ⟨[], if_pos hend⟩
        · rw [if_neg hend]
          dsimp only
          have hprogress := takeLess_progress hdisjoint hend
          have hright := congrArg List.length (takeLess_append right left)
          have hleft := congrArg List.length
            (takeLess_append left (takeLess right left).2)
          rw [List.length_append] at hleft hright
          rw [← List.length_pos_iff, ← List.length_pos_iff] at hprogress
          have hsub : (takeLess left (takeLess right left).2).2.Disjoint
              (takeLess right left).2 := fun z hz hzr =>
            hdisjoint ((takeLess_sublist _ _).subset hz)
              ((takeLess_sublist _ _).subset hzr)
          obtain ⟨rest, hrest⟩ := ih hsub (by omega)
          rw [hrest]
          exact ⟨_, rfl⟩
  rw [hout, mergeLists_eq hout]

/-! ### The merge of two arrays -/

/-- From place `p` on, `n` places in all, the array holds these elements. -/
structure Remains (v : Cells T) (n p : Nat) (xs : List T) : Prop where
  segment : Cells.Segment v p xs
  count : p + xs.length = n

variable {v other v1 v2 vec front gap back : Cells T}
  {n n1 n2 m p q i j index : Nat} {xs ys : List T}

theorem Remains.taken (h : Remains v n p xs) (ys : List T) :
    Remains v n (p + (takeLess xs ys).1.length) (takeLess xs ys).2 := by
  obtain ⟨hsegment, hcount⟩ := h
  rw [← takeLess_append xs ys] at hsegment hcount
  rw [List.length_append] at hcount
  exact ⟨hsegment.append.2, by omega⟩

/-- The element of the `if` that is taken. -/
theorem storeLess_take {cell : Option T} (hx : Cells.read v p = some x)
    (hp : p < n) (hindex : front.length = index)
    (hless : m ≤ q ∨ ∃ y, q < m ∧ Cells.read other q = some y ∧ x < y)
    (hfits : index + 1 < 2 ^ 31) (hn : n < 2 ^ 31) :
    storeLess v other n p m q (front ++ cell :: back) index =
      some (front ++ some x :: back, index + 1, p + 1) := by
  have hincr : incr index = some (index + 1) := incr_of_lt hfits
  have hincrp : incr p = some (p + 1) := incr_of_lt (by omega)
  rw [storeLess, if_pos hp, hx]
  rcases hless with hend | ⟨y, hq, hy, hlt⟩
  · simp only [Option.bind_eq_bind, Option.bind_some, if_pos hend,
      Cells.write_append hindex, hincr, hincrp]
    rfl
  · simp only [Option.bind_eq_bind, Option.bind_some,
      if_neg (Nat.not_le.mpr hq), hy, Option.map_some, gt_iff_lt,
      decide_eq_true hlt, Cells.write_append hindex, hincr, hincrp]
    rfl

theorem storeLess_keep (hx : Cells.read v p = some x) (hq : q < m)
    (hy : Cells.read other q = some y) (hge : ¬x < y) :
    storeLess v other n p m q vec index = some (vec, index, p) := by
  rw [storeLess]
  split
  · rw [hx]
    simp only [Option.bind_eq_bind, Option.bind_some,
      if_neg (Nat.not_le.mpr hq), hy, Option.map_some, gt_iff_lt,
      decide_eq_false hge]
    rfl
  · rfl

theorem storeLess_eq (hxs : Remains v n p xs) (hys : Remains other m q ys)
    (hindex : front.length = index) (hgap : xs.length ≤ gap.length)
    (hfits : index + xs.length < 2 ^ 31) (hn : n < 2 ^ 31) :
    storeLess v other n p m q (front ++ gap ++ back) index =
      some (front ++ (takeLess xs ys).1.map some ++
          gap.drop (takeLess xs ys).1.length ++ back,
        index + (takeLess xs ys).1.length, p + (takeLess xs ys).1.length) := by
  have hcount := hxs.count
  cases xs with
  | nil =>
      have hend : ¬p < n := Nat.not_lt.mpr (Nat.le_of_eq hcount.symm)
      rw [storeLess, if_neg hend]
      simp [takeLess]
  | cons x xs =>
      rw [List.length_cons] at hcount hgap hfits
      cases gap with
      | nil => cases hgap
      | cons cell gap =>
          have hx : Cells.read v p = some x := hxs.segment.1
          have htake (hless : m ≤ q ∨
              ∃ y, q < m ∧ Cells.read other q = some y ∧ x < y) :
              storeLess v other n p m q (front ++ cell :: gap ++ back) index =
                some (front ++ [x].map some ++ gap ++ back, index + 1,
                  p + 1) := by
            rw [List.append_assoc, List.cons_append,
              storeLess_take hx (by omega) hindex hless (by omega) hn]
            simp
          cases ys with
          | nil => exact htake (Or.inl (Nat.le_of_eq hys.count.symm))
          | cons y ys =>
              have hq : q < m := by
                have hm := hys.count
                rw [List.length_cons] at hm
                omega
              have hy : Cells.read other q = some y := hys.segment.1
              rw [takeLess]
              by_cases hlt : x < y
              · rw [if_pos hlt]
                exact htake (Or.inr ⟨y, hq, hy, hlt⟩)
              · rw [if_neg hlt, storeLess_keep hx hq hy hlt]
                simp

theorem mergeLoop_eq (fuel : Nat) (hleft : Remains v1 n1 i left)
    (hright : Remains v2 n2 j right) (hindex : front.length = index)
    (hgap : gap.length = left.length + right.length)
    (hfits : index + (left.length + right.length) < 2 ^ 31)
    (hn1 : n1 < 2 ^ 31) (hn2 : n2 < 2 ^ 31) :
    mergeLoop v1 v2 n1 n2 fuel (front ++ gap ++ back) i j index =
      (mergeLists fuel left right).map fun out =>
        front ++ out.map some ++ back := by
  induction fuel generalizing front gap left right i j index with
  | zero => rfl
  | succ fuel ih =>
      have hmore : (i < n1 ∨ j < n2) ↔ ¬(left = [] ∧ right = []) := by
        have hi := hleft.count
        have hj := hright.count
        rw [← List.length_eq_zero_iff, ← List.length_eq_zero_iff]
        omega
      rw [mergeLoop, mergeLists]
      by_cases hend : left = [] ∧ right = []
      · rw [if_neg (mt hmore.mp (not_not.mpr hend)), if_pos hend]
        rw [hend.1, hend.2, List.length_nil] at hgap
        rw [List.length_eq_zero_iff.mp hgap]
        rfl
      · have hsecond := @storeLess_eq T _ v2 v1 front gap back n2 n1 j i index
          right left hright hleft hindex (by omega) (by omega) hn2
        have hright' := hright.taken left
        have hlength := congrArg List.length (takeLess_append right left)
        rw [if_pos (hmore.mpr hend), if_neg hend, hsecond]
        dsimp only [Option.bind_eq_bind, Option.bind_some]
        generalize takeLess right left = taken at *
        obtain ⟨second, right'⟩ := taken
        dsimp only at hright' hlength ⊢
        rw [List.length_append] at hlength
        have hfirst := @storeLess_eq T _ v1 v2 (front ++ second.map some)
          (gap.drop second.length) back n1 n2 i (j + second.length)
          (index + second.length) left right' hleft hright'
          (by simp [hindex]) (by rw [List.length_drop]; omega) (by omega) hn1
        have hleft' := hleft.taken right'
        have hlength' := congrArg List.length (takeLess_append left right')
        rw [hfirst]
        dsimp only [Option.bind_some]
        generalize takeLess left right' = taken at *
        obtain ⟨first, left'⟩ := taken
        dsimp only at hleft' hlength' ⊢
        rw [List.length_append] at hlength'
        rw [List.drop_drop]
        rw [ih hleft' hright' (by simp [hindex]; omega)
          (by rw [List.length_drop]; omega) (by omega)]
        rw [Option.map_map]
        congr 1
        funext out
        simp

variable {low mid high fuel : Nat}

theorem merge_eq (fuel : Nat) (hlow : front.length = low) (hle : low ≤ mid)
    (hmid : low + left.length = mid + 1) (hhigh : mid + right.length = high)
    (hfits : high + 1 < 2 ^ 31) :
    merge fuel (front ++ (left ++ right).map some ++ back) low mid high =
      (mergeLists fuel left right).map fun out =>
        front ++ out.map some ++ back := by
  have hboth := @Cells.segment_append _ front back (left ++ right) low hlow
  obtain ⟨hleft, hright⟩ := hboth.append
  rw [hmid] at hright
  have hn1 : mid - low + 1 = left.length := by omega
  have hn2 : high - mid = right.length := by omega
  have hfirst := @Cells.copy_segment _ _ [] (Cells.allocate left.length) [] left
    low 0 hleft rfl List.length_replicate
  have hsecond := @Cells.copy_segment _ _ [] (Cells.allocate right.length) []
    right (mid + 1) 0 hright rfl List.length_replicate
  simp only [List.nil_append, List.append_nil] at hfirst hsecond
  have hremains (xs : List T) : Remains (xs.map some) xs.length 0 xs :=
    ⟨by simpa using @Cells.segment_append _ [] [] xs 0 rfl, Nat.zero_add _⟩
  rw [merge, hn1, hn2]
  simp only [Option.bind_eq_bind, hfirst, hsecond, Option.bind_some]
  exact mergeLoop_eq fuel (hremains left) (hremains right) hlow
    (by rw [List.length_map, List.length_append]) (by omega) (by omega)
    (by omega)

/-! ### The sort -/

theorem mergeSort_parts {result : Cells T}
    (h : mergeSort (fuel + 1) vec low high = some result) (hne : low ≠ high) :
    low + high < 2 ^ 31 ∧ ∃ first second,
      mergeSort fuel vec low ((low + high) / 2) = some first ∧
      mergeSort fuel first ((low + high) / 2 + 1) high = some second ∧
      merge fuel second low ((low + high) / 2) high = some result := by
  rw [mergeSort, if_neg hne] at h
  split at h
  · rename_i hlt
    simp only [Option.bind_eq_bind, Option.bind_eq_some_iff] at h
    obtain ⟨first, hfirst, second, hsecond, hmerge⟩ := h
    exact ⟨hlt, first, second, hfirst, hsecond, hmerge⟩
  · cases h

/-- The last two places are the indices of some call. -/
theorem mergeSort_counts {result : Cells T}
    (h : mergeSort fuel vec low high = some result) (hlt : low < high) :
    high ≤ 2 ^ 30 := by
  induction fuel generalizing vec low result with
  | zero => cases h
  | succ fuel ih =>
      obtain ⟨hsum, first, second, _, hsecond, _⟩ :=
        mergeSort_parts h (Nat.ne_of_lt hlt)
      by_cases hmore : (low + high) / 2 + 1 < high
      · exact ih hsecond hmore
      · omega

theorem merged_pairwise (hleft : left.Pairwise (· ≤ ·))
    (hright : right.Pairwise (· ≤ ·)) :
    (merged left right).Pairwise (· ≤ ·) :=
  hleft.merge hright

theorem merged_perm (left right : List T) :
    (merged left right).Perm (left ++ right) :=
  List.merge_perm_append _

omit [LinearOrder T] in
/-- A part of more than one place is one up to the middle and one behind it. -/
theorem halves {xs : List T} (hlt : low < high)
    (hhigh : low + xs.length = high + 1) :
    ∃ left right, xs = left ++ right ∧
      low + left.length = (low + high) / 2 + 1 ∧
      (low + high) / 2 + right.length = high := by
  refine ⟨xs.take ((low + high) / 2 + 1 - low),
    xs.drop ((low + high) / 2 + 1 - low), (List.take_append_drop _ _).symm,
    ?_, ?_⟩
  · rw [List.length_take]
    omega
  · rw [List.length_drop]
    omega

/-- Where the sort ends, the part was without repetition and is sorted. -/
theorem mergeSort_sorts {result : Cells T} (hlow : front.length = low)
    (hle : low ≤ high) (hhigh : low + xs.length = high + 1)
    (h : mergeSort fuel (front ++ xs.map some ++ back) low high =
      some result) :
    xs.Nodup ∧ ∃ ys : List T, ys.Pairwise (· ≤ ·) ∧ ys.Perm xs ∧
      result = front ++ ys.map some ++ back := by
  induction fuel generalizing front back xs low high result with
  | zero => cases h
  | succ fuel ih =>
      by_cases heq : low = high
      · have hone : xs.length = 1 := by omega
        obtain ⟨x, rfl⟩ := List.length_eq_one_iff.mp hone
        rw [mergeSort, if_pos heq] at h
        exact ⟨List.nodup_singleton x, [x], List.pairwise_singleton _ x,
          List.Perm.refl _, (Option.some.inj h).symm⟩
      · have hfits := mergeSort_counts h (by omega)
        obtain ⟨left, right, rfl, hleft, hright⟩ :=
          @halves _ low high xs (by omega) hhigh
        obtain ⟨_, first, second, hfirst, hsecond, hmerge⟩ :=
          mergeSort_parts h heq
        rw [List.map_append, ← List.append_assoc, List.append_assoc _ _ back]
          at hfirst
        obtain ⟨hleftNodup, ys, hys, hysPerm, rfl⟩ :=
          ih hlow (by omega) hleft hfirst
        rw [← List.append_assoc] at hsecond
        obtain ⟨hrightNodup, zs, hzs, hzsPerm, rfl⟩ :=
          ih (by simp [hlow, hysPerm.length_eq]; omega) (by omega)
            (by omega) hsecond
        rw [List.append_assoc front, ← List.map_append,
          merge_eq fuel hlow (by omega) (by rw [hysPerm.length_eq, hleft])
            (by rw [hzsPerm.length_eq, hright]) (by omega)] at hmerge
        obtain ⟨out, hout, rfl⟩ := Option.map_eq_some_iff.mp hmerge
        refine ⟨List.nodup_append'.mpr ⟨hleftNodup, hrightNodup, ?_⟩,
          out, ?_, ?_, rfl⟩
        · intro x hx hxr
          rw [mergeLists_common fuel hys hzs (hysPerm.symm.subset hx)
            (hzsPerm.symm.subset hxr)] at hout
          cases hout
        · rw [mergeLists_eq hout]
          exact merged_pairwise hys hzs
        · rw [mergeLists_eq hout]
          exact (merged_perm ys zs).trans (hysPerm.append hzsPerm)

/-- Without repetition the sort ends. -/
theorem mergeSort_ends (hlow : front.length = low) (hle : low ≤ high)
    (hhigh : low + xs.length = high + 1) (hnodup : xs.Nodup)
    (hfits : low = high ∨ high ≤ 2 ^ 30) (hfuel : xs.length + 1 < fuel) :
    ∃ result, mergeSort fuel (front ++ xs.map some ++ back) low high =
      some result := by
  induction fuel generalizing front back xs low high with
  | zero => omega
  | succ fuel ih =>
      by_cases heq : low = high
      · rw [mergeSort, if_pos heq]
        exact ⟨_, rfl⟩
      · obtain ⟨left, right, rfl, hleft, hright⟩ :=
          @halves _ low high xs (by omega) hhigh
        obtain ⟨hleftNodup, hrightNodup, hdisjoint⟩ :=
          List.nodup_append'.mp hnodup
        rw [List.length_append] at hfuel
        obtain ⟨first, hfirst⟩ := @ih front (right.map some ++ back) left low
          ((low + high) / 2) hlow (by omega) hleft hleftNodup (by omega)
          (by omega)
        obtain ⟨_, ys, hys, hysPerm, rfl⟩ :=
          mergeSort_sorts hlow (by omega) hleft hfirst
        obtain ⟨second, hsecond⟩ := @ih (front ++ ys.map some) back right
          ((low + high) / 2 + 1) high
          (by simp [hlow, hysPerm.length_eq]; omega) (by omega) (by omega)
          hrightNodup (by omega) (by omega)
        obtain ⟨_, zs, hzs, hzsPerm, rfl⟩ :=
          mergeSort_sorts (by simp [hlow, hysPerm.length_eq]; omega) (by omega)
            (by omega) hsecond
        have hparts : ys.Disjoint zs := fun x hx hxr =>
          hdisjoint (hysPerm.subset hx) (hzsPerm.subset hxr)
        have hmerge := @merge_eq _ _ ys zs front back low ((low + high) / 2)
          high fuel hlow (by omega) (by rw [hysPerm.length_eq, hleft])
          (by rw [hzsPerm.length_eq, hright]) (by omega)
        rw [mergeLists_of_disjoint hparts
          (by rw [hysPerm.length_eq, hzsPerm.length_eq]; omega)] at hmerge
        rw [mergeSort, if_neg heq, if_pos (by omega), List.map_append,
          ← List.append_assoc, List.append_assoc _ _ back]
        simp only [Option.bind_eq_bind, hfirst, Option.bind_some]
        rw [← List.append_assoc, hsecond, Option.bind_some,
          List.append_assoc front, ← List.map_append, hmerge]
        exact ⟨_, rfl⟩

/-- Merge sort sorts exactly the parts of one place, and those without
repetition whose indices can be added. -/
theorem mergeSort_sorts_iff {items : List T} (hle : low ≤ high)
    (hhigh : high < items.length) :
    SortsPart mergeSort items low high ↔
      low = high ∨ (((items.drop low).take (high + 1 - low)).Nodup ∧
        high ≤ 2 ^ 30) := by
  obtain ⟨x, rest, hpart, hend, hlow, hitems⟩ := part_split hle hhigh
  have hlow' : ((items.take low).map some).length = low :=
    (List.length_map _).trans hlow
  have hlength : low + (x :: rest).length = high + 1 := by
    rw [List.length_cons]
    omega
  have hshape : items.map some = (items.take low).map some ++
      (x :: rest).map some ++ (items.drop (high + 1)).map some := by
    rw [← List.map_append, ← List.map_append, ← hitems]
  constructor
  · rintro ⟨_, _, _, enough, henough⟩
    have hresult := henough enough (Nat.le_refl _)
    rw [hshape] at hresult
    rw [hpart]
    by_cases heq : low = high
    · exact Or.inl heq
    · exact Or.inr ⟨(mergeSort_sorts hlow' hle hlength hresult).1,
        mergeSort_counts hresult (by omega)⟩
  · intro hwhen
    have hnodup : (x :: rest).Nodup := by
      rcases hwhen with heq | ⟨hnodup, _⟩
      · have hnil : rest = [] := List.length_eq_zero_iff.mp (by omega)
        rw [hnil]
        exact List.nodup_singleton x
      · exact hpart ▸ hnodup
    have hfits : low = high ∨ high ≤ 2 ^ 30 := hwhen.imp_right And.right
    refine sortsPart_of_fuel ((x :: rest).length + 2) fun fuel hfuel => ?_
    obtain ⟨result, hresult⟩ := @mergeSort_ends _ _ ((items.take low).map some)
      ((items.drop (high + 1)).map some) (x :: rest) low high fuel hlow' hle
      hlength hnodup hfits hfuel
    obtain ⟨_, ys, hys, hperm, rfl⟩ :=
      mergeSort_sorts hlow' hle hlength hresult
    rw [← hshape, ← List.map_append, ← List.map_append] at hresult
    exact ⟨ys, hys, hpart ▸ hperm, hresult⟩

theorem mergeSort_sorts_three :
    SortsPart mergeSort [(3 : Int), 1, 2] 0 2 ↔
      0 = 2 ∨ (([(3 : Int), 1, 2].drop 0).take (2 + 1 - 0)).Nodup ∧
        2 ≤ 2 ^ 30 :=
  mergeSort_sorts_iff (by decide) (by decide)

/-- Of two equal elements neither is ever taken. -/
theorem mergeSort_equal_heads :
    ¬∀ (items : List Int) (low high : Nat), low ≤ high →
      high < items.length → SortsPart mergeSort items low high := by
  intro hclaim
  obtain ⟨_, _, _, enough, henough⟩ :=
    hclaim [1, 1] 0 1 (by decide) (by decide)
  have hnodup := (@mergeSort_sorts Int _ [] [] [1, 1] 0 1 enough _ rfl
    (by decide) rfl (henough enough (Nat.le_refl _))).1
  exact absurd hnodup (by decide)

end Sta

end LinuxTest
