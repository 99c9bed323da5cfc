/-
The two sorts of `m_vector`.  A range is given by the offsets of its iterators;
the element type need only be ordered.
-/
import Mathlib.Data.List.Sort
import LinuxTest.BubblePass
import LinuxTest.MVector

namespace LinuxTest

namespace Mst

namespace MVector

universe u

variable {T : Type u} [LinearOrder T]

/-- The loop of `bubble` with so many rounds left. -/
def bubbleLoop : Nat → Cells T → Nat → Nat → Option (Cells T × Nat)
  | 0, vec, _, last => some (vec, last)
  | rounds + 1, vec, p, last => do
      let x ← vec.read p
      let y ← vec.read (p - 1)
      if x < y then
        let vec ← vec.write p y
        let vec ← vec.write (p - 1) x
        bubbleLoop rounds vec (p + 1) p
      else
        bubbleLoop rounds vec (p + 1) last

/-- Returns the place of the last exchange. -/
def bubble (lo hi : Nat) (vec : Cells T) : Option (Cells T × Nat) :=
  bubbleLoop (hi - (lo + 1)) vec (lo + 1) lo

/-- `while(lo < (hi = bubble(lo, hi)));` -/
def bubbleCells : Nat → Nat → Nat → Cells T → Option (Cells T)
  | 0, _, _, _ => none
  | fuel + 1, lo, hi, vec => do
      let (vec, hi) ← bubble lo hi vec
      if lo < hi then
        bubbleCells fuel lo hi vec
      else
        some vec

/-- `temp[index++] = x`; the index is an `int`. -/
def store (temp : Cells T) (index : Nat) (x : T) :
    Option (Cells T × Nat) := do
  let temp ← temp.write index x
  if index + 1 < 2 ^ 31 then
    some (temp, index + 1)
  else
    none

/-- The loop over both parts; a round takes one element, so that `rounds` need
only be greater than their number. -/
def mergeHeads (vec : Cells T) (mid hi : Nat) :
    Nat → Cells T → Nat → Nat → Nat → Option (Cells T × Nat × Nat × Nat)
  | 0, _, _, _, _ => none
  | rounds + 1, temp, p1, p2, index =>
      if p1 ≠ mid ∧ p2 ≠ hi then do
        let x ← vec.read p1
        let y ← vec.read p2
        if x < y then
          let (temp, index) ← store temp index x
          mergeHeads vec mid hi rounds temp (p1 + 1) p2 index
        else
          let (temp, index) ← store temp index y
          mergeHeads vec mid hi rounds temp p1 (p2 + 1) index
      else
        some (temp, p1, p2, index)

/-- `while(p != stop) temp[index++] = *p++` with so many rounds left. -/
def takeRest (vec : Cells T) : Nat → Cells T → Nat → Nat → Option (Cells T)
  | 0, temp, _, _ => some temp
  | rounds + 1, temp, p, index => do
      let x ← vec.read p
      let (temp, index) ← store temp index x
      takeRest vec rounds temp (p + 1) index

/-- What is left of one part. -/
def mergeTail (vec : Cells T) (mid hi : Nat) :
    Cells T × Nat × Nat × Nat → Option (Cells T)
  | (temp, p1, p2, index) =>
      if p1 = mid ∧ p2 ≠ hi then
        takeRest vec (hi - p2) temp p2 index
      else if p1 ≠ mid ∧ p2 = hi then
        takeRest vec (mid - p1) temp p1 index
      else
        some temp

def merge (lo mid hi : Nat) (vec : Cells T) : Option (Cells T) := do
  let temp := Cells.allocate (hi - lo)
  let heads ← mergeHeads vec mid hi (hi - lo + 1) temp lo mid 0
  let temp ← mergeTail vec mid hi heads
  Cells.copy (hi - lo) temp 0 vec lo

def mergeCells (lo hi : Nat) (vec : Cells T) : Option (Cells T) :=
  if hi - lo < 2 then
    some vec
  else do
    let mid := lo + (hi - lo) / 2
    let vec ← mergeCells lo mid vec
    let vec ← mergeCells mid hi vec
    merge lo mid hi vec
termination_by hi - lo
decreasing_by
  · omega
  · omega

def bubbleSort (fuel lo hi : Nat) (v : MVector T) : Option (MVector T) := do
  let vec ← bubbleCells fuel lo hi v.vec
  return { v with vec := vec }

def mergeSort (lo hi : Nat) (v : MVector T) : Option (MVector T) := do
  let vec ← mergeCells lo hi v.vec
  return { v with vec := vec }

/-! ### Bubble sort -/

variable {front back : Cells T} {lo : Nat}

theorem bubbleLoop_append {x : T} {rest : List T} {p last : Nat}
    (hp : p = front.length + 1) :
    bubbleLoop rest.length (front ++ (x :: rest).map some ++ back) p last =
      some (front ++ (bubblePass x rest p last).1.map some ++ back,
        (bubblePass x rest p last).2) := by
  induction rest generalizing front x p last with
  | nil => rfl
  | cons y rest ih =>
      have hshape : front ++ (x :: y :: rest).map some ++ back =
          front ++ some x :: some y :: (rest.map some ++ back) := by simp
      have hsecond : front ++ some x :: some y :: (rest.map some ++ back) =
          (front ++ [some x]) ++ some y :: (rest.map some ++ back) := by simp
      have hlength : (front ++ [some x]).length = p := by simp [hp]
      have hpred : front.length = p - 1 := by omega
      have hy : Cells.read (front ++ some x :: some y ::
          (rest.map some ++ back)) p = some y := by
        rw [hsecond]
        exact Cells.read_append hlength
      have hx : Cells.read (front ++ some x :: some y ::
          (rest.map some ++ back)) (p - 1) = some x :=
        Cells.read_append hpred
      rw [hshape, List.length_cons, bubbleLoop, hy, Option.bind_eq_bind,
        Option.bind_some, hx, Option.bind_eq_bind, Option.bind_some]
      by_cases hlt : y < x
      · have hfirst : Cells.write (front ++ some x :: some y ::
            (rest.map some ++ back)) p x =
            some (front ++ some x :: some x :: (rest.map some ++ back)) := by
          rw [hsecond, Cells.write_append hlength]
          simp
        have hnext := @ih (front ++ [some y]) x (p + 1) p (by simp [hp])
        rw [if_pos hlt, hfirst, Option.bind_some, Cells.write_append hpred,
          Option.bind_some, bubblePass_cons_lt hlt]
        simpa using hnext
      · have hnext := @ih (front ++ [some x]) y (p + 1) last (by simp [hp])
        rw [if_neg hlt, bubblePass_cons_ge hlt]
        simpa using hnext

/-- With more rounds than elements, what is before a sorted part and nowhere
greater is sorted into it. -/
theorem bubbleCells_append {fuel : Nat} {xs zs : List T}
    (hlo : front.length = lo) (hfuel : xs.length < fuel)
    (hzs : zs.Pairwise (· ≤ ·)) (hle : ∀ a ∈ xs, ∀ b ∈ zs, a ≤ b) :
    ∃ ys : List T, ys.Pairwise (· ≤ ·) ∧ ys.Perm (xs ++ zs) ∧
      bubbleCells fuel lo (lo + xs.length)
        (front ++ (xs ++ zs).map some ++ back) =
          some (front ++ ys.map some ++ back) := by
  induction fuel generalizing xs zs with
  | zero => omega
  | succ fuel ih =>
      cases xs with
      | nil =>
          refine ⟨zs, hzs, List.Perm.refl _, ?_⟩
          have hrounds : lo + ([] : List T).length - (lo + 1) = 0 := by
            rw [List.length_nil]
            omega
          rw [bubbleCells, bubble, hrounds, bubbleLoop, Option.bind_eq_bind,
            Option.bind_some]
          exact if_neg (Nat.lt_irrefl lo)
      | cons x rest =>
          have hrounds : lo + (x :: rest).length - (lo + 1) = rest.length := by
            rw [List.length_cons]
            omega
          have hpass := @bubbleLoop_append _ _ front (zs.map some ++ back) x
            rest (lo + 1) lo (by omega)
          have hshape : front ++ (x :: rest ++ zs).map some ++ back =
              front ++ (x :: rest).map some ++ (zs.map some ++ back) := by
            simp
          obtain ⟨k, hlast, hk, hsettled⟩ := bubblePass_settled x rest lo
          have hperm := bubblePass_perm x rest (lo + 1) lo
          rw [bubbleCells, bubble, hrounds, hshape, hpass, Option.bind_eq_bind,
            Option.bind_some]
          generalize bubblePass x rest (lo + 1) lo = passed at *
          obtain ⟨ys, last⟩ := passed
          dsimp only at hlast hsettled hperm ⊢
          subst hlast
          have hlength := hperm.length_eq
          rw [List.length_cons] at hlength
          obtain ⟨hsorted, hbefore⟩ := hsettled.append hzs
            fun a ha b hb => hle a (hperm.subset ha) b hb
          by_cases hmore : lo < lo + k
          · rw [if_pos hmore]
            have htake : (ys.take k).length = k := by
              rw [List.length_take]
              omega
            obtain ⟨done, hdone, hdonePerm, hresult⟩ :=
              @ih (ys.take k) (ys.drop k ++ zs)
                (by rw [List.length_cons] at hfuel; omega) hsorted hbefore
            rw [← List.append_assoc, List.take_append_drop] at hdonePerm hresult
            rw [htake] at hresult
            refine ⟨done, hdone, hdonePerm.trans (hperm.append_right zs), ?_⟩
            rw [← hresult]
            simp
          · have hzero : k = 0 := by omega
            rw [if_neg hmore]
            rw [hzero, List.drop_zero] at hsorted
            refine ⟨ys ++ zs, hsorted, hperm.append_right zs, ?_⟩
            simp

/-! ### Merge sort -/

/-- Of two equal heads the right one is taken first. -/
def merged (left right : List T) : List T :=
  right.merge left fun y x => decide (y ≤ x)

theorem merged_perm (left right : List T) :
    (merged left right).Perm (left ++ right) := by
  have hmerge := @List.merge_perm_append _ (fun y x : T => decide (y ≤ x))
    right left
  exact hmerge.trans List.perm_append_comm

theorem merged_nil (left : List T) : merged left [] = left := by
  rw [merged, List.nil_merge]

theorem nil_merged (right : List T) : merged [] right = right := by
  rw [merged, List.merge_right]

theorem merged_cons_lt {x y : T} {left right : List T} (h : x < y) :
    merged (x :: left) (y :: right) = x :: merged left (y :: right) := by
  have hle : ¬decide (y ≤ x) = true := by simpa using h
  rw [merged, List.cons_merge_cons_neg _ _ _ hle]
  rfl

theorem merged_cons_ge {x y : T} {left right : List T} (h : ¬x < y) :
    merged (x :: left) (y :: right) = y :: merged (x :: left) right := by
  have hle : decide (y ≤ x) = true := by simpa using h
  rw [merged, List.cons_merge_cons_pos _ _ _ hle]
  rfl

theorem merged_pairwise {left right : List T} (hleft : left.Pairwise (· ≤ ·))
    (hright : right.Pairwise (· ≤ ·)) :
    (merged left right).Pairwise (· ≤ ·) := by
  have htrans : ∀ a b c : T, decide (a ≤ b) = true → decide (b ≤ c) = true →
      decide (a ≤ c) = true := fun a b c hab hbc =>
    decide_eq_true (le_trans (of_decide_eq_true hab) (of_decide_eq_true hbc))
  have htotal : ∀ a b : T, (decide (a ≤ b) || decide (b ≤ a)) = true := by
    intro a b
    rw [Bool.or_eq_true, decide_eq_true_iff, decide_eq_true_iff]
    exact le_total a b
  have hmerge := List.pairwise_merge htrans htotal right left
    (hright.imp decide_eq_true) (hleft.imp decide_eq_true)
  exact hmerge.imp of_decide_eq_true

variable {vec : Cells T} {done : List T} {gap : Cells T}
  {index p p1 p2 mid hi : Nat}

omit [LinearOrder T] in
theorem store_append {x : T} {cell : Option T} (hindex : done.length = index) :
    store (done.map some ++ cell :: gap) index x =
      if index + 1 < 2 ^ 31 then
        some ((done ++ [x]).map some ++ gap, index + 1)
      else none := by
  have hshape : done.map some ++ some x :: gap =
      (done ++ [x]).map some ++ gap := by simp
  rw [store, Cells.write_append (by rw [List.length_map, hindex]), hshape]
  rfl

omit [LinearOrder T] in
theorem takeRest_append {xs : List T} (hxs : Cells.Segment vec p xs)
    (hgap : gap.length = xs.length) (hindex : done.length = index)
    (hlt : index < 2 ^ 31) :
    takeRest vec xs.length (done.map some ++ gap) p index =
      if index + xs.length < 2 ^ 31 then some ((done ++ xs).map some)
      else none := by
  induction xs generalizing done gap p index with
  | nil =>
      rw [List.length_eq_zero_iff.mp hgap, List.append_nil, List.append_nil]
      exact (if_pos hlt).symm
  | cons x xs ih =>
      cases gap with
      | nil => cases hgap
      | cons cell gap =>
          rw [List.length_cons, takeRest, hxs.1, Option.bind_eq_bind,
            Option.bind_some, store_append hindex]
          by_cases hnext : index + 1 < 2 ^ 31
          · have hrest := @ih (done ++ [x]) gap (index + 1) (p + 1) hxs.2
              (Nat.succ.inj hgap) (by simp [hindex]) hnext
            have hcount : index + 1 + xs.length = index + (xs.length + 1) := by
              omega
            rw [hcount, List.append_assoc, List.singleton_append] at hrest
            rw [if_pos hnext, Option.bind_eq_bind, Option.bind_some]
            exact hrest
          · have hmany : ¬index + (xs.length + 1) < 2 ^ 31 := by omega
            rw [if_neg hnext, if_neg hmany]
            rfl

/-- One round over two heads, unless the index cannot count its element. -/
theorem mergeHeads_round {x y : T} {cell : Option T} {rounds : Nat}
    (hx : vec.read p1 = some x) (hy : vec.read p2 = some y)
    (hmore : p1 ≠ mid ∧ p2 ≠ hi) (hindex : done.length = index) :
    mergeHeads vec mid hi (rounds + 1) (done.map some ++ cell :: gap) p1 p2
        index =
      if index + 1 < 2 ^ 31 then
        if x < y then
          mergeHeads vec mid hi rounds ((done ++ [x]).map some ++ gap)
            (p1 + 1) p2 (index + 1)
        else
          mergeHeads vec mid hi rounds ((done ++ [y]).map some ++ gap)
            p1 (p2 + 1) (index + 1)
      else none := by
  rw [mergeHeads, if_pos hmore, hx, hy]
  simp only [Option.bind_eq_bind, Option.bind_some, store_append hindex]
  by_cases hnext : index + 1 < 2 ^ 31
  · rw [if_pos hnext, if_pos hnext, if_pos hnext]
    rfl
  · rw [if_neg hnext, if_neg hnext, if_neg hnext]
    split <;> rfl

/-- Where one part is at its end, what is left of the other is taken. -/
theorem mergeHeads_end {left right : List T} {rounds : Nat}
    (hleft : Cells.Segment vec p1 left) (hmid : p1 + left.length = mid)
    (hright : Cells.Segment vec p2 right) (hhi : p2 + right.length = hi)
    (hgap : gap.length = left.length + right.length)
    (hindex : done.length = index) (hlt : index < 2 ^ 31)
    (hend : left = [] ∨ right = []) :
    ((mergeHeads vec mid hi (rounds + 1) (done.map some ++ gap) p1 p2
      index).bind fun heads => mergeTail vec mid hi heads) =
      if index + (left.length + right.length) < 2 ^ 31 then
        some ((done ++ merged left right).map some)
      else none := by
  have hout : ¬(p1 ≠ mid ∧ p2 ≠ hi) := by
    rcases hend with rfl | rfl
    · exact fun h => h.1 hmid
    · exact fun h => h.2 hhi
  rw [mergeHeads, if_neg hout, Option.bind_some, mergeTail]
  have hrest1 : mid - p1 = left.length := by omega
  have hrest2 : hi - p2 = right.length := by omega
  rw [hrest1, hrest2]
  rcases hend with rfl | rfl
  · rw [List.length_nil, Nat.zero_add] at hgap ⊢
    rw [nil_merged]
    by_cases hmore : p2 = hi
    · have hnil : right = [] := List.length_eq_zero_iff.mp (by omega)
      subst hnil
      rw [if_neg fun h => h.2 hmore, if_neg fun h => h.1 hmid,
        List.length_eq_zero_iff.mp hgap, List.append_nil, List.append_nil]
      exact (if_pos hlt).symm
    · rw [if_pos ⟨hmid, hmore⟩]
      exact takeRest_append hright hgap hindex hlt
  · rw [List.length_nil, Nat.add_zero] at hgap ⊢
    rw [merged_nil, if_neg fun h => h.2 hhi]
    by_cases hmore : p1 = mid
    · have hnil : left = [] := List.length_eq_zero_iff.mp (by omega)
      subst hnil
      rw [if_neg fun h => h.1 hmore, List.length_eq_zero_iff.mp hgap,
        List.append_nil, List.append_nil]
      exact (if_pos hlt).symm
    · rw [if_pos ⟨hmore, hhi⟩]
      exact takeRest_append hleft hgap hindex hlt

/-- Both parts are taken up to their ends, unless the index cannot count their
elements. -/
theorem mergeHeads_append {left right : List T} {rounds : Nat}
    (hleft : Cells.Segment vec p1 left) (hmid : p1 + left.length = mid)
    (hright : Cells.Segment vec p2 right) (hhi : p2 + right.length = hi)
    (hgap : gap.length = left.length + right.length)
    (hindex : done.length = index) (hlt : index < 2 ^ 31)
    (hrounds : left.length + right.length < rounds) :
    ((mergeHeads vec mid hi rounds (done.map some ++ gap) p1 p2 index).bind
      fun heads => mergeTail vec mid hi heads) =
      if index + (left.length + right.length) < 2 ^ 31 then
        some ((done ++ merged left right).map some)
      else none := by
  induction rounds generalizing left right done gap p1 p2 index with
  | zero => omega
  | succ rounds ih =>
      by_cases hend : left = [] ∨ right = []
      · exact mergeHeads_end hleft hmid hright hhi hgap hindex hlt hend
      · obtain ⟨hne, hne'⟩ := not_or.mp hend
        obtain ⟨x, left, rfl⟩ := List.exists_cons_of_ne_nil hne
        obtain ⟨y, right, rfl⟩ := List.exists_cons_of_ne_nil hne'
        simp only [List.length_cons] at hmid hhi hgap hrounds ⊢
        obtain ⟨cell, gap, rfl⟩ := List.exists_cons_of_ne_nil
          (List.ne_nil_of_length_pos (by omega) : gap ≠ [])
        rw [List.length_cons] at hgap
        rw [mergeHeads_round hleft.1 hright.1 (by omega) hindex]
        by_cases hnext : index + 1 < 2 ^ 31
        · have hlength (z : T) : (done ++ [z]).length = index + 1 := by
            simp [hindex]
          rw [if_pos hnext]
          by_cases hxy : x < y
          · have hrest := @ih (done ++ [x]) gap (index + 1) (p1 + 1) p2 left
              (y :: right) hleft.2 (by omega) hright
              (by rw [List.length_cons]; omega)
              (by rw [List.length_cons]; omega) (hlength x) hnext
              (by rw [List.length_cons]; omega)
            have hcount : index + 1 + (left.length + (right.length + 1)) =
                index + (left.length + 1 + (right.length + 1)) := by omega
            rw [List.length_cons, hcount, List.append_assoc,
              List.singleton_append] at hrest
            rw [if_pos hxy, merged_cons_lt hxy, hrest]
          · have hrest := @ih (done ++ [y]) gap (index + 1) p1 (p2 + 1)
              (x :: left) right hleft (by rw [List.length_cons]; omega)
              hright.2 (by omega) (by rw [List.length_cons]; omega) (hlength y)
              hnext (by rw [List.length_cons]; omega)
            have hcount : index + 1 + (left.length + 1 + right.length) =
                index + (left.length + 1 + (right.length + 1)) := by omega
            rw [List.length_cons, hcount, List.append_assoc,
              List.singleton_append] at hrest
            rw [if_neg hxy, merged_cons_ge hxy, hrest]
        · rw [if_neg hnext, if_neg (by omega)]
          rfl

theorem merge_append {left right : List T} (hlo : front.length = lo)
    (hmid : lo + left.length = mid) (hhi : mid + right.length = hi) :
    merge lo mid hi (front ++ (left ++ right).map some ++ back) =
      if left.length + right.length < 2 ^ 31 then
        some (front ++ (merged left right).map some ++ back)
      else none := by
  have hrange : hi - lo = left.length + right.length := by omega
  have hboth := @Cells.segment_append _ front back (left ++ right) lo hlo
  obtain ⟨hleft, hright⟩ := hboth.append
  rw [hmid] at hright
  have hheads := @mergeHeads_append T _ _ []
    (Cells.allocate (left.length + right.length)) 0 lo mid mid hi left right
    (left.length + right.length + 1) hleft hmid hright hhi
    List.length_replicate rfl (Nat.two_pow_pos 31) (Nat.lt_succ_self _)
  rw [Nat.zero_add, List.map_nil, List.nil_append, List.nil_append] at hheads
  rw [merge, hrange]
  simp only [Option.bind_eq_bind]
  rw [← Option.bind_assoc, hheads]
  by_cases hfits : left.length + right.length < 2 ^ 31
  · have hlength : (merged left right).length = left.length + right.length := by
      rw [(merged_perm left right).length_eq, List.length_append]
    have hsource : Cells.Segment ((merged left right).map some) 0
        (merged left right) := by
      have hsegment := @Cells.segment_append _ [] [] (merged left right) 0 rfl
      simpa using hsegment
    have hcopy := @Cells.copy_segment _ _ front ((left ++ right).map some) back
      _ 0 lo hsource hlo (by rw [List.length_map, List.length_append, hlength])
    rw [if_pos hfits, if_pos hfits, Option.bind_some, ← hlength]
    exact hcopy
  · rw [if_neg hfits, if_neg hfits, Option.bind_none]

/-- The range becomes a sorted permutation of itself, unless the index cannot
count it. -/
theorem mergeCells_append (xs : List T) (front back : Cells T)
    (hlo : front.length = lo) :
    ∃ ys : List T, ys.Pairwise (· ≤ ·) ∧ ys.Perm xs ∧
      mergeCells lo (lo + xs.length) (front ++ xs.map some ++ back) =
        if xs.length < 2 ^ 31 then some (front ++ ys.map some ++ back)
        else none := by
  induction hn : xs.length using Nat.strong_induction_on
    generalizing xs front back lo with
  | _ n ih =>
      subst hn
      by_cases hshort : xs.length < 2
      · refine ⟨xs, ?_, List.Perm.refl xs, ?_⟩
        · cases xs with
          | nil => exact List.Pairwise.nil
          | cons x rest =>
              rw [List.length_cons] at hshort
              have hrest : rest = [] := List.length_eq_zero_iff.mp (by omega)
              rw [hrest]
              exact List.pairwise_singleton _ x
        · rw [mergeCells, if_pos (by omega), if_pos (by omega)]
      · have htake : (xs.take (xs.length / 2)).length = xs.length / 2 := by
          rw [List.length_take]
          omega
        have hdrop : (xs.drop (xs.length / 2)).length =
            xs.length - xs.length / 2 := List.length_drop
        have hsplit : xs.take (xs.length / 2) ++ xs.drop (xs.length / 2) = xs :=
          List.take_append_drop _ _
        generalize xs.take (xs.length / 2) = left at *
        generalize xs.drop (xs.length / 2) = right at *
        subst hsplit
        rw [List.length_append] at *
        obtain ⟨ys, hys, hysPerm, hleft⟩ := ih left.length (by omega) left
          front (right.map some ++ back) hlo rfl
        obtain ⟨zs, hzs, hzsPerm, hright⟩ := ih right.length (by omega) right
          (front ++ ys.map some) back
          (by rw [List.length_append, List.length_map, hlo, hysPerm.length_eq])
          rfl
        have hmiddle : lo + (lo + (left.length + right.length) - lo) / 2 =
            lo + left.length := by omega
        have hend : lo + left.length + right.length =
            lo + (left.length + right.length) := by omega
        have hshape : front ++ (left ++ right).map some ++ back =
            front ++ left.map some ++ (right.map some ++ back) := by simp
        have hsorted : front ++ ys.map some ++ (right.map some ++ back) =
            front ++ ys.map some ++ right.map some ++ back := by simp
        have hboth : front ++ ys.map some ++ zs.map some ++ back =
            front ++ (ys ++ zs).map some ++ back := by simp
        have hmerge := @merge_append T _ front back lo (lo + left.length)
          (lo + (left.length + right.length)) ys zs hlo
          (by rw [hysPerm.length_eq]) (by rw [hzsPerm.length_eq, hend])
        rw [hysPerm.length_eq, hzsPerm.length_eq] at hmerge
        rw [hend] at hright
        refine ⟨merged ys zs, merged_pairwise hys hzs,
          (merged_perm ys zs).trans (hysPerm.append hzsPerm), ?_⟩
        rw [mergeCells, if_neg (by omega), hmiddle, hshape]
        dsimp only
        rw [hleft]
        by_cases hfirst : left.length < 2 ^ 31
        · rw [if_pos hfirst, Option.bind_eq_bind, Option.bind_some, hsorted,
            hright]
          by_cases hsecond : right.length < 2 ^ 31
          · rw [if_pos hsecond, Option.bind_some, hboth, hmerge]
          · rw [if_neg hsecond, if_neg (by omega)]
            rfl
        · rw [if_neg hfirst, if_neg (by omega)]
          rfl

/-! ### Both sorts -/

variable {v : MVector T} {items : List T}

omit [LinearOrder T] in
/-- A range of the elements replaced by as many others. -/
theorem Holds.replaced {first xs ys last : List T} {rest : Cells T}
    (hv : v.Holds (first ++ xs ++ last))
    (hvec : v.vec = (first ++ xs ++ last).map some ++ rest)
    (hperm : ys.Perm xs) :
    Holds { v with
      vec := first.map some ++ ys.map some ++ (last.map some ++ rest) }
      (first ++ ys ++ last) := by
  have hlength : (first ++ ys ++ last).length =
      (first ++ xs ++ last).length := by
    simp [hperm.length_eq]
  have hallocated := hv.allocated
  rw [hvec, List.length_append, List.length_map] at hallocated
  refine @Holds.of_split _ _ _ rest ?_ ?_ ?_ hv.capcity_lt
  · simp
  · rw [hlength, ← hv.size_eq]
  · rw [hlength, hallocated]

/-- Both sorts give the same vector, in which the range is sorted. -/
def SortsAgree (v : MVector T) (items : List T) (lo hi : Nat) : Prop :=
  ∃ (ys : List T) (next : MVector T),
    ys.Pairwise (· ≤ ·) ∧ ys.Perm ((items.drop lo).take (hi - lo)) ∧
    next.Holds (items.take lo ++ ys ++ items.drop hi) ∧
    v.mergeSort lo hi = some next ∧
    ∀ fuel, hi - lo < fuel → v.bubbleSort fuel lo hi = some next

omit [LinearOrder T] in
theorem range_split {lo hi : Nat} (hlohi : lo ≤ hi) (items : List T) :
    items.take lo ++ (items.drop lo).take (hi - lo) ++ items.drop hi =
      items := by
  have hbehind : items.drop hi = (items.drop lo).drop (hi - lo) := by
    rw [List.drop_drop, Nat.add_sub_of_le hlohi]
  rw [hbehind, List.append_assoc, List.take_append_drop,
    List.take_append_drop]

theorem mergeSort_eq (hv : v.Holds items) {lo hi : Nat} (hlohi : lo ≤ hi)
    (hhi : hi ≤ items.length) :
    ∃ (ys : List T) (next : MVector T), ys.Pairwise (· ≤ ·) ∧
      ys.Perm ((items.drop lo).take (hi - lo)) ∧
      next.Holds (items.take lo ++ ys ++ items.drop hi) ∧
      (v.mergeSort lo hi = if hi - lo < 2 ^ 31 then some next else none) ∧
      ∀ fuel, hi - lo < fuel → v.bubbleSort fuel lo hi = some next := by
  obtain ⟨rest, hvec, _⟩ := hv.split
  have hsplit := range_split hlohi items
  have hlo : (items.take lo).length = lo := by
    rw [List.length_take]
    omega
  have hrange : ((items.drop lo).take (hi - lo)).length = hi - lo := by
    rw [List.length_take, List.length_drop]
    omega
  generalize items.take lo = first at *
  generalize (items.drop lo).take (hi - lo) = xs at *
  generalize items.drop hi = last at *
  subst hsplit
  have hend : lo + xs.length = hi := by omega
  have hshape : v.vec =
      first.map some ++ xs.map some ++ (last.map some ++ rest) := by
    rw [hvec]
    simp
  obtain ⟨ys, hys, hperm, hmerge⟩ := mergeCells_append xs (first.map some)
    (last.map some ++ rest) ((List.length_map _).trans hlo)
  rw [hend, ← hshape, hrange] at hmerge
  refine ⟨ys, _, hys, hperm, hv.replaced hvec hperm, ?_, ?_⟩
  · rw [mergeSort, hmerge]
    split <;> rfl
  · intro fuel hfuel
    obtain ⟨zs, hzs, hzsPerm, hbubble⟩ :=
      @bubbleCells_append _ _ (first.map some) (last.map some ++ rest) lo fuel
        xs [] ((List.length_map _).trans hlo) (by omega) List.Pairwise.nil
        (fun _ _ b hb => absurd hb List.not_mem_nil)
    rw [List.append_nil] at hzsPerm hbubble
    have hsame : zs = ys := (hzsPerm.trans hperm.symm).eq_of_pairwise'
      hzs hys
    rw [hend, ← hshape, hsame] at hbubble
    rw [bubbleSort, hbubble]
    rfl

/-- The sorts agree exactly on the ranges that an `int` can count. -/
theorem sortsAgree_iff (hv : v.Holds items) {lo hi : Nat} (hlohi : lo ≤ hi)
    (hhi : hi ≤ items.length) :
    v.SortsAgree items lo hi ↔ hi - lo < 2 ^ 31 := by
  obtain ⟨ys, next, hys, hperm, hnext, hmerge, hbubble⟩ :=
    mergeSort_eq hv hlohi hhi
  constructor
  · rintro ⟨_, other, _, _, _, hother, _⟩
    by_contra hlong
    rw [hmerge, if_neg hlong] at hother
    cases hother
  · intro hfits
    rw [if_pos hfits] at hmerge
    exact ⟨ys, next, hys, hperm, hnext, hmerge, hbubble⟩

theorem holds_two : Holds ⟨4, 2, 0, [some 2, some 1, none, none]⟩
    [(2 : Int), 1] :=
  @Holds.of_split _ _ _ [none, none] rfl rfl rfl (by decide : 4 < 2 ^ 64)

theorem sortsAgree_two :
    SortsAgree ⟨4, 2, 0, [some 2, some 1, none, none]⟩ [(2 : Int), 1] 0 2 ↔
      2 - 0 < 2 ^ 31 :=
  sortsAgree_iff holds_two (by decide) (by decide)

/-- The index of `merge` overflows on 2^31 elements. -/
theorem merge_index_overflows :
    ¬∀ (v : MVector Int) (items : List Int) (lo hi : Nat), v.Holds items →
      lo ≤ hi → hi ≤ items.length → v.SortsAgree items lo hi := by
  intro hclaim
  have hfull := @holds_fill Int (2 ^ 31) (2 ^ 31) 0 (Nat.le_refl _)
    (by decide) 0
  have hlength : 2 ^ 31 ≤ (List.replicate (2 ^ 31) (0 : Int)).length :=
    (List.length_replicate).ge
  obtain ⟨_, _, _, _, _, hmerge, _⟩ :=
    hclaim _ _ 0 (2 ^ 31) hfull (Nat.zero_le _) hlength
  obtain ⟨_, _, _, _, _, hnone, _⟩ :=
    mergeSort_eq hfull (Nat.zero_le (2 ^ 31)) hlength
  rw [if_neg (by decide)] at hnone
  rw [hnone] at hmerge
  cases hmerge

end MVector

end Mst

end LinuxTest
