/-
The vector `m_vector`: an allocated array, of which the first `m_size` cells
are the elements.  An iterator is an array and an offset in it, so that one
taken before a reallocation is of no use after it.
-/
import LinuxTest.CellArray
import LinuxTest.MachineInt
import LinuxTest.Runs

namespace LinuxTest

namespace Mst

universe u

variable {T : Type u}

/-- `T*` into an array. -/
structure Iter where
  array : Nat
  offset : Nat
deriving DecidableEq

structure MVector (T : Type u) where
  m_capcity : Nat
  m_size : Nat
  /-- The array that `vec` points to. -/
  array : Nat
  vec : Cells T

namespace MVector

/-- `DEFAULT_SZIE`. -/
def defaultSize : Nat := 16

/-- `m_vector()`. -/
def empty : MVector T :=
  ⟨defaultSize, 0, 0, Cells.allocate defaultSize⟩

/-- `m_vector(size, val)`. -/
def filled (size : Nat) (val : T) : Option (MVector T) := do
  let m_capcity := asSize (size * 2)
  let vec ← Cells.fill (Cells.allocate m_capcity) size val
  return ⟨m_capcity, size, 0, vec⟩

/-- `m_vector(size)`. -/
def sized [Zero T] (size : Nat) : Option (MVector T) := do
  let m_capcity := asSize (2 * size)
  let vec ← Cells.fill (Cells.allocate m_capcity) size 0
  return ⟨m_capcity, size, 0, vec⟩

/-- `begin() + offset`. -/
def iter (v : MVector T) (offset : Nat) : Iter :=
  ⟨v.array, offset⟩

/-- The rounds of the loop in `reserve` from `i` on; an `int` counts them. -/
def moveAll : Nat → Nat → Cells T → Cells T → Option (Cells T)
  | 0, _, _, temp => some temp
  | rounds + 1, i, vec, temp => do
      let x ← vec.read i
      let temp ← temp.write i x
      if i + 1 < 2 ^ 31 then
        moveAll rounds (i + 1) vec temp
      else
        none

/-- The two forms of `new`. -/
inductive New where
  | object | array

/-- `delete p`, which is for one object: what `new T[n]` gave is released by
`delete[]`, and by `delete` the program has no defined meaning any more. -/
def delete : New → Option PUnit.{u + 1}
  | .object => some ⟨⟩
  | .array => none

/-- The old array, like every `vec`, comes from `new T[m_capcity]`. -/
def reserve (newcapcity : Nat) (v : MVector T) : Option (MVector T) := do
  let temp ← moveAll v.m_size 0 v.vec (Cells.allocate newcapcity)
  delete .array
  return { v with m_capcity := newcapcity, array := v.array + 1, vec := temp }

def push_back (val : T) (v : MVector T) : Option (MVector T) := do
  let v ← if asSize (v.m_size + 1) > v.m_capcity then
      v.reserve (asSize (v.m_size * 2))
    else
      some v
  let vec ← v.vec.write v.m_size val
  return { v with vec := vec, m_size := asSize (v.m_size + 1) }

/-- From the last cell down to `pos`; it is met only if it is not behind. -/
def insert (pos : Iter) (val : T) (v : MVector T) : Option (MVector T) := do
  let (v, pos) ← if asSize (v.m_size + 1) > v.m_capcity then
      if pos.array = v.array then do
        let diff := pos.offset
        let v ← v.reserve (asSize (v.m_size * 2))
        some (v, v.iter diff)
      else
        none
    else
      some (v, pos)
  let m_size := asSize (v.m_size + 1)
  if pos.array = v.array ∧ pos.offset < m_size then
    let vec ← v.vec.shiftUp (m_size - 1 - pos.offset) (m_size - 1)
    let vec ← vec.write pos.offset val
    return { v with vec := vec, m_size := m_size }
  else
    none

/-- From `pos` up to the last cell; it is met only if `pos` is not behind. -/
def remove (pos : Iter) (v : MVector T) : Option (T × MVector T) :=
  if pos.array = v.array ∧ pos.offset < v.m_size then do
    let res ← v.vec.read pos.offset
    let vec ← v.vec.shiftDown (v.m_size - 1 - pos.offset) pos.offset
      (pos.offset + 1)
    return (res, { v with vec := vec, m_size := asSize (v.m_size - 1) })
  else
    none

/-- Afterwards `r` is the end and `l` as far before it as at first. -/
def erase (l r : Iter) (v : MVector T) : Option (MVector T) :=
  if l.array ≠ v.array ∨ r.array ≠ v.array then
    none
  else if r.offset ≤ l.offset then
    some v
  else if r.offset ≤ v.m_size then do
    let vec ← v.vec.shiftDown (v.m_size - r.offset) l.offset r.offset
    return { v with
      vec := vec
      m_size := asSize (v.m_size - (r.offset - l.offset)) }
  else
    none

def pop_back [Zero T] (v : MVector T) : Option (MVector T) := do
  let vec ← v.vec.write (asSize (v.m_size - 1)) 0
  return { v with vec := vec, m_size := asSize (v.m_size - 1) }

/-- The first cells hold the elements of the list, and the sizes fit. -/
structure Holds (v : MVector T) (items : List T) : Prop where
  elements : v.vec.take v.m_size = items.map some
  size_eq : v.m_size = items.length
  size_le : v.m_size ≤ v.m_capcity
  allocated : v.vec.length = v.m_capcity
  capcity_lt : v.m_capcity < 2 ^ 64

variable {v : MVector T} {items : List T}

theorem Holds.split (hv : v.Holds items) :
    ∃ back, v.vec = items.map some ++ back ∧
      items.length + back.length = v.m_capcity := by
  refine ⟨v.vec.drop v.m_size, ?_, ?_⟩
  · rw [← hv.elements, List.take_append_drop]
  · rw [List.length_drop, hv.allocated, ← hv.size_eq]
    have hle := hv.size_le
    omega

theorem Holds.of_split {back : Cells T} (hvec : v.vec = items.map some ++ back)
    (hsize : v.m_size = items.length)
    (hcapcity : items.length + back.length = v.m_capcity)
    (hlt : v.m_capcity < 2 ^ 64) : v.Holds items where
  elements := by
    rw [hvec, hsize, List.take_left' (List.length_map _)]
  size_eq := hsize
  size_le := by omega
  allocated := by
    rw [hvec, List.length_append, List.length_map, hcapcity]
  capcity_lt := hlt

/-! ### Construction -/

theorem holds_empty : (empty : MVector T).Holds [] :=
  @Holds.of_split _ _ _ (Cells.allocate defaultSize) rfl rfl rfl
    (by decide : defaultSize < 2 ^ 64)

theorem fill_allocate (n size : Nat) (val : T) :
    Cells.fill (Cells.allocate n) size val =
      if size ≤ n then
        some (List.replicate size (some val) ++ Cells.allocate (n - size))
      else none := by
  rw [Cells.fill, Cells.allocate, List.length_replicate, List.drop_replicate]
  rfl

/-- Twice the size is room enough unless it wraps around. -/
theorem le_double_iff (size : Nat) :
    size ≤ asSize (2 * size) ↔ size < 2 ^ 63 := by
  rw [asSize]
  omega

theorem holds_fill {size capcity : Nat} {val : T} (hle : size ≤ capcity)
    (hlt : capcity < 2 ^ 64) (array : Nat) :
    Holds ⟨capcity, size, array,
      List.replicate size (some val) ++ Cells.allocate (capcity - size)⟩
      (List.replicate size val) :=
  Holds.of_split (congrArg (· ++ _) List.map_replicate.symm)
    List.length_replicate.symm
    (by
      rw [List.length_replicate, Cells.allocate, List.length_replicate]
      exact Nat.add_sub_of_le hle)
    hlt

theorem asSize_lt (value : Int) : asSize value < 2 ^ 64 := by
  rw [asSize]
  omega

theorem filled_iff (size : Nat) (val : T) :
    (∃ v, filled size val = some v ∧ v.Holds (List.replicate size val)) ↔
      size < 2 ^ 63 := by
  rw [filled, Int.mul_comm, fill_allocate, ← le_double_iff]
  constructor
  · rintro ⟨v, hv, _⟩
    by_contra hgt
    rw [if_neg hgt] at hv
    cases hv
  · intro hle
    rw [if_pos hle]
    exact ⟨_, rfl, holds_fill hle (asSize_lt _) 0⟩

theorem sized_iff [Zero T] (size : Nat) :
    (∃ v, (sized size : Option (MVector T)) = some v ∧
      v.Holds (List.replicate size 0)) ↔ size < 2 ^ 63 := by
  rw [← filled_iff size (0 : T), sized, filled, Int.mul_comm]

/-! ### Growth -/

theorem reserve_eq_none (newcapcity : Nat) (v : MVector T) :
    v.reserve newcapcity = none := by
  rw [reserve]
  cases moveAll v.m_size 0 v.vec (Cells.allocate newcapcity) with
  | none => rfl
  | some temp => rfl

/-- The vector after the test for room that `push_back` and `insert` begin
with. -/
def grown (v : MVector T) : Option (MVector T) :=
  if asSize (v.m_size + 1) > v.m_capcity then
    v.reserve (asSize (v.m_size * 2))
  else
    some v

theorem Holds.grown (hv : v.Holds items) (hroom : v.m_size < v.m_capcity) :
    v.grown = some v := by
  have hlt := hv.capcity_lt
  have hnext : asSize (v.m_size + 1) = v.m_size + 1 := by
    rw [asSize]
    omega
  exact if_neg (by omega)

/-- A full vector either goes through `reserve` or, at the end of `size_t`,
takes itself to have room. -/
theorem Holds.grown_full (hv : v.Holds items)
    (hfull : ¬v.m_size < v.m_capcity) {roomy : MVector T}
    (hgrown : v.grown = some roomy) :
    roomy.vec.length ≤ roomy.m_size ∧ roomy.m_size < 2 ^ 64 := by
  have hallocated := hv.allocated
  have hle := hv.size_le
  have hlt := hv.capcity_lt
  rw [MVector.grown] at hgrown
  split at hgrown
  · rw [reserve_eq_none] at hgrown
    cases hgrown
  · cases hgrown
    omega

/-- What `push_back` does once there is room. -/
def appended (val : T) (v : MVector T) : Option (MVector T) := do
  let vec ← v.vec.write v.m_size val
  return { v with vec := vec, m_size := asSize (v.m_size + 1) }

/-- What `insert` does once there is room. -/
def placed (pos : Nat) (val : T) (v : MVector T) : Option (MVector T) :=
  let m_size := asSize (v.m_size + 1)
  if pos < m_size then do
    let vec ← v.vec.shiftUp (m_size - 1 - pos) (m_size - 1)
    let vec ← vec.write pos val
    return { v with vec := vec, m_size := m_size }
  else
    none

theorem push_back_eq (v : MVector T) (val : T) :
    v.push_back val = v.grown.bind (appended val) := by
  rw [MVector.push_back, MVector.grown]
  split <;> rfl

theorem insert_iter (v : MVector T) (pos : Nat) (val : T) :
    v.insert (v.iter pos) val = v.grown.bind (placed pos val) := by
  have harray : (v.iter pos).array = v.array := rfl
  rw [MVector.insert, MVector.grown]
  split
  · cases hreserve : v.reserve (asSize (v.m_size * 2)) with
    | none => rfl
    | some next => simp [iter, placed]
  · simp [iter, placed]

theorem Holds.asSize_succ (hv : v.Holds items)
    (hroom : v.m_size < v.m_capcity) :
    asSize (v.m_size + 1) = items.length + 1 := by
  have hlt := hv.capcity_lt
  rw [hv.size_eq] at hroom ⊢
  rw [asSize]
  omega

theorem Holds.appended (hv : v.Holds items) (hroom : v.m_size < v.m_capcity)
    (val : T) :
    ∃ next, v.appended val = some next ∧ next.Holds (items ++ [val]) := by
  obtain ⟨back, hvec, hback⟩ := hv.split
  have hsize := hv.size_eq
  have hsucc := hv.asSize_succ hroom
  cases back with
  | nil =>
      rw [List.length_nil] at hback
      omega
  | cons cell back =>
      refine ⟨⟨v.m_capcity, items.length + 1, v.array,
        items.map some ++ some val :: back⟩, ?_, ?_⟩
      · rw [MVector.appended, hvec,
          Cells.write_append (by rw [List.length_map, hsize]), hsucc]
        rfl
      · refine @Holds.of_split _ _ _ back (by simp) (by simp) ?_ hv.capcity_lt
        rw [List.length_cons] at hback
        rw [List.length_append, List.length_singleton]
        dsimp only
        omega

theorem appended_full (hfull : v.vec.length ≤ v.m_size) (val : T) :
    v.appended val = none := by
  rw [MVector.appended, Cells.write_outside hfull]
  rfl

theorem placed_full (hfull : v.vec.length ≤ v.m_size)
    (hlt : v.m_size < 2 ^ 64) (pos : Nat) (val : T) :
    v.placed pos val = none := by
  rw [MVector.placed]
  by_cases hin : pos < asSize (v.m_size + 1)
  · have hsucc : asSize (v.m_size + 1) = v.m_size + 1 := by
      rw [asSize] at hin ⊢
      omega
    rw [if_pos hin, hsucc, Nat.add_sub_cancel]
    by_cases hlast : pos = v.m_size
    · rw [hlast, Nat.sub_self, Cells.shiftUp, Option.bind_eq_bind,
        Option.bind_some, Cells.write_outside hfull]
      rfl
    · obtain ⟨rounds, hrounds⟩ : ∃ rounds, v.m_size - pos = rounds + 1 :=
        ⟨v.m_size - pos - 1, by omega⟩
      rw [hrounds, Cells.shiftUp_outside hfull]
      rfl
  · exact if_neg hin

theorem Holds.placed (hv : v.Holds items) (hroom : v.m_size < v.m_capcity)
    {pos : Nat} (hpos : pos ≤ items.length) (val : T) :
    ∃ next, v.placed pos val = some next ∧
      next.Holds (items.take pos ++ val :: items.drop pos) := by
  obtain ⟨back, hvec, hback⟩ := hv.split
  have hsize := hv.size_eq
  have hsucc := hv.asSize_succ hroom
  cases back with
  | nil =>
      rw [List.length_nil] at hback
      omega
  | cons cell back =>
      have htake : (items.take pos).length = pos := by
        rw [List.length_take]
        omega
      have hdrop : (items.drop pos).length = items.length - pos :=
        List.length_drop
      have hsplit : items.map some ++ cell :: back =
          (items.take pos).map some ++ (items.drop pos).map some ++
            cell :: back := by
        rw [← List.map_append, List.take_append_drop]
      obtain ⟨left, hshift⟩ := @Cells.shiftUp_append _ (items.drop pos)
        ((items.take pos).map some) back cell items.length
        (by rw [List.length_map]; omega)
      rw [← hsplit, hdrop, ← hvec] at hshift
      refine ⟨⟨v.m_capcity, items.length + 1, v.array,
        (items.take pos ++ val :: items.drop pos).map some ++ back⟩, ?_, ?_⟩
      · rw [MVector.placed, hsucc]
        rw [if_pos (by omega), Nat.add_sub_cancel, hshift, Option.bind_eq_bind,
          Option.bind_some, List.append_assoc, List.cons_append,
          Cells.write_append (by rw [List.length_map, htake])]
        simp
      · rw [List.length_cons] at hback
        refine @Holds.of_split _ _ _ back rfl ?_ ?_ hv.capcity_lt
        · rw [List.length_append, List.length_cons, htake, hdrop]
          dsimp only
          omega
        · rw [List.length_append, List.length_cons, htake, hdrop]
          dsimp only
          omega

/-! ### Shrinking -/

/-- The elements from `r` on close up to `l`. -/
theorem Holds.closed (hv : v.Holds items) {l r : Nat} (hlr : l < r)
    (hr : r ≤ items.length) :
    ∃ vec, v.vec.shiftDown (v.m_size - r) l r = some vec ∧
      Holds { v with
        vec := vec
        m_size := asSize (v.m_size - (r - l)) }
        (items.take l ++ items.drop r) := by
  obtain ⟨back, hvec, hback⟩ := hv.split
  have hsize := hv.size_eq
  have hlt := hv.capcity_lt
  have htake : (items.take l).length = l := by
    rw [List.length_take]
    omega
  have hgap : ((items.drop l).take (r - l)).length = r - l := by
    rw [List.length_take, List.length_drop]
    omega
  have hdrop : (items.drop r).length = items.length - r := List.length_drop
  have hsplit : items = items.take l ++ (items.drop l).take (r - l) ++
      items.drop r := by
    have hrest : (items.drop l).take (r - l) ++ items.drop r =
        items.drop l := by
      have hbehind : items.drop r = (items.drop l).drop (r - l) := by
        rw [List.drop_drop, Nat.add_sub_of_le hlr.le]
      rw [hbehind, List.take_append_drop]
    rw [List.append_assoc, hrest, List.take_append_drop]
  have hne : ((items.drop l).take (r - l)).map some ≠ ([] : Cells T) := by
    intro hnil
    have hzero := congrArg List.length hnil
    rw [List.length_map, hgap, List.length_nil] at hzero
    omega
  obtain ⟨left, hleft, hshift⟩ := @Cells.shiftDown_append _ (items.drop r)
    ((items.take l).map some) (((items.drop l).take (r - l)).map some) back l r
    hne (by rw [List.length_map, htake])
    (by rw [List.length_map, hgap]; omega)
  rw [← List.map_append, ← List.map_append, ← hsplit, ← hvec, hdrop,
    ← hsize] at hshift
  rw [List.length_map, hgap] at hleft
  have hnext : asSize (v.m_size - (r - l)) = items.length - (r - l) := by
    rw [asSize]
    omega
  refine ⟨_, hshift, ?_⟩
  refine @Holds.of_split _ _ _ (left ++ back) ?_ ?_ ?_ hlt
  · rw [List.map_append, List.append_assoc]
  · rw [List.length_append, htake, hdrop]
    dsimp only
    omega
  · rw [List.length_append, List.length_append, htake, hdrop, hleft]
    dsimp only
    omega

theorem Holds.read_append {front back : List T} {x : T} {pos : Nat}
    (hv : v.Holds (front ++ x :: back)) (hpos : front.length = pos) :
    v.vec.read pos = some x := by
  obtain ⟨rest, hvec, _⟩ := hv.split
  rw [hvec, List.map_append, List.map_cons, List.append_assoc,
    List.cons_append]
  exact Cells.read_append (by rw [List.length_map, hpos])

theorem Holds.read (hv : v.Holds items) {pos : Nat}
    (hpos : pos < items.length) : v.vec.read pos = some items[pos] := by
  have hitems : items.take pos ++ items[pos] :: items.drop (pos + 1) =
      items := by
    rw [← List.drop_eq_getElem_cons hpos, List.take_append_drop]
  refine Holds.read_append (hitems.symm ▸ hv) ?_
  rw [List.length_take]
  omega

theorem Holds.remove (hv : v.Holds items) {pos : Nat}
    (hpos : pos < items.length) :
    ∃ next, v.remove (v.iter pos) = some (items[pos], next) ∧
      next.Holds (items.eraseIdx pos) := by
  obtain ⟨vec, hshift, hnext⟩ := hv.closed (Nat.lt_succ_self pos) hpos
  have hsize := hv.size_eq
  have hrounds : v.m_size - 1 - pos = v.m_size - (pos + 1) := by omega
  have hone : (v.m_size : Int) - (((pos + 1 : Nat) : Int) - pos) =
      v.m_size - 1 := by omega
  rw [hone, ← List.eraseIdx_eq_take_drop_succ] at hnext
  refine ⟨_, ?_, hnext⟩
  rw [MVector.remove, if_pos ⟨rfl, by rw [hsize]; exact hpos⟩]
  dsimp only [iter]
  rw [hv.read hpos, hrounds, hshift]
  rfl

theorem Holds.erase (hv : v.Holds items) {l r : Nat} (hlr : l ≤ r)
    (hr : r ≤ items.length) :
    ∃ next, v.erase (v.iter l) (v.iter r) = some next ∧
      next.Holds (items.take l ++ items.drop r) := by
  have hsame : ¬((v.iter l).array ≠ v.array ∨ (v.iter r).array ≠ v.array) := by
    rintro (hl | hr)
    · exact hl rfl
    · exact hr rfl
  rw [MVector.erase, if_neg hsame]
  by_cases hempty : (v.iter r).offset ≤ (v.iter l).offset
  · have heq : l = r := Nat.le_antisymm hlr hempty
    rw [if_pos hempty, heq, List.take_append_drop]
    exact ⟨v, rfl, hv⟩
  · obtain ⟨vec, hshift, hnext⟩ := hv.closed (Nat.lt_of_not_le hempty) hr
    have hend : (v.iter r).offset ≤ v.m_size := by
      rw [hv.size_eq]
      exact hr
    have hclosed : v.vec.shiftDown (v.m_size - (v.iter r).offset)
        (v.iter l).offset (v.iter r).offset = some vec := hshift
    rw [if_neg hempty, if_pos hend, hclosed]
    exact ⟨_, rfl, hnext⟩

theorem Holds.pop_back [Zero T] (hv : v.Holds items) (hne : items ≠ []) :
    ∃ next, v.pop_back = some next ∧ next.Holds items.dropLast := by
  obtain ⟨back, hvec, hback⟩ := hv.split
  have hpos := List.length_pos_of_ne_nil hne
  have hsize := hv.size_eq
  have hlt := hv.capcity_lt
  have hpred : asSize (v.m_size - 1) = items.length - 1 := by
    rw [asSize]
    omega
  have hsplit : items.map some ++ back =
      items.dropLast.map some ++ some (items.getLast hne) :: back := by
    nth_rewrite 1 [← List.dropLast_append_getLast hne]
    simp
  refine ⟨⟨v.m_capcity, items.length - 1, v.array,
    items.dropLast.map some ++ some 0 :: back⟩, ?_, ?_⟩
  · rw [MVector.pop_back, hpred, hvec, hsplit,
      Cells.write_append (by rw [List.length_map, List.length_dropLast])]
    rfl
  · refine @Holds.of_split _ _ _ (some 0 :: back) rfl
      List.length_dropLast.symm ?_ hlt
    rw [List.length_dropLast, List.length_cons]
    dsimp only
    omega

end MVector

/-! ### Runs -/

/-- The three constructors. -/
inductive Made (T : Type u) where
  | empty
  | sized (n : Nat)
  | filled (n : Nat) (val : T)

/-- The calls on a vector; positions are offsets from `begin()`. -/
inductive Call (T : Type u) where
  | push_back (val : T)
  | insert (pos : Nat) (val : T)
  | remove (pos : Nat)
  | erase (l r : Nat)
  | pop_back

/-- Positions and ranges are valid, and an element is there to be popped. -/
def Call.Valid (items : List T) : Call T → Prop
  | .push_back _ => True
  | .insert pos _ => pos ≤ items.length
  | .remove pos => pos < items.length
  | .erase l r => l ≤ r ∧ r ≤ items.length
  | .pop_back => items ≠ []

/-- The same operations on a plain list. -/
def Call.onList (items : List T) : Call T → List T
  | .push_back val => items ++ [val]
  | .insert pos val => items.take pos ++ val :: items.drop pos
  | .remove pos => items.eraseIdx pos
  | .erase l r => items.take l ++ items.drop r
  | .pop_back => items.dropLast

/-- What the call returns: the element that `remove` takes out. -/
def Call.result (items : List T) : Call T → Option T
  | .remove pos => items[pos]?
  | _ => none

variable [Zero T]

def Made.vector : Made T → Option (MVector T)
  | .empty => some MVector.empty
  | .sized n => MVector.sized n
  | .filled n val => MVector.filled n val

def Made.items : Made T → List T
  | .empty => []
  | .sized n => List.replicate n 0
  | .filled n val => List.replicate n val

/-- A vector and the plain list beside it, with what the last call returned
and what it should have. -/
structure Session (T : Type u) where
  vector : MVector T
  items : List T
  returned : Option T
  expected : Option T

def Call.onVector (v : MVector T) : Call T → Option (Option T × MVector T)
  | .push_back val => (v.push_back val).map fun v => (none, v)
  | .insert pos val => (v.insert (v.iter pos) val).map fun v => (none, v)
  | .remove pos => (v.remove (v.iter pos)).map fun (res, v) => (some res, v)
  | .erase l r => (v.erase (v.iter l) (v.iter r)).map fun v => (none, v)
  | .pop_back => v.pop_back.map fun v => (none, v)

def Session.step (s : Session T) (call : Call T) : Option (Session T) := do
  let (returned, vector) ← call.onVector s.vector
  return ⟨vector, call.onList s.items, returned, call.result s.items⟩

/-- The vector is the list, its sizes fit, and the last call returned what it
should. -/
structure Session.Correct (s : Session T) : Prop where
  holds : s.vector.Holds s.items
  returned_eq : s.returned = s.expected

/-- A call that adds an element does not find the array full. -/
def Session.Roomy (s : Session T) : Call T → Prop
  | .push_back _ | .insert _ _ => s.vector.m_size < s.vector.m_capcity
  | _ => True

/-- The calls are valid on the lists they are applied to. -/
def AllValid : List T → List (Call T) → Prop
  | _, [] => True
  | items, call :: rest =>
      call.Valid items ∧ AllValid (call.onList items) rest

/-- The size twice is still a `size_t`. -/
def Made.Fits : Made T → Prop
  | .empty => True
  | .sized n | .filled n _ => n < 2 ^ 63

instance (s : Session T) (call : Call T) : Decidable (s.Roomy call) :=
  match call with
  | .push_back _ | .insert _ _ =>
      inferInstanceAs (Decidable (s.vector.m_size < s.vector.m_capcity))
  | .remove _ | .erase _ _ | .pop_back => .isTrue trivial

def Made.start (made : Made T) : Option (Session T) :=
  made.vector.map fun v => ⟨v, made.items, none, none⟩

variable {s : Session T}

theorem Session.along_valid {calls : List (Call T)}
    (hvalid : AllValid s.items calls) :
    Along Session.step (fun s call => call.Valid s.items) s calls := by
  induction calls generalizing s with
  | nil => trivial
  | cons call rest ih =>
      refine ⟨hvalid.1, fun next hnext => ih ?_⟩
      rw [Session.step, Option.bind_eq_bind, Option.bind_eq_some_iff] at hnext
      obtain ⟨⟨returned, vector⟩, _, hresult⟩ := hnext
      cases hresult
      exact hvalid.2

omit [Zero T] in
/-- A call that adds an element succeeds exactly where there is room. -/
theorem adds_iff {v : MVector T} {items : List T} (hv : v.Holds items)
    {add : MVector T → Option (MVector T)} {result : List T}
    (hroom : v.m_size < v.m_capcity →
      ∃ next, add v = some next ∧ next.Holds result)
    (hfull : ∀ roomy : MVector T, roomy.vec.length ≤ roomy.m_size →
      roomy.m_size < 2 ^ 64 → add roomy = none) :
    (∃ next, v.grown.bind add = some next ∧ next.Holds result) ↔
      v.m_size < v.m_capcity := by
  constructor
  · rintro ⟨next, hnext, _⟩
    by_contra hless
    rw [Option.bind_eq_some_iff] at hnext
    obtain ⟨roomy, hroomy, hadd⟩ := hnext
    obtain ⟨hle, hlt⟩ := hv.grown_full hless hroomy
    rw [hfull roomy hle hlt] at hadd
    cases hadd
  · intro hless
    rw [hv.grown hless, Option.bind_some]
    exact hroom hless

/-- A step is correct when the call on the vector leaves the list's result. -/
theorem Session.step_iff (call : Call T) :
    (∃ next, s.step call = some next ∧ next.Correct) ↔
      ∃ vector, call.onVector s.vector = some (call.result s.items, vector) ∧
        vector.Holds (call.onList s.items) := by
  constructor
  · rintro ⟨next, hnext, hcorrect⟩
    rw [Session.step, Option.bind_eq_bind, Option.bind_eq_some_iff] at hnext
    obtain ⟨⟨returned, vector⟩, hvector, hresult⟩ := hnext
    cases hresult
    have hreturned : returned = call.result s.items := hcorrect.returned_eq
    exact ⟨vector, hreturned ▸ hvector, hcorrect.holds⟩
  · rintro ⟨vector, hvector, hholds⟩
    rw [Session.step, hvector]
    exact ⟨_, rfl, hholds, rfl⟩

omit [Zero T] in
theorem exists_map_none {result : Option (MVector T)}
    {good : MVector T → Prop} :
    (∃ vector, result.map (fun v => ((none : Option T), v)) =
        some (none, vector) ∧ good vector) ↔
      ∃ vector, result = some vector ∧ good vector := by
  cases result with
  | none => simp
  | some v => simp

theorem Session.Correct.step_iff (hs : s.Correct) {call : Call T}
    (hvalid : call.Valid s.items) :
    (∃ next, s.step call = some next ∧ next.Correct) ↔ s.Roomy call := by
  have hv := hs.holds
  rw [Session.step_iff]
  cases call with
  | push_back val =>
      refine exists_map_none.trans ?_
      rw [MVector.push_back_eq]
      exact adds_iff hv (fun hless => hv.appended hless val)
        fun roomy hfull _ => MVector.appended_full hfull val
  | insert pos val =>
      refine exists_map_none.trans ?_
      rw [MVector.insert_iter]
      exact adds_iff hv (fun hless => hv.placed hless hvalid val)
        fun roomy hfull hlt => MVector.placed_full hfull hlt pos val
  | remove pos =>
      have hpos : pos < s.items.length := hvalid
      obtain ⟨next, hnext, hholds⟩ := hv.remove hpos
      refine iff_of_true ⟨next, ?_, hholds⟩ trivial
      rw [Call.onVector, hnext, Call.result, List.getElem?_eq_getElem hpos]
      rfl
  | erase l r =>
      exact iff_of_true (exists_map_none.mpr (hv.erase hvalid.1 hvalid.2))
        trivial
  | pop_back =>
      exact iff_of_true (exists_map_none.mpr (hv.pop_back hvalid)) trivial

theorem Made.start_iff (made : Made T) :
    (∃ s, made.start = some s ∧ s.Correct) ↔ made.Fits := by
  have hstart : (∃ s, made.start = some s ∧ s.Correct) ↔
      ∃ v, made.vector = some v ∧ v.Holds made.items := by
    constructor
    · rintro ⟨s, hs, hcorrect⟩
      obtain ⟨v, hv, rfl⟩ := Option.map_eq_some_iff.mp hs
      exact ⟨v, hv, hcorrect.holds⟩
    · rintro ⟨v, hv, hholds⟩
      exact ⟨_, congrArg (Option.map _) hv, hholds, rfl⟩
  rw [hstart]
  cases made with
  | empty => exact iff_of_true ⟨_, rfl, MVector.holds_empty⟩ trivial
  | sized n => exact MVector.sized_iff n
  | filled n val => exact MVector.filled_iff n val

theorem Made.items_eq {made : Made T} (hs : made.start = some s) :
    s.items = made.items := by
  obtain ⟨v, _, rfl⟩ := Option.map_eq_some_iff.mp hs
  rfl

/-- A vector is a list throughout a run exactly when it was made small enough
and never has to grow. -/
theorem m_vector_is_list_iff (made : Made T) (calls : List (Call T))
    (hvalid : AllValid made.items calls) :
    (∃ s, made.start = some s ∧ Always Session.step Session.Correct s calls) ↔
      made.Fits ∧ ∀ s, made.start = some s →
        Along Session.step Session.Roomy s calls := by
  have halways (s : Session T) (hs : made.start = some s) :=
    @always_iff_along_of_allowed _ _ Session.step Session.Roomy
      (fun s call => call.Valid s.items) Session.Correct s calls
      (fun s call hcorrect hcall => hcorrect.step_iff hcall)
      (Session.along_valid (by rw [Made.items_eq hs]; exact hvalid))
  rw [← made.start_iff]
  constructor
  · rintro ⟨s, hs, hrun⟩
    obtain ⟨hcorrect, halong⟩ := (halways s hs).mp hrun
    refine ⟨⟨s, hs, hcorrect⟩, fun other hother => ?_⟩
    rw [hs] at hother
    cases hother
    exact halong
  · rintro ⟨⟨s, hs, hcorrect⟩, halong⟩
    exact ⟨s, hs, (halways s hs).mpr ⟨hcorrect, halong s hs⟩⟩

theorem m_vector_is_list_two :
    ∃ s, (Made.sized 2 : Made Int).start = some s ∧
      Always Session.step Session.Correct s
        [.push_back 7, .insert 1 3, .remove 0, .push_back 5, .pop_back] := by
  have hvalid : AllValid (Made.sized 2 : Made Int).items
      [.push_back 7, .insert 1 3, .remove 0, .push_back 5, .pop_back] := by
    simp [AllValid, Call.Valid, Call.onList, Made.items]
  refine (m_vector_is_list_iff _ _ hvalid).mpr ⟨?_, ?_⟩
  · exact (by decide : 2 < 2 ^ 63)
  · intro s hs
    cases hs
    decide +kernel

/-- The default array is full after 16 elements. -/
theorem seventeenth_push_back_undefined :
    ¬∀ (made : Made Int) (calls : List (Call Int)),
      AllValid made.items calls →
        ∃ s, made.start = some s ∧
          Always Session.step Session.Correct s calls := by
  intro hclaim
  have hvalid : AllValid (Made.empty : Made Int).items
      (List.replicate 17 (.push_back 7)) := by
    simp [AllValid, Call.Valid, List.replicate]
  obtain ⟨s, hs, hrun⟩ := hclaim .empty _ hvalid
  obtain ⟨last, hlast, _⟩ := hrun.final
  have hnone : ((Made.empty : Made Int).start.bind fun s =>
      run Session.step s (List.replicate 17 (.push_back 7))).isNone := by
    decide +kernel
  rw [hs, Option.bind_some, hlast] at hnone
  cases hnone

end Mst

end LinuxTest
