/-
Singly linked lists on a heap.  A segment lists addresses and values of nodes
each of which points to the next, the last to where the segment ends.
-/
import LinuxTest.NodeHeap

namespace LinuxTest

universe u

structure ListCell (V : Type u) where
  value : V
  next : Option Nat

namespace NodeHeap

variable {V : Type u}

/-- Where a segment that ends at `last` begins. -/
def start (last : Option Nat) : List (Nat × V) → Option Nat
  | [] => last
  | (n, _) :: _ => some n

/-- The nodes of the list are linked up to `last`. -/
def Segment (h : NodeHeap (ListCell V)) (last : Option Nat) :
    List (Nat × V) → Prop
  | [] => True
  | (n, v) :: rest =>
      h.cells n = some ⟨v, start last rest⟩ ∧ Segment h last rest

def addresses (items : List (Nat × V)) : List Nat := items.map Prod.fst

def values (items : List (Nat × V)) : List V := items.map Prod.snd

variable {h h' : NodeHeap (ListCell V)} {last : Option Nat}
  {front back items : List (Nat × V)} {n new : Nat} {v x : V}

@[simp] theorem addresses_nil : addresses ([] : List (Nat × V)) = [] := rfl

@[simp] theorem addresses_cons (item : Nat × V) (items : List (Nat × V)) :
    addresses (item :: items) = item.1 :: addresses items := rfl

@[simp] theorem addresses_append (front back : List (Nat × V)) :
    addresses (front ++ back) = addresses front ++ addresses back :=
  List.map_append

@[simp] theorem values_nil : values ([] : List (Nat × V)) = [] := rfl

@[simp] theorem values_cons (item : Nat × V) (items : List (Nat × V)) :
    values (item :: items) = item.2 :: values items := rfl

@[simp] theorem values_append (front back : List (Nat × V)) :
    values (front ++ back) = values front ++ values back :=
  List.map_append

@[simp] theorem start_nil (last : Option Nat) :
    start last ([] : List (Nat × V)) = last := rfl

@[simp] theorem start_cons (last : Option Nat) (item : Nat × V)
    (items : List (Nat × V)) : start last (item :: items) = some item.1 := rfl

theorem segment_cons {item : Nat × V} :
    h.Segment last (item :: items) ↔
      h.cells item.1 = some ⟨item.2, start last items⟩ ∧
        h.Segment last items := Iff.rfl

theorem start_append (last : Option Nat) (front back : List (Nat × V)) :
    start last (front ++ back) = start (start last back) front := by
  cases front with
  | nil => rfl
  | cons item front => rfl

theorem segment_append :
    h.Segment last (front ++ back) ↔
      h.Segment (start last back) front ∧ h.Segment last back := by
  induction front with
  | nil => exact (and_iff_right trivial).symm
  | cons item front ih =>
      rw [List.cons_append, Segment, Segment, start_append, ih, and_assoc]

/-- A segment only depends on its own nodes. -/
theorem Segment.frame (hsegment : h.Segment last items)
    (hsame : ∀ m ∈ addresses items, h'.cells m = h.cells m) :
    h'.Segment last items := by
  induction items with
  | nil => trivial
  | cons item rest ih =>
      refine ⟨(hsame item.1 List.mem_cons_self).trans hsegment.1, ?_⟩
      exact ih hsegment.2 fun m hm => hsame m (List.mem_cons_of_mem _ hm)

/-- Put a new node behind `n`. -/
theorem Segment.insert (hsegment : h.Segment last (front ++ (n, v) :: back))
    (hnodup : (addresses (front ++ (n, v) :: back)).Nodup)
    (hnew : new ∉ addresses (front ++ (n, v) :: back))
    (hbefore : h'.cells n = some ⟨v, some new⟩)
    (hcell : h'.cells new = some ⟨x, start last back⟩)
    (hothers : ∀ m, m ≠ n → m ≠ new → h'.cells m = h.cells m) :
    h'.Segment last (front ++ (n, v) :: (new, x) :: back) := by
  obtain ⟨hfront, _, hback⟩ := segment_append.mp hsegment
  simp only [addresses_append, addresses_cons, List.mem_append,
    List.mem_cons, not_or] at hnew
  obtain ⟨hnfront, hnback⟩ : n ∉ addresses front ∧ n ∉ addresses back := by
    rw [addresses_append, addresses_cons, List.perm_middle.nodup_iff,
      List.nodup_cons, List.mem_append, not_or] at hnodup
    exact hnodup.1
  refine segment_append.mpr ⟨hfront.frame ?_, hbefore, hcell, hback.frame ?_⟩
  · intro m hm
    exact hothers m (fun heq => hnfront (heq ▸ hm))
      fun heq => hnew.1 (heq ▸ hm)
  · intro m hm
    exact hothers m (fun heq => hnback (heq ▸ hm))
      fun heq => hnew.2.2 (heq ▸ hm)

/-- Let `n` point past the node behind it. -/
theorem Segment.unlink {out : Nat} {u : V}
    (hsegment : h.Segment last (front ++ (n, v) :: (out, u) :: back))
    (hnodup : (addresses (front ++ (n, v) :: (out, u) :: back)).Nodup)
    (hbefore : h'.cells n = some ⟨v, start last back⟩)
    (hothers : ∀ m, m ≠ n → m ≠ out → h'.cells m = h.cells m) :
    h'.Segment last (front ++ (n, v) :: back) := by
  obtain ⟨hfront, _, _, hback⟩ := segment_append.mp hsegment
  rw [addresses_append, addresses_cons, addresses_cons, List.nodup_append]
    at hnodup
  obtain ⟨_, hrest, hapart⟩ := hnodup
  simp only [List.nodup_cons, List.mem_cons, not_or] at hrest
  refine segment_append.mpr ⟨hfront.frame ?_, hbefore, hback.frame ?_⟩
  · intro m hm
    exact hothers m (hapart m hm n (by simp)) (hapart m hm out (by simp))
  · intro m hm
    exact hothers m (fun heq => hrest.1.2 (heq ▸ hm))
      fun heq => hrest.2.1 (heq ▸ hm)

end NodeHeap

end LinuxTest
