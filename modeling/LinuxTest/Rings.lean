/-
Rings of nodes: doubly linked lists whose last node points on to the first.
-/
import LinuxTest.DoubleLinks

namespace LinuxTest

universe u

variable {N : Type u}

namespace Links

/-- From each node to the next, and from the last back to the first. -/
def Ring (s : Links N) : List N → Prop
  | [] => True
  | x :: rest => s.Linked (x :: rest ++ [x])

variable {s s' : Links N} {front back nodes rest : List N} {a b n x : N}

/-- A linked list only depends on the pointers of its own nodes. -/
theorem Linked.frame (hlinked : s.Linked nodes)
    (hsame : ∀ n ∈ nodes, s'.next n = s.next n ∧ s'.prev n = s.prev n) :
    s'.Linked nodes := by
  induction nodes with
  | nil => exact .nil
  | cons a nodes ih =>
      cases nodes with
      | nil => exact .singleton a
      | cons b nodes =>
          obtain ⟨hab, hrest⟩ := List.isChain_cons_cons.mp hlinked
          refine List.isChain_cons_cons.mpr ⟨⟨?_, ?_⟩, ih hrest ?_⟩
          · rw [(hsame a (by simp)).1, hab.1]
          · rw [(hsame b (by simp)).2, hab.2]
          · exact fun n hn => hsame n (List.mem_cons_of_mem a hn)

theorem Ring.frame (hring : s.Ring nodes)
    (hsame : ∀ n ∈ nodes, s'.next n = s.next n ∧ s'.prev n = s.prev n) :
    s'.Ring nodes := by
  cases nodes with
  | nil => trivial
  | cons x rest =>
      refine Linked.frame hring fun n hn => hsame n ?_
      simpa [or_comm] using hn

/-- The nodes of a ring from its second one on. -/
theorem Ring.next (hring : s.Ring (x :: rest)) : s.Ring (rest ++ [x]) := by
  cases rest with
  | nil => exact hring
  | cons y rest =>
      obtain ⟨hxy, hrest⟩ := List.isChain_cons_cons.mp hring
      change s.Linked (y :: (rest ++ [x]) ++ [y])
      have hsplit : y :: (rest ++ [x]) ++ [y] = (y :: rest) ++ x :: [y] := by
        simp
      rw [hsplit]
      exact List.isChain_append_cons_cons.mpr ⟨hrest, hxy, .singleton y⟩

/-- A ring can be told from any of its nodes on. -/
theorem Ring.rotate (hring : s.Ring (front ++ back)) :
    s.Ring (back ++ front) := by
  induction front generalizing back with
  | nil => simpa using hring
  | cons x front ih =>
      have hnext : s.Ring (front ++ (back ++ [x])) := by
        rw [← List.append_assoc]
        exact hring.next
      simpa using ih hnext

theorem Ring.first_neighbours (hring : s.Ring (a :: b :: back)) :
    s.next a = some b ∧ s.prev b = some a :=
  (List.isChain_cons_cons.mp hring).1

/-- Neighbours of a ring point to each other. -/
theorem Ring.neighbours (hring : s.Ring (front ++ a :: b :: back)) :
    s.next a = some b ∧ s.prev b = some a := by
  cases front with
  | nil => exact hring.first_neighbours
  | cons x front =>
      have hlinked : s.Linked ((x :: front) ++ a :: b :: (back ++ [x])) := by
        simpa [Ring] using hring
      exact hlinked.neighbours

/-- The last node of a ring and the first point to each other. -/
theorem Ring.closed (hring : s.Ring (b :: rest ++ [a])) :
    s.next a = some b ∧ s.prev b = some a := by
  have hrotated : s.Ring ([a] ++ b :: rest) := Ring.rotate hring
  exact hrotated.first_neighbours

theorem Ring.next_last (hring : s.Ring (front ++ [x])) :
    s.next x = (front ++ [x]).head? := by
  have hrotated : s.Ring (x :: front) := hring.rotate
  cases front with
  | nil => exact (List.isChain_cons_cons.mp hrotated).1.1
  | cons b front => exact (hrotated.first_neighbours).1

/-- The neighbours of a node of a ring. -/
theorem Ring.around (hring : s.Ring (front ++ x :: back))
    (hfirst : (back ++ front).head? = some b)
    (hlast : (back ++ front).getLast? = some a) :
    s.next x = some b ∧ s.prev x = some a := by
  have hrotated : s.Ring (x :: (back ++ front)) := hring.rotate
  obtain ⟨behind, hbehind⟩ : ∃ behind, back ++ front = b :: behind :=
    List.head?_eq_some_iff.mp hfirst
  obtain ⟨before, hbefore⟩ : ∃ before, back ++ front = before ++ [a] :=
    ⟨_, (List.dropLast_append_getLast? a hlast).symm⟩
  constructor
  · rw [hbehind] at hrotated
    exact (hrotated.first_neighbours).1
  · rw [hbefore] at hrotated
    exact (Ring.closed hrotated).2

variable [DecidableEq N]

theorem join_congr (hsame : s'.next n = s.next n ∧ s'.prev n = s.prev n)
    (a b : N) : (s'.join a b).next n = (s.join a b).next n ∧
      (s'.join a b).prev n = (s.join a b).prev n := by
  simp only [join, setNext, setPrev, Function.update_apply, hsame, and_self]

/-- Put a node between the last and the first. -/
theorem Ring.push (hring : s.Ring (x :: rest)) (hnodup : (x :: rest).Nodup)
    (hnew : n ∉ x :: rest) (hlast : (x :: rest).getLast? = some a) :
    ((s.join a n).join n x).Ring (x :: rest ++ [n]) := by
  obtain ⟨front, hfront⟩ : ∃ front, x :: rest = front ++ [a] :=
    ⟨_, (List.dropLast_append_getLast? a hlast).symm⟩
  rw [hfront] at hnodup hnew
  have hlinked : s.Linked (front ++ [a]) := by
    rw [← hfront]
    exact (List.isChain_append.mp hring).1
  have ha : a ∉ (front ++ [a]).dropLast := by
    rw [List.dropLast_concat]
    intro hmem
    exact (List.nodup_append.mp hnodup).2.2 a hmem a (by simp) rfl
  have hjoined : (s.join a n).Linked (front ++ [a]) :=
    hlinked.join ha fun hmem => hnew (List.mem_of_mem_tail hmem)
  have hfirst : x ∉ (front ++ [a]).tail := by
    rw [← hfront]
    rw [← hfront] at hnodup
    exact (List.nodup_cons.mp hnodup).1
  have hkept : ((s.join a n).join n x).Linked (front ++ [a]) :=
    hjoined.join (fun hmem => hnew (List.dropLast_subset _ hmem)) hfirst
  have hin : a ∈ front ++ [a] := by simp
  have hne : a ≠ n := fun heq => hnew (heq ▸ hin)
  have hxn : n ≠ x := by
    rintro rfl
    rw [← hfront] at hnew
    exact hnew List.mem_cons_self
  have hat : ((s.join a n).join n x).next a = some n ∧
      ((s.join a n).join n x).prev n = some a :=
    ⟨(Function.update_of_ne hne _ _).trans (s.join_self a n).1,
      (Function.update_of_ne hxn _ _).trans (s.join_self a n).2⟩
  change ((s.join a n).join n x).Linked (x :: rest ++ [n] ++ [x])
  have hshape : x :: rest ++ [n] ++ [x] = front ++ a :: n :: [x] := by
    rw [hfront]
    simp
  rw [hshape]
  refine List.isChain_append_cons_cons.mpr ⟨hkept, hat, ?_⟩
  exact List.isChain_cons_cons.mpr
    ⟨Links.join_self _ n x, .singleton x⟩

/-- Join the second node of a ring to the last to take the first out. -/
theorem Ring.pop (hring : s.Ring (x :: rest)) (hnodup : (x :: rest).Nodup)
    (hfirst : rest.head? = some b) (hlast : rest.getLast? = some a) :
    (s.join a b).Ring rest := by
  obtain ⟨front, hfront⟩ : ∃ front, rest = front ++ [a] :=
    ⟨_, (List.dropLast_append_getLast? a hlast).symm⟩
  obtain ⟨behind, rfl⟩ : ∃ behind, rest = b :: behind := by
    cases rest with
    | nil => cases hfirst
    | cons c behind =>
        cases hfirst
        exact ⟨behind, rfl⟩
  have hrest := (List.nodup_cons.mp hnodup).2
  have hlinked : s.Linked (b :: behind) :=
    (List.isChain_append.mp (List.isChain_cons_cons.mp hring).2).1
  have ha : a ∉ (b :: behind).dropLast := by
    rw [hfront, List.dropLast_concat]
    intro hmem
    rw [hfront] at hrest
    exact (List.nodup_append.mp hrest).2.2 a hmem a (by simp) rfl
  have hkept : (s.join a b).Linked (b :: behind) :=
    hlinked.join ha (List.nodup_cons.mp hrest).1
  change (s.join a b).Linked (b :: behind ++ [b])
  have hshape : b :: behind ++ [b] = front ++ a :: [b] := by
    rw [hfront]
    simp
  rw [hshape]
  refine List.isChain_append_cons_cons.mpr ⟨?_, s.join_self a b, .singleton b⟩
  rw [← hfront]
  exact hkept

/-- Join the neighbours of a node of a ring to take it out. -/
theorem Ring.unlink (hring : s.Ring (front ++ x :: back))
    (hnodup : (front ++ x :: back).Nodup)
    (hfirst : (back ++ front).head? = some b)
    (hlast : (back ++ front).getLast? = some a) :
    (s.join a b).Ring (front ++ back) := by
  have hperm : (x :: (back ++ front)).Perm (front ++ x :: back) :=
    @List.perm_append_comm _ (x :: back) front
  exact Ring.rotate
    (Ring.pop hring.rotate (hperm.nodup_iff.mpr hnodup) hfirst hlast)

end Links

end LinuxTest
