/-
Doubly linked lists as two tables of pointers.  The nodes of a list are linked
when each points to the next one and back; taking a node out and putting one in
are a few assignments to the tables.
-/
import Mathlib.Data.List.Chain
import Mathlib.Logic.Function.Basic

namespace LinuxTest

universe u

variable {N : Type u}

/-- The two pointers of every node, `none` for a null pointer. -/
structure Links (N : Type u) where
  next : N → Option N
  prev : N → Option N

namespace Links

/-- Each node of the list points to the one behind it, and that one back. -/
def Linked (s : Links N) (nodes : List N) : Prop :=
  nodes.IsChain fun a b => s.next a = some b ∧ s.prev b = some a

/-- From `a` the pointers lead over the given nodes to `b`. -/
def Leads (pointer : N → Option N) : N → List N → N → Prop
  | a, [], b => pointer a = some b
  | a, x :: nodes, b => pointer a = some x ∧ Leads pointer x nodes b

/-- The nodes between the ends of a linked list are met in both directions. -/
theorem Linked.leads_next {s : Links N} {a b : N} {nodes : List N}
    (h : s.Linked (a :: nodes ++ [b])) : Leads s.next a nodes b := by
  induction nodes generalizing a with
  | nil => exact (List.isChain_cons_cons.mp h).1.1
  | cons x nodes ih =>
      obtain ⟨hax, hrest⟩ := List.isChain_cons_cons.mp h
      exact ⟨hax.1, ih hrest⟩

theorem leads_concat {pointer : N → Option N} {a b c : N} {nodes : List N}
    (h : Leads pointer a nodes b) (hc : pointer b = some c) :
    Leads pointer a (nodes ++ [b]) c := by
  induction nodes generalizing a with
  | nil => exact ⟨h, hc⟩
  | cons x nodes ih => exact ⟨h.1, ih h.2⟩

theorem Linked.leads_prev {s : Links N} {a b : N} {nodes : List N}
    (h : s.Linked (a :: nodes ++ [b])) : Leads s.prev b nodes.reverse a := by
  induction nodes generalizing a with
  | nil => exact (List.isChain_cons_cons.mp h).1.2
  | cons x nodes ih =>
      obtain ⟨hax, hrest⟩ := List.isChain_cons_cons.mp h
      rw [List.reverse_cons]
      exact leads_concat (ih hrest) hax.2

/-- Neighbours of a linked list point to each other. -/
theorem Linked.neighbours {s : Links N} {front back : List N} {a b : N}
    (h : s.Linked (front ++ a :: b :: back)) :
    s.next a = some b ∧ s.prev b = some a :=
  (List.isChain_cons_cons.mp (List.isChain_split.mp h).2).1

variable [DecidableEq N]

def setNext (s : Links N) (a b : N) : Links N :=
  { s with next := Function.update s.next a (some b) }

def setPrev (s : Links N) (a b : N) : Links N :=
  { s with prev := Function.update s.prev a (some b) }

/-- Let `a` point to `b` and `b` back to `a`. -/
def join (s : Links N) (a b : N) : Links N :=
  (s.setNext a b).setPrev b a

theorem join_comm (s : Links N) {a b c d : N} (hac : a ≠ c) (hbd : b ≠ d) :
    (s.join a b).join c d = (s.join c d).join a b := by
  simp only [join, setNext, setPrev]
  rw [Function.update_comm hac, Function.update_comm hbd]

/-- Joining two nodes leaves a list alone in which the first has no successor
and the second no predecessor. -/
theorem Linked.join {s : Links N} {nodes : List N} (h : s.Linked nodes)
    {a b : N} (ha : a ∉ nodes.dropLast) (hb : b ∉ nodes.tail) :
    (s.join a b).Linked nodes := by
  induction nodes with
  | nil => exact .nil
  | cons x nodes ih =>
      cases nodes with
      | nil => exact .singleton x
      | cons y nodes =>
          obtain ⟨hxy, hrest⟩ := List.isChain_cons_cons.mp h
          rw [List.dropLast_cons_of_ne_nil (List.cons_ne_nil y nodes),
            List.mem_cons, not_or] at ha
          rw [List.tail_cons, List.mem_cons, not_or] at hb
          refine List.isChain_cons_cons.mpr ⟨⟨?_, ?_⟩, ih hrest ha.2 hb.2⟩
          · exact (Function.update_of_ne (Ne.symm ha.1) _ _).trans hxy.1
          · exact (Function.update_of_ne (Ne.symm hb.1) _ _).trans hxy.2

theorem join_self (s : Links N) (a b : N) :
    (s.join a b).next a = some b ∧ (s.join a b).prev b = some a :=
  ⟨Function.update_self _ _ _, Function.update_self _ _ _⟩

/-- Join the neighbours of a node to take it out. -/
theorem Linked.unlink {s : Links N} {front back : List N} {a x b : N}
    (h : s.Linked (front ++ a :: x :: b :: back))
    (hnodup : (front ++ a :: x :: b :: back).Nodup) :
    (s.join a b).Linked (front ++ a :: b :: back) := by
  obtain ⟨hfront, hax⟩ := List.isChain_split.mp h
  obtain ⟨_, hxb⟩ := List.isChain_cons_cons.mp hax
  obtain ⟨_, hback⟩ := List.isChain_cons_cons.mp hxb
  obtain ⟨_, hbehind, hapart⟩ := List.nodup_append.mp hnodup
  simp only [List.nodup_cons, List.mem_cons, not_or] at hbehind
  refine List.isChain_append_cons_cons.mpr
    ⟨Linked.join hfront ?_ ?_, s.join_self a b, Linked.join hback ?_ ?_⟩
  · rw [List.dropLast_concat]
    exact fun hmem => hapart a hmem a (by simp) rfl
  · intro hmem
    rcases List.mem_append.mp (List.mem_of_mem_tail hmem) with hin | hin
    · exact hapart b hin b (by simp) rfl
    · exact hbehind.1.2.1 (List.mem_singleton.mp hin).symm
  · intro hmem
    rcases List.mem_cons.mp (List.dropLast_subset _ hmem) with rfl | hin
    · exact hbehind.1.2.1 rfl
    · exact hbehind.1.2.2 hin
  · exact hbehind.2.2.1

/-- Join a node to two neighbours to put it between them. -/
theorem Linked.insert {s : Links N} {front back : List N} {a x b : N}
    (h : s.Linked (front ++ a :: b :: back))
    (hnodup : (front ++ a :: b :: back).Nodup)
    (hx : x ∉ front ++ a :: b :: back) :
    ((s.join a x).join x b).Linked (front ++ a :: x :: b :: back) := by
  obtain ⟨hfront, hab⟩ := List.isChain_split.mp h
  obtain ⟨_, hback⟩ := List.isChain_cons_cons.mp hab
  obtain ⟨_, hbehind, hapart⟩ := List.nodup_append.mp hnodup
  simp only [List.nodup_cons, List.mem_cons, not_or] at hbehind
  simp only [List.mem_append, List.mem_cons, not_or] at hx
  have hleft : ((s.join a x).join x b).Linked (front ++ [a]) := by
    refine Linked.join (Linked.join hfront ?_ ?_) ?_ ?_
    · rw [List.dropLast_concat]
      exact fun hmem => hapart a hmem a (by simp) rfl
    · exact fun hmem => by
        have hin := List.mem_of_mem_tail hmem
        simp only [List.mem_append, List.mem_singleton] at hin
        tauto
    · rw [List.dropLast_concat]
      exact hx.1
    · intro hmem
      rcases List.mem_append.mp (List.mem_of_mem_tail hmem) with hin | hin
      · exact hapart b hin b (by simp) rfl
      · exact hbehind.1.1 (List.mem_singleton.mp hin).symm
  have hright : ((s.join a x).join x b).Linked (b :: back) := by
    refine Linked.join (Linked.join hback ?_ hx.2.2.2) ?_ hbehind.2.1
    · intro hmem
      have hin := List.mem_cons.mp (List.dropLast_subset _ hmem)
      tauto
    · intro hmem
      have hin := List.mem_cons.mp (List.dropLast_subset _ hmem)
      tauto
  have hax : ((s.join a x).join x b).next a = some x ∧
      ((s.join a x).join x b).prev x = some a := by
    obtain ⟨hnext, hprev⟩ := s.join_self a x
    have hne : a ≠ x := fun heq => hx.2.1 heq.symm
    exact ⟨(Function.update_of_ne hne _ _).trans hnext,
      (Function.update_of_ne hx.2.2.1 _ _).trans hprev⟩
  refine List.isChain_append_cons_cons.mpr ⟨hleft, hax, ?_⟩
  exact List.isChain_cons_cons.mpr ⟨Links.join_self _ x b, hright⟩

/-- Put a node behind the first. -/
theorem Linked.pushFront {s : Links N} {nodes : List N} {h x t : N}
    (hlinked : s.Linked (h :: nodes ++ [t]))
    (hnodup : (h :: nodes ++ [t]).Nodup)
    (hx : x ∉ h :: nodes ++ [t]) :
    ∃ temp, s.next h = some temp ∧ temp ≠ x ∧
      ((s.join h x).join x temp).Linked (h :: x :: nodes ++ [t]) := by
  obtain ⟨temp, behind, hrest⟩ :
      ∃ temp behind, nodes ++ [t] = temp :: behind :=
    List.exists_cons_of_ne_nil (by simp)
  have hshape : h :: nodes ++ [t] = h :: temp :: behind :=
    congrArg (h :: ·) hrest
  rw [hshape] at hlinked hnodup hx
  have hpushed :=
    @Linked.insert N _ s [] behind h x temp hlinked hnodup hx
  refine ⟨temp, (@Linked.neighbours _ _ [] _ _ _ hlinked).1, ?_, ?_⟩
  · rintro rfl
    exact hx (by simp)
  · rw [List.cons_append, List.cons_append, hrest]
    exact hpushed

/-- Put a node behind the first, and only then join its old neighbours. -/
theorem Linked.toFront {s : Links N} {front back : List N} {h t a x b : N}
    {middle : List N}
    (hlinked : s.Linked (h :: t :: middle ++ x :: b :: back))
    (hnodup : (h :: t :: middle ++ x :: b :: back).Nodup)
    (hlast : t :: middle = front ++ [a]) :
    (((s.join h x).join x t).join a b).Linked
      (h :: x :: t :: middle ++ b :: back) := by
  have hsplit : h :: t :: middle ++ x :: b :: back =
      (h :: front) ++ a :: x :: b :: back := by
    rw [hlast]
    simp
  have hout : h :: t :: middle ++ b :: back =
      (h :: front) ++ a :: b :: back := by
    rw [hlast]
    simp
  have ha : a ∈ t :: middle := by
    rw [hlast]
    exact List.mem_append_right front (List.mem_singleton_self a)
  obtain ⟨hfirst, hrest⟩ := List.nodup_cons.mp hnodup
  obtain ⟨_, hxb, hapart⟩ := List.nodup_append.mp hrest
  have hha : h ≠ a := by
    rintro rfl
    exact hfirst (List.mem_append_left _ ha)
  have hxt : ∀ y ∈ t :: middle, y ≠ x ∧ y ≠ b := fun y hy =>
    ⟨hapart y hy x (by simp), hapart y hy b (by simp)⟩
  have hxnb : x ≠ b := fun heq => (List.nodup_cons.mp hxb).1 (by simp [heq])
  rw [join_comm _ (hxt a ha).1.symm (hxt t List.mem_cons_self).2,
    join_comm s hha hxnb]
  have hunlinked : (s.join a b).Linked (h :: t :: middle ++ b :: back) := by
    rw [hout]
    exact (hsplit ▸ hlinked).unlink (hsplit ▸ hnodup)
  have hbefore : (h :: t :: middle ++ x :: b :: back).Perm
      (x :: (h :: t :: middle ++ b :: back)) := List.perm_middle
  obtain ⟨hx, hkept⟩ := List.nodup_cons.mp (hbefore.nodup_iff.mp hnodup)
  exact @Linked.insert N _ (s.join a b) [] (middle ++ b :: back) h x t
    hunlinked hkept hx

end Links

end LinuxTest
