/-
One pass of bubble sort over a list: the greatest element so far is carried
along, and the place of the last exchange is kept.  From that place on the
result is sorted, and nothing before it is greater than anything behind it.
-/
import Mathlib.Order.Lattice
import Mathlib.Data.List.Perm.Basic
import Mathlib.Tactic.Common

namespace LinuxTest

universe u

variable {T : Type u} [LinearOrder T]

/-- Carry `x` over the list, whose first element is at place `p`. -/
def bubblePass (x : T) : List T → Nat → Nat → List T × Nat
  | [], _, last => ([x], last)
  | y :: rest, p, last =>
      if y < x then
        let (passed, last) := bubblePass x rest (p + 1) p
        (y :: passed, last)
      else
        let (passed, last) := bubblePass y rest (p + 1) last
        (x :: passed, last)

/-- From place `k` on the list is final. -/
def Settled (list : List T) (k : Nat) : Prop :=
  (list.drop k).Pairwise (· ≤ ·) ∧
    ∀ a ∈ list.take k, ∀ b ∈ list.drop k, a ≤ b

variable {x y : T} {done rest : List T} {p last k : Nat}

theorem bubblePass_cons_lt (h : y < x) :
    bubblePass x (y :: rest) p last =
      (y :: (bubblePass x rest (p + 1) p).1,
        (bubblePass x rest (p + 1) p).2) := by
  rw [bubblePass, if_pos h]

theorem bubblePass_cons_ge (h : ¬y < x) :
    bubblePass x (y :: rest) p last =
      (x :: (bubblePass y rest (p + 1) last).1,
        (bubblePass y rest (p + 1) last).2) := by
  rw [bubblePass, if_neg h]

theorem bubblePass_perm (x : T) (rest : List T) (p last : Nat) :
    (bubblePass x rest p last).1.Perm (x :: rest) := by
  induction rest generalizing x p last with
  | nil => exact List.Perm.refl _
  | cons y rest ih =>
      by_cases h : y < x
      · rw [bubblePass_cons_lt h]
        exact ((ih x (p + 1) p).cons y).trans (List.Perm.swap x y rest)
      · rw [bubblePass_cons_ge h]
        exact (ih y (p + 1) last).cons x

/-- A greatest element at the end is passed by. -/
theorem bubblePass_concat {z : T} (hz : ∀ a ∈ x :: rest, a ≤ z) :
    bubblePass x (rest ++ [z]) p last =
      ((bubblePass x rest p last).1 ++ [z], (bubblePass x rest p last).2) := by
  induction rest generalizing x p last with
  | nil =>
      rw [List.nil_append,
        bubblePass_cons_ge (not_lt.mpr (hz x List.mem_cons_self))]
      rfl
  | cons y rest ih =>
      rw [List.cons_append]
      by_cases h : y < x
      · have hrest : ∀ a ∈ x :: rest, a ≤ z := fun a ha =>
          (List.mem_cons.mp ha).elim (fun heq => hz a (by simp [heq]))
            fun hmem => hz a (by simp [hmem])
        rw [bubblePass_cons_lt h, bubblePass_cons_lt h, ih hrest]
        rfl
      · rw [bubblePass_cons_ge h, bubblePass_cons_ge h,
          ih fun a ha => hz a (List.mem_cons_of_mem x ha)]
        rfl

theorem Settled.carried (h : Settled (done ++ [x]) k) (hk : k ≤ done.length) :
    ∀ a ∈ done, a ≤ x := by
  intro a ha
  obtain ⟨hsorted, hbefore⟩ := h
  rw [List.drop_append_of_le_length hk] at hsorted hbefore
  rw [List.take_append_of_le_length hk] at hbefore
  rw [← List.take_append_drop k done] at ha
  rcases List.mem_append.mp ha with hfront | hback
  · exact hbefore a hfront x (by simp)
  · exact (List.pairwise_append.mp hsorted).2.2 a hback x (by simp)

/-- An exchange settles what is carried only. -/
theorem Settled.swap (h : Settled (done ++ [x]) k) (hk : k ≤ done.length)
    (hlt : y < x) : Settled ((done ++ [y]) ++ [x]) (done.length + 1) := by
  have hlength : (done ++ [y]).length = done.length + 1 := by simp
  rw [Settled, List.drop_left' hlength, List.take_left' hlength]
  refine ⟨List.pairwise_singleton _ x, ?_⟩
  intro a ha b hb
  rw [List.mem_singleton.mp hb]
  rcases List.mem_append.mp ha with hdone | hnew
  · exact h.carried hk a hdone
  · exact (List.mem_singleton.mp hnew) ▸ le_of_lt hlt

/-- Without an exchange the sorted part is one longer. -/
theorem Settled.keep (h : Settled (done ++ [x]) k) (hk : k ≤ done.length)
    (hle : x ≤ y) : Settled ((done ++ [x]) ++ [y]) k := by
  have hk' : k ≤ (done ++ [x]).length := by
    rw [List.length_append]
    omega
  have hall : ∀ a ∈ done ++ [x], a ≤ y := by
    intro a ha
    rcases List.mem_append.mp ha with hdone | hlast
    · exact le_trans (h.carried hk a hdone) hle
    · exact (List.mem_singleton.mp hlast) ▸ hle
  obtain ⟨hsorted, hbefore⟩ := h
  rw [Settled, List.drop_append_of_le_length hk',
    List.take_append_of_le_length hk']
  refine ⟨List.pairwise_append.mpr ⟨hsorted, List.pairwise_singleton _ y, ?_⟩,
    ?_⟩
  · intro a ha b hb
    rw [List.mem_singleton.mp hb]
    exact hall a (List.mem_of_mem_drop ha)
  · intro a ha b hb
    rcases List.mem_append.mp hb with hin | hnew
    · exact hbefore a ha b hin
    · rw [List.mem_singleton.mp hnew]
      exact hall a (List.mem_of_mem_take ha)

/-- What holds in the middle of a pass holds at its end. -/
theorem bubblePass_settled_from {start : Nat} (h : Settled (done ++ [x]) k)
    (hk : k ≤ done.length) (hp : p = start + done.length + 1)
    (hlast : last = start + k) :
    ∃ k', (bubblePass x rest p last).2 = start + k' ∧
      k' ≤ done.length + rest.length ∧
      Settled (done ++ (bubblePass x rest p last).1) k' := by
  induction rest generalizing done x p last k with
  | nil => exact ⟨k, hlast, hk, h⟩
  | cons y rest ih =>
      by_cases hlt : y < x
      · obtain ⟨k', hplace, hbound, hsettled⟩ :=
          @ih x (done ++ [y]) (p + 1) p (done.length + 1) (h.swap hk hlt)
            (by simp) (by simp; omega) (by omega)
        rw [bubblePass_cons_lt hlt]
        refine ⟨k', hplace, ?_, by simpa using hsettled⟩
        simp only [List.length_append, List.length_cons, List.length_nil]
          at hbound ⊢
        omega
      · obtain ⟨k', hplace, hbound, hsettled⟩ :=
          @ih y (done ++ [x]) (p + 1) last k (h.keep hk (not_lt.mp hlt))
            (by simp; omega) (by simp; omega) hlast
        rw [bubblePass_cons_ge hlt]
        refine ⟨k', hplace, ?_, by simpa using hsettled⟩
        simp only [List.length_append, List.length_cons, List.length_nil]
          at hbound ⊢
        omega

/-- A pass from the first place on is settled from its last exchange on. -/
theorem bubblePass_settled (x : T) (rest : List T) (start : Nat) :
    ∃ k, (bubblePass x rest (start + 1) start).2 = start + k ∧
      k ≤ rest.length ∧
      Settled (bubblePass x rest (start + 1) start).1 k := by
  have hfirst : Settled ([] ++ [x]) 0 :=
    ⟨List.pairwise_singleton _ x, fun a ha => absurd ha List.not_mem_nil⟩
  have hpass := @bubblePass_settled_from T _ x [] rest (start + 1) start 0 start
    hfirst (Nat.le_refl 0) rfl rfl
  simpa using hpass

/-- A settled list in front of a sorted one that is nowhere less. -/
theorem Settled.append {list behind : List T} (h : Settled list k)
    (hbehind : behind.Pairwise (· ≤ ·))
    (hle : ∀ a ∈ list, ∀ b ∈ behind, a ≤ b) :
    (list.drop k ++ behind).Pairwise (· ≤ ·) ∧
      ∀ a ∈ list.take k, ∀ b ∈ list.drop k ++ behind, a ≤ b := by
  refine ⟨List.pairwise_append.mpr ⟨h.1, hbehind, ?_⟩, ?_⟩
  · exact fun a ha b hb => hle a (List.mem_of_mem_drop ha) b hb
  · intro a ha b hb
    rcases List.mem_append.mp hb with hin | hout
    · exact h.2 a ha b hin
    · exact hle a (List.mem_of_mem_take ha) b hout

/-- The element at the place of the last exchange is the greatest up to it. -/
theorem Settled.split {list behind : List T} (h : Settled list k)
    (hk : k < list.length) (hbehind : behind.Pairwise (· ≤ ·))
    (hle : ∀ a ∈ list, ∀ b ∈ behind, a ≤ b) :
    list ++ behind = list.take k ++ list[k] :: (list.drop (k + 1) ++ behind) ∧
      (∀ a ∈ list.take k, a ≤ list[k]) ∧
      (list[k] :: (list.drop (k + 1) ++ behind)).Pairwise (· ≤ ·) := by
  obtain ⟨hsorted, hbefore⟩ := h.append hbehind hle
  have hdrop := List.drop_eq_getElem_cons hk
  rw [hdrop, List.cons_append] at hsorted hbefore
  refine ⟨?_, fun a ha => hbefore a ha _ List.mem_cons_self, hsorted⟩
  rw [← List.cons_append, ← hdrop, ← List.append_assoc, List.take_append_drop]

/-- A pass in front of a sorted list leaves, at the place of its last exchange,
a greatest element of what it still has to order. -/
theorem bubblePass_split {x : T} {rest behind : List T} (start : Nat)
    (hbehind : behind.Pairwise (· ≤ ·))
    (hle : ∀ a ∈ x :: rest, ∀ b ∈ behind, a ≤ b) :
    ∃ below m above,
      (bubblePass x rest (start + 1) start).1 ++ behind =
        below ++ m :: above ∧
      (bubblePass x rest (start + 1) start).2 = start + below.length ∧
      below.length ≤ rest.length ∧ (∀ a ∈ below, a ≤ m) ∧
      (m :: above).Pairwise (· ≤ ·) := by
  obtain ⟨k, hlast, hk, hsettled⟩ := bubblePass_settled x rest start
  have hperm := bubblePass_perm x rest (start + 1) start
  generalize bubblePass x rest (start + 1) start = passed at *
  obtain ⟨list, last⟩ := passed
  dsimp only at hlast hsettled hperm ⊢
  have hlength := hperm.length_eq
  rw [List.length_cons] at hlength
  obtain ⟨hshape, hgreatest, hsorted⟩ := hsettled.split (by omega) hbehind
    fun a ha b hb => hle a (hperm.subset ha) b hb
  have htake : (list.take k).length = k := by
    rw [List.length_take]
    omega
  exact ⟨list.take k, _, _, hshape, by rw [hlast, htake],
    by rw [htake]; exact hk, hgreatest, hsorted⟩

end LinuxTest
