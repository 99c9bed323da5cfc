/-
Longest common subsequences, by the last elements of the two lists.
-/
import Mathlib.Order.Bounds.Basic
import Mathlib.Data.List.Basic

namespace LinuxTest

universe u

variable {T : Type u}

/-- The greatest length of a common subsequence. -/
def LongestCommon (xs ys : List T) (k : Nat) : Prop :=
  IsGreatest
    { n | ∃ zs : List T, zs.Sublist xs ∧ zs.Sublist ys ∧ zs.length = n } k

variable {xs ys zs : List T} {a b : T} {k p q : Nat}

theorem sublist_concat (h : zs.Sublist (xs ++ [a])) :
    zs.Sublist xs ∨ ∃ front, zs = front ++ [a] ∧ front.Sublist xs := by
  obtain ⟨front, last, rfl, hfront, hlast⟩ := List.sublist_append_iff.mp h
  rcases List.sublist_singleton.mp hlast with rfl | rfl
  · rw [List.append_nil]
    exact Or.inl hfront
  · exact Or.inr ⟨front, rfl, hfront⟩

theorem dropLast_sublist_of_concat (h : zs.Sublist (xs ++ [a])) :
    zs.dropLast.Sublist xs := by
  rcases sublist_concat h with hxs | ⟨front, rfl, hfront⟩
  · exact (List.dropLast_sublist zs).trans hxs
  · rwa [List.dropLast_concat]

theorem longestCommon_nil_left (ys : List T) : LongestCommon [] ys 0 := by
  refine ⟨⟨[], List.Sublist.refl _, List.nil_sublist ys, rfl⟩, ?_⟩
  rintro n ⟨zs, hxs, _, rfl⟩
  rw [List.sublist_nil.mp hxs]
  exact Nat.le_refl _

theorem LongestCommon.symm (h : LongestCommon xs ys k) :
    LongestCommon ys xs k := by
  obtain ⟨⟨zs, hxs, hys, hlength⟩, hgreatest⟩ := h
  refine ⟨⟨zs, hys, hxs, hlength⟩, ?_⟩
  rintro n ⟨other, hotherY, hotherX, hother⟩
  exact hgreatest ⟨other, hotherX, hotherY, hother⟩

theorem longestCommon_nil_right (xs : List T) : LongestCommon xs [] 0 :=
  (longestCommon_nil_left xs).symm

theorem LongestCommon.le_length (h : LongestCommon xs ys k) :
    k ≤ xs.length := by
  obtain ⟨⟨zs, hxs, _, rfl⟩, _⟩ := h
  exact hxs.length_le

theorem LongestCommon.length_le (h : LongestCommon xs ys k)
    (hxs : zs.Sublist xs) (hys : zs.Sublist ys) : zs.length ≤ k :=
  h.2 ⟨zs, hxs, hys, rfl⟩

/-- Equal last elements are always worth taking: a common subsequence without
them has room for them. -/
theorem LongestCommon.concat_same (h : LongestCommon xs ys k) (a : T) :
    LongestCommon (xs ++ [a]) (ys ++ [a]) (k + 1) := by
  obtain ⟨zs, hxs, hys, hlength⟩ := h.1
  refine ⟨⟨zs ++ [a], hxs.append_right [a], hys.append_right [a], ?_⟩, ?_⟩
  · rw [List.length_append, hlength, List.length_singleton]
  · rintro n ⟨other, hotherX, hotherY, rfl⟩
    have hfront := h.length_le (dropLast_sublist_of_concat hotherX)
      (dropLast_sublist_of_concat hotherY)
    rw [List.length_dropLast] at hfront
    omega

/-- Of two different last elements a common subsequence lacks one. -/
theorem LongestCommon.concat_other (hne : a ≠ b)
    (hleft : LongestCommon (xs ++ [a]) ys p)
    (hright : LongestCommon xs (ys ++ [b]) q) :
    LongestCommon (xs ++ [a]) (ys ++ [b]) (max p q) := by
  refine ⟨?_, ?_⟩
  · rcases le_total p q with hle | hle
    · obtain ⟨zs, hxs, hys, hlength⟩ := hright.1
      rw [max_eq_right hle]
      exact ⟨zs, hxs.trans (List.sublist_append_left xs [a]), hys, hlength⟩
    · obtain ⟨zs, hxs, hys, hlength⟩ := hleft.1
      rw [max_eq_left hle]
      exact ⟨zs, hxs, hys.trans (List.sublist_append_left ys [b]), hlength⟩
  · rintro n ⟨zs, hxs, hys, rfl⟩
    rcases sublist_concat hys with hys' | ⟨front, rfl, _⟩
    · exact (hleft.length_le hxs hys').trans (le_max_left p q)
    · rcases sublist_concat hxs with hxs' | ⟨other, hother, _⟩
      · exact (hright.length_le hxs' hys).trans (le_max_right p q)
      · have hlast := (List.append_inj' hother rfl).2
        exact absurd (List.cons.inj hlast).1.symm hne

end LinuxTest
