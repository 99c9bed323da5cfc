/-
Keys in order of most recent use.  A history lists uses, the latest first; a
key counts where it was used last.  The first keys of this order are what a
cache of bounded size keeps when it gives up the least recently used key.
-/
import Mathlib.Data.List.Nodup
import Mathlib.Tactic.Common

namespace LinuxTest

universe u

variable {K : Type u} [BEq K]

/-- The distinct keys of a history, the most recently used first. -/
def recency : List K → List K
  | [] => []
  | key :: older => key :: (recency older).erase key

variable [LawfulBEq K]

theorem nodup_recency (history : List K) : (recency history).Nodup := by
  induction history with
  | nil => exact List.nodup_nil
  | cons key older ih =>
      exact List.nodup_cons.mpr ⟨ih.not_mem_erase, ih.erase key⟩

/-- An earlier key of the order was used later. -/
theorem recency_pairwise_idxOf (history : List K) :
    (recency history).Pairwise fun first last =>
      history.idxOf first < history.idxOf last := by
  induction history with
  | nil => exact List.Pairwise.nil
  | cons key older ih =>
      have hold : ((recency older).erase key).Pairwise fun first last =>
          older.idxOf first < older.idxOf last :=
        ih.sublist List.erase_sublist
      have hne : ∀ other ∈ (recency older).erase key, key ≠ other := by
        rintro other hother rfl
        exact (nodup_recency older).not_mem_erase hother
      refine List.pairwise_cons.mpr ⟨?_, ?_⟩
      · intro other hother
        simp [List.idxOf_cons_ne older (hne other hother)]
      · refine hold.imp_of_mem ?_
        intro first last hfirst hlast hlt
        rw [List.idxOf_cons_ne older (hne first hfirst),
          List.idxOf_cons_ne older (hne last hlast)]
        exact Nat.succ_lt_succ hlt

/-- A use of one of the first `bound` keys moves it to the front. -/
theorem take_recency_of_mem {bound : Nat} {key : K} {history : List K}
    (hmem : key ∈ (recency history).take bound) :
    (recency (key :: history)).take bound =
      key :: ((recency history).take bound).erase key := by
  cases bound with
  | zero => simp at hmem
  | succ bound =>
      have hsplit : (recency history).erase key =
          ((recency history).take (bound + 1)).erase key ++
            (recency history).drop (bound + 1) := by
        rw [← List.erase_append_left _ hmem, List.take_append_drop]
      have hlength := List.length_erase_of_mem hmem
      rw [List.length_take] at hlength
      rw [recency, List.take_succ_cons, hsplit, List.take_append,
        List.take_of_length_le (by omega)]
      congr 1
      by_cases hlong : (recency history).length ≤ bound + 1
      · simp [List.drop_eq_nil_of_le hlong]
      · have hfull : bound -
            (((recency history).take (bound + 1)).erase key).length = 0 := by
          omega
        simp [hfull]

/-- A use of any other key puts it before the first `bound - 1` keys. -/
theorem take_recency_of_not_mem {bound : Nat} {key : K} {history : List K}
    (hmem : key ∉ (recency history).take (bound + 1)) :
    (recency (key :: history)).take (bound + 1) =
      key :: (recency history).take bound := by
  have hfront : key ∉ (recency history).take bound := fun hin =>
    hmem ((List.take_sublist_take_left (Nat.le_succ bound)).subset hin)
  have hsplit : (recency history).erase key =
      (recency history).take bound ++
        ((recency history).drop bound).erase key := by
    rw [← List.erase_append_right _ hfront, List.take_append_drop]
  rw [recency, List.take_succ_cons, hsplit, List.take_append,
    List.take_of_length_le (List.length_take_le _ _)]
  congr 1
  by_cases hlong : (recency history).length ≤ bound
  · simp [List.drop_eq_nil_of_le hlong]
  · have hfull : bound - ((recency history).take bound).length = 0 := by
      rw [List.length_take]
      omega
    rw [hfull, List.take_zero, List.append_nil]

end LinuxTest
