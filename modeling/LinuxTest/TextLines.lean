/-
Texts made of lines that end in a pair of marks, such as a carriage return and
a line feed.  A text is cut at its first pair, or into its lines up to the first
empty one.
-/
import Mathlib.Data.List.Basic
import Mathlib.Data.List.Zip

namespace LinuxTest

variable {V : Type*} [DecidableEq V]

/-- Cut a text at its first pair of marks. -/
def cutPair (a b : V) : List V → Option (List V × List V)
  | first :: second :: rest =>
      if first = a ∧ second = b then some ([], rest)
      else (cutPair a b (second :: rest)).map fun parts =>
        (first :: parts.1, parts.2)
  | _ => none

/-- Cut a text into the lines before its first empty line, and what stands
behind that. -/
def cutLines (a b : V) : Nat → List V → Option (List (List V) × List V)
  | 0, _ => none
  | fuel + 1, text =>
      (cutPair a b text).bind fun parts =>
        if parts.1 = [] then some ([], parts.2)
        else (cutLines a b fuel parts.2).map fun lines =>
          (parts.1 :: lines.1, lines.2)

/-- How many pairs of marks a text holds. -/
def countPairs (a b : V) (text : List V) : Nat :=
  (text.zip text.tail).count (a, b)

variable {a b : V}

theorem cutPair_line {line : List V} (hline : a ∉ line) (rest : List V) :
    cutPair a b (line ++ a :: b :: rest) = some (line, rest) := by
  induction line with
  | nil => simp [cutPair]
  | cons first line ih =>
      rw [List.mem_cons, not_or] at hline
      obtain ⟨hfirst, hline⟩ := hline
      have hne : first ≠ a := Ne.symm hfirst
      cases line with
      | nil => simp [cutPair, hne]
      | cons second line =>
          rw [List.cons_append, List.cons_append, cutPair,
            if_neg (by simp [hne]), ← List.cons_append, ih hline]
          rfl

omit [DecidableEq V] in
/-- There are at least as many marks as lines. -/
theorem length_le_lines (a b : V) (lines : List (List V)) :
    lines.length ≤
      (lines.flatMap (fun line => line ++ [a, b])).length := by
  induction lines with
  | nil => simp
  | cons line lines ih =>
      simp only [List.flatMap_cons, List.length_append, List.length_cons]
      omega

/-- Lines that are not empty are cut off one by one, whatever follows the empty
line behind them. -/
theorem cutLines_lines {lines : List (List V)}
    (hlines : ∀ line ∈ lines, a ∉ line ∧ line ≠ []) (body : List V)
    {fuel : Nat} (hfuel : lines.length < fuel) :
    cutLines a b fuel
        (lines.flatMap (fun line => line ++ [a, b]) ++ a :: b :: body) =
      some (lines, body) := by
  induction lines generalizing fuel with
  | nil =>
      obtain ⟨fuel, rfl⟩ := Nat.exists_eq_add_one_of_ne_zero
        (Nat.ne_zero_of_lt hfuel)
      have hempty := cutPair_line (b := b) List.not_mem_nil (a := a) body
      rw [List.nil_append] at hempty
      rw [List.flatMap_nil, List.nil_append, cutLines, hempty]
      rfl
  | cons line lines ih =>
      obtain ⟨fuel, rfl⟩ := Nat.exists_eq_add_one_of_ne_zero
        (Nat.ne_zero_of_lt hfuel)
      rw [List.forall_mem_cons] at hlines
      obtain ⟨⟨hline, hne⟩, hrest⟩ := hlines
      have htext : (line :: lines).flatMap (fun line => line ++ [a, b]) ++
          a :: b :: body = line ++ a :: b ::
            (lines.flatMap (fun line => line ++ [a, b]) ++
              a :: b :: body) := by
        simp
      rw [htext, cutLines, cutPair_line hline, Option.bind_some,
        if_neg hne, ih hrest (by simpa using hfuel)]
      rfl

/-- A line without the first mark, and the pair that ends it, hold one pair. -/
theorem countPairs_line (hab : a ≠ b) {line : List V} (hline : a ∉ line)
    (rest : List V) :
    countPairs a b (line ++ a :: b :: rest) = countPairs a b rest + 1 := by
  induction line with
  | nil =>
      cases rest with
      | nil => simp [countPairs]
      | cons first rest => simp [countPairs, Ne.symm hab]
  | cons first line ih =>
      rw [List.mem_cons, not_or] at hline
      obtain ⟨hfirst, hline⟩ := hline
      rw [← ih hline]
      cases line with
      | nil => simp [countPairs, Ne.symm hfirst]
      | cons second line => simp [countPairs, Ne.symm hfirst]

end LinuxTest
