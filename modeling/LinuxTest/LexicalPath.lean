/-
Paths resolved by their names alone.  A path is a list of steps; going up at the
root stays there.  Every relative path is some steps up followed by names, and
that form says where it leads from any directory.
-/
import Mathlib.Data.List.Basic
import Mathlib.Data.List.Infix
import Mathlib.Tactic.Common

namespace LinuxTest

universe u

variable {N : Type u}

/-- One component of a path. -/
inductive PathStep (N : Type u) where
  | stay
  | up
  | down (name : N)
deriving DecidableEq, Repr

/-- Follow the steps from a directory, given by its names from the root. -/
def resolve (dir : List N) : List (PathStep N) → List N
  | [] => dir
  | .stay :: rest => resolve dir rest
  | .up :: rest => resolve dir.dropLast rest
  | .down name :: rest => resolve (dir ++ [name]) rest

/-- Cancel each name against a later step up: what is left is a number of steps
up and then names. -/
def reduceFrom (ups : Nat) (names : List N) :
    List (PathStep N) → Nat × List N
  | [] => (ups, names)
  | .stay :: rest => reduceFrom ups names rest
  | .up :: rest =>
      match names with
      | [] => reduceFrom (ups + 1) [] rest
      | _ :: _ => reduceFrom ups names.dropLast rest
  | .down name :: rest => reduceFrom ups (names ++ [name]) rest

def reduce (steps : List (PathStep N)) : Nat × List N :=
  reduceFrom 0 [] steps

theorem take_pred_dropLast (dir : List N) (ups : Nat) :
    (dir.take (dir.length - ups)).dropLast =
      dir.take (dir.length - (ups + 1)) := by
  rw [List.dropLast_eq_take, List.take_take, List.length_take]
  congr 1
  omega

/-- The reduced path leads where the path leads. -/
theorem resolve_reduceFrom (dir : List N) (ups : Nat) (names : List N)
    (steps : List (PathStep N)) :
    resolve (dir.take (dir.length - ups) ++ names) steps =
      dir.take (dir.length - (reduceFrom ups names steps).1) ++
        (reduceFrom ups names steps).2 := by
  induction steps generalizing ups names with
  | nil => rfl
  | cons step rest ih =>
      cases step with
      | stay => exact ih ups names
      | up =>
          cases names with
          | nil =>
              rw [resolve, List.append_nil, take_pred_dropLast,
                ← List.append_nil (dir.take (dir.length - (ups + 1))), ih]
              rfl
          | cons head tail =>
              rw [resolve, List.dropLast_append_of_ne_nil (by simp), ih]
              rfl
      | down name =>
          rw [resolve, List.append_assoc, ih]
          rfl

theorem resolve_eq (dir : List N) (steps : List (PathStep N)) :
    resolve dir steps =
      dir.take (dir.length - (reduce steps).1) ++ (reduce steps).2 := by
  simpa [reduce] using resolve_reduceFrom dir 0 [] steps

/-- Climbing `ups` steps and going down `names` ends in or below the directory
exactly when the names begin with the part climbed. -/
theorem prefix_take_append_iff (dir names : List N) (ups : Nat) :
    dir <+: dir.take (dir.length - ups) ++ names ↔
      dir.drop (dir.length - ups) <+: names := by
  have hinj : dir.take (dir.length - ups) ++ dir.drop (dir.length - ups) <+:
      dir.take (dir.length - ups) ++ names ↔
        dir.drop (dir.length - ups) <+: names :=
    List.prefix_append_right_inj _
  rwa [List.take_append_drop] at hinj

end LinuxTest
