/-
Searching a sorted list by probes.  The places where the element may still be
are those of a window: everything before it is less, everything behind it
greater.
-/
import Mathlib.Order.Lattice
import Mathlib.Data.List.Basic

namespace LinuxTest

universe u

variable {T : Type u} [LinearOrder T]

/-- The window from `start` to `stop` is where `e` can be. -/
structure Window (list : List T) (e : T) (start stop : Nat) : Prop where
  ordered : start ≤ stop
  inside : stop ≤ list.length
  before : ∀ i (h : i < list.length), i < start → list[i] < e
  behind : ∀ i (h : i < list.length), stop ≤ i → e < list[i]

/-- The place of an element equal to `e`, or the end where there is none. -/
def Finds (list : List T) (e : T) (place : Nat) : Prop :=
  if e ∈ list then list[place]? = some e else place = list.length

variable {list : List T} {e : T} {start stop : Nat}

theorem Window.whole (list : List T) (e : T) : Window list e 0 list.length where
  ordered := Nat.zero_le _
  inside := Nat.le_refl _
  before := fun _ _ hlt => absurd hlt (Nat.not_lt_zero _)
  behind := fun _ h hle => absurd h (Nat.not_lt.mpr hle)

theorem pairwise_getElem_le (hsorted : list.Pairwise (· ≤ ·)) {i j : Nat}
    (hij : i ≤ j) (hj : j < list.length) : list[i] ≤ list[j] := by
  rcases Nat.lt_or_eq_of_le hij with hlt | rfl
  · exact List.pairwise_iff_getElem.mp hsorted i j _ hj hlt
  · exact le_refl _

/-- A lesser element moves the start behind it. -/
theorem Window.above (h : Window list e start stop)
    (hsorted : list.Pairwise (· ≤ ·)) {mid : Nat} (hmid : mid < stop)
    (hin : mid < list.length) (hlt : list[mid] < e) :
    Window list e (mid + 1) stop where
  ordered := hmid
  inside := h.inside
  before := fun _ _ hi => lt_of_le_of_lt
    (pairwise_getElem_le hsorted (Nat.le_of_lt_succ hi) _) hlt
  behind := h.behind

/-- A greater element moves the end before it. -/
theorem Window.below (h : Window list e start stop)
    (hsorted : list.Pairwise (· ≤ ·)) {mid : Nat} (hstart : start ≤ mid)
    (hin : mid < list.length) (hlt : e < list[mid]) :
    Window list e start mid where
  ordered := hstart
  inside := Nat.le_of_lt hin
  before := h.before
  behind := fun _ hi hle =>
    lt_of_lt_of_le hlt (pairwise_getElem_le hsorted hle hi)

/-- Nothing is found in an empty window. -/
theorem Window.absent (h : Window list e start stop) (hempty : stop ≤ start) :
    Finds list e list.length := by
  have hnot : e ∉ list := by
    intro hmem
    obtain ⟨i, hi, heq⟩ := List.getElem_of_mem hmem
    rcases Nat.lt_or_ge i start with hlt | hge
    · exact absurd heq (ne_of_lt (h.before i hi hlt))
    · exact absurd heq (ne_of_gt (h.behind i hi (Nat.le_trans hempty hge)))
  exact (if_neg hnot).mpr rfl

/-- An element that is neither less nor greater is found. -/
theorem finds_at {mid : Nat} (hmid : mid < list.length) (hge : ¬list[mid] < e)
    (hle : ¬e < list[mid]) : Finds list e mid := by
  have heq : list[mid] = e := le_antisymm (not_lt.mp hle) (not_lt.mp hge)
  have hmem : e ∈ list := heq ▸ List.getElem_mem hmid
  refine (if_pos hmem).mpr ?_
  rw [List.getElem?_eq_getElem hmid, heq]

end LinuxTest
