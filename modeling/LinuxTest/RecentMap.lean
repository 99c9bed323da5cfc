/-
A map of bounded size that gives up its least recently used entry.  Its entries
stand in order of use, the latest first; beside them stands the history of the
uses, by which the keys are judged.
-/
import LinuxTest.Recency

namespace LinuxTest

universe u v

variable {K : Type u} {V : Type v} [BEq K]

structure RecentMap (K : Type u) (V : Type v) where
  entries : List (K × V)
  uses : List K

namespace RecentMap

def empty : RecentMap K V :=
  ⟨[], []⟩

def keys (m : RecentMap K V) : List K :=
  m.entries.map Prod.fst

def lookup (m : RecentMap K V) (key : K) : Option V :=
  (m.entries.find? fun entry => entry.1 == key).map Prod.snd

/-- Give the key its value and move it to the front. -/
def put (bound : Nat) (key : K) (value : V) (m : RecentMap K V) :
    RecentMap K V where
  entries :=
    ((key, value) :: m.entries.eraseP fun entry => entry.1 == key).take bound
  uses := key :: m.uses

/-- A key that is found is used; a key that is not found changes nothing. -/
def get (bound : Nat) (key : K) (m : RecentMap K V) :
    Option V × RecentMap K V :=
  match m.lookup key with
  | none => (none, m)
  | some value => (some value, m.put bound key value)

/-- The keys are those used most recently. -/
def Recent (bound : Nat) (m : RecentMap K V) : Prop :=
  m.keys = (recency m.uses).take bound

variable {m : RecentMap K V} {bound : Nat} {key : K} {value : V}

theorem recent_empty : Recent bound (empty : RecentMap K V) :=
  List.take_nil.symm

theorem keys_put : (m.put bound key value).keys =
    (key :: m.keys.erase key).take bound := by
  have herase : (m.entries.eraseP fun entry => entry.1 == key).map Prod.fst =
      m.keys.erase key := by
    rw [keys, List.erase_eq_eraseP', List.eraseP_map]
    rfl
  rw [keys, put, List.map_take, List.map_cons, herase]

variable [LawfulBEq K]

theorem Recent.put (hm : m.Recent bound) :
    (m.put bound key value).Recent bound := by
  rw [Recent, keys_put, RecentMap.put, hm]
  cases bound with
  | zero => rfl
  | succ bound =>
      by_cases hmem : key ∈ (recency m.uses).take (bound + 1)
      · rw [take_recency_of_mem hmem]
        refine List.take_of_length_le ?_
        have hlength := List.length_erase_of_mem hmem
        have hpos := List.length_pos_of_mem hmem
        have hle : ((recency m.uses).take (bound + 1)).length ≤ bound + 1 :=
          List.length_take_le _ _
        rw [List.length_cons]
        omega
      · rw [take_recency_of_not_mem hmem, List.erase_of_not_mem hmem,
          List.take_succ_cons, List.take_take, Nat.min_eq_left (Nat.le_succ _)]

end RecentMap

end LinuxTest
