/-
An ordered map as `std::map` keeps it: entries sorted by a comparison that
reads a key only through `rank`.  Two keys of one rank are the same key to the
map, and assigning to an existing key keeps the spelling first inserted.
-/
import Mathlib.Data.List.Find
import Mathlib.Data.List.Induction
import Mathlib.Data.List.Lex
import Mathlib.Order.Lattice
import Mathlib.Data.List.Pairwise

namespace LinuxTest

universe u v w

variable {K : Type u} {V : Type v} {R : Type w} [LinearOrder R]

/-- Entries in strictly increasing order of rank. -/
structure OrderedMap (V : Type v) (rank : K → R) where
  entries : List (K × V)
  sorted : entries.Pairwise fun first last => rank first.1 < rank last.1

namespace OrderedMap

variable {rank : K → R}

def empty : OrderedMap V rank := ⟨[], List.Pairwise.nil⟩

/-- `m[key] = value` on the sorted entries. -/
def insertEntry (rank : K → R) (key : K) (value : V) :
    List (K × V) → List (K × V)
  | [] => [(key, value)]
  | entry :: rest =>
      if rank key < rank entry.1 then (key, value) :: entry :: rest
      else if rank entry.1 < rank key then
        entry :: insertEntry rank key value rest
      else (entry.1, value) :: rest

theorem insertEntry_rank {key : K} {value : V} {entries : List (K × V)}
    {entry : K × V} (hentry : entry ∈ insertEntry rank key value entries) :
    rank entry.1 = rank key ∨ entry ∈ entries ∨
      ∃ old ∈ entries, rank old.1 = rank entry.1 := by
  induction entries with
  | nil =>
      simp only [insertEntry, List.mem_singleton] at hentry
      exact Or.inl (by rw [hentry])
  | cons head tail ih =>
      rw [insertEntry] at hentry
      split at hentry
      · rcases List.mem_cons.mp hentry with rfl | hold
        · exact Or.inl rfl
        · exact Or.inr (Or.inl hold)
      split at hentry
      · rcases List.mem_cons.mp hentry with rfl | htail
        · exact Or.inr (Or.inl List.mem_cons_self)
        · rcases ih htail with hrank | hold | ⟨old, hold, hrank⟩
          · exact Or.inl hrank
          · exact Or.inr (Or.inl (List.mem_cons_of_mem head hold))
          · exact Or.inr (Or.inr ⟨old, List.mem_cons_of_mem head hold, hrank⟩)
      · rcases List.mem_cons.mp hentry with rfl | hold
        · exact Or.inr (Or.inr ⟨head, List.mem_cons_self, rfl⟩)
        · exact Or.inr (Or.inl (List.mem_cons_of_mem head hold))

theorem insertEntry_sorted (key : K) (value : V) {entries : List (K × V)}
    (hsorted : entries.Pairwise fun first last =>
      rank first.1 < rank last.1) :
    (insertEntry rank key value entries).Pairwise fun first last =>
      rank first.1 < rank last.1 := by
  induction entries with
  | nil => simp [insertEntry]
  | cons head tail ih =>
      obtain ⟨hhead, htail⟩ := List.pairwise_cons.mp hsorted
      rw [insertEntry]
      split
      · case isTrue hlt =>
          refine List.pairwise_cons.mpr ⟨?_, hsorted⟩
          intro entry hentry
          rcases List.mem_cons.mp hentry with rfl | hentry
          · exact hlt
          · exact hlt.trans (hhead entry hentry)
      split
      · case isTrue _ hgt =>
          refine List.pairwise_cons.mpr ⟨?_, ih htail⟩
          intro entry hentry
          rcases insertEntry_rank hentry with hrank | hold |
            ⟨old, hold, hrank⟩
          · exact hrank ▸ hgt
          · exact hhead entry hold
          · exact hrank ▸ hhead old hold
      · exact List.pairwise_cons.mpr ⟨hhead, htail⟩

/-- `m[key] = value`. -/
def insert (m : OrderedMap V rank) (key : K) (value : V) :
    OrderedMap V rank :=
  ⟨insertEntry rank key value m.entries,
    insertEntry_sorted key value m.sorted⟩

/-- The value stored under a key. -/
def find? (m : OrderedMap V rank) (key : K) : Option V :=
  (m.entries.find? fun entry => rank entry.1 = rank key).map Prod.snd

@[simp] theorem find?_empty (key : K) :
    (empty : OrderedMap V rank).find? key = none := rfl

theorem find?_congr (m : OrderedMap V rank) {key other : K}
    (hrank : rank key = rank other) : m.find? key = m.find? other := by
  simp only [find?, hrank]

theorem find?_insert (m : OrderedMap V rank) (key : K) (value : V)
    (other : K) : (m.insert key value).find? other =
      if rank other = rank key then some value else m.find? other := by
  obtain ⟨entries, hsorted⟩ := m
  simp only [find?, insert]
  clear hsorted
  induction entries with
  | nil =>
      by_cases heq : rank other = rank key
      · simp [insertEntry, heq]
      · simp [insertEntry, heq, Ne.symm heq]
  | cons head tail ih =>
      rw [insertEntry]
      split
      · by_cases heq : rank other = rank key
        · simp [heq]
        · rw [List.find?_cons_of_neg (by simpa using Ne.symm heq), if_neg heq]
      split
      · case isTrue _ hgt =>
          by_cases hhead : rank head.1 = rank other
          · have hne : rank other ≠ rank key := hhead ▸ hgt.ne
            simp [hhead, hne]
          · rw [List.find?_cons_of_neg (by simpa using hhead), ih,
              List.find?_cons_of_neg (by simpa using hhead)]
      · case isFalse hlt hgt =>
          have hsame : rank head.1 = rank key :=
            le_antisymm (not_lt.mp hlt) (not_lt.mp hgt)
          by_cases heq : rank other = rank key
          · simp [hsame, heq]
          · simp [hsame, heq, Ne.symm heq]

/-- An entry is what its key finds. -/
theorem find?_of_mem (m : OrderedMap V rank) {entry : K × V}
    (hentry : entry ∈ m.entries) : m.find? entry.1 = some entry.2 := by
  obtain ⟨entries, hsorted⟩ := m
  simp only [find?] at hentry ⊢
  induction entries with
  | nil => cases hentry
  | cons head tail ih =>
      obtain ⟨hhead, htail⟩ := List.pairwise_cons.mp hsorted
      rcases List.mem_cons.mp hentry with rfl | hentry
      · simp
      · have hne : rank head.1 ≠ rank entry.1 := (hhead entry hentry).ne
        rw [List.find?_cons_of_neg (by simpa using hne)]
        exact ih htail hentry

/-- What a key finds is an entry under some spelling of the key. -/
theorem mem_of_find? (m : OrderedMap V rank) {key : K} {value : V}
    (hfind : m.find? key = some value) :
    ∃ own, rank own = rank key ∧ (own, value) ∈ m.entries := by
  rw [find?, Option.map_eq_some_iff] at hfind
  obtain ⟨entry, hfind, rfl⟩ := hfind
  exact ⟨entry.1, by simpa using List.find?_some hfind,
    List.mem_of_find?_eq_some hfind⟩

/-- Assign the entries one after another. -/
def insertAll (m : OrderedMap V rank) (pairs : List (K × V)) :
    OrderedMap V rank :=
  pairs.foldl (fun m pair => m.insert pair.1 pair.2) m

theorem insertAll_append (m : OrderedMap V rank) (first last : List (K × V)) :
    m.insertAll (first ++ last) = (m.insertAll first).insertAll last := by
  simp only [insertAll, List.foldl_append]

/-- The last value that the entries give to a key. -/
def lastGiven (rank : K → R) (pairs : List (K × V)) (key : K) : Option V :=
  (pairs.reverse.find? fun pair => rank pair.1 = rank key).map Prod.snd

theorem lastGiven_eq_none_iff {pairs : List (K × V)} {key : K} :
    lastGiven rank pairs key = none ↔
      ∀ pair ∈ pairs, rank pair.1 ≠ rank key := by
  simp [lastGiven]

/-- The last value, searched for among what the pairs were made from. -/
theorem lastGiven_map {A : Type*} {items : List A} {make : A → K × V}
    {key : K} {given : A → Bool}
    (hgiven : ∀ item ∈ items,
      rank (make item).1 = rank key ↔ given item = true) :
    lastGiven rank (items.map make) key =
      (items.reverse.find? given).map fun item => (make item).2 := by
  have hsame : ∀ item ∈ items.reverse,
      ((fun pair : K × V => decide (rank pair.1 = rank key)) ∘ make) item =
        given item := by
    intro item hitem
    rw [Bool.eq_iff_iff]
    simpa using hgiven item (List.mem_reverse.mp hitem)
  rw [lastGiven, ← List.map_reverse, List.find?_map, List.find?_congr hsame,
    Option.map_map]
  rfl

theorem mem_of_lastGiven {pairs : List (K × V)} {key : K} {value : V}
    (hlast : lastGiven rank pairs key = some value) :
    ∃ pair ∈ pairs, rank pair.1 = rank key := by
  rw [lastGiven, Option.map_eq_some_iff] at hlast
  obtain ⟨pair, hfind, _⟩ := hlast
  exact ⟨pair, List.mem_reverse.mp (List.mem_of_find?_eq_some hfind),
    by simpa using List.find?_some hfind⟩

/-- After the assignments a key has the last value given, or else its old
one. -/
theorem find?_insertAll (m : OrderedMap V rank) (pairs : List (K × V))
    (key : K) :
    (m.insertAll pairs).find? key =
      (lastGiven rank pairs key).or (m.find? key) := by
  induction pairs using List.reverseRecOn with
  | nil => rfl
  | append_singleton pairs pair ih =>
      rw [insertAll, List.foldl_append, List.foldl_cons, List.foldl_nil,
        ← insertAll, find?_insert, ih, lastGiven, lastGiven,
        List.reverse_append, List.reverse_singleton, List.singleton_append]
      by_cases hrank : rank key = rank pair.1
      · simp [hrank]
      · simp [hrank, Ne.symm hrank]

/-- A property of entries goes on to an insertion when the new value has it
under the new key and under every old spelling of that key. -/
theorem forall_insert {P : K × V → Prop} (m : OrderedMap V rank) (key : K)
    (value : V) (hold : ∀ entry ∈ m.entries, P entry) (hnew : P (key, value))
    (hkept : ∀ entry ∈ m.entries, rank entry.1 = rank key →
      P (entry.1, value)) :
    ∀ entry ∈ (m.insert key value).entries, P entry := by
  obtain ⟨entries, hsorted⟩ := m
  simp only [insert] at hold hkept ⊢
  clear hsorted
  induction entries with
  | nil => simpa [insertEntry] using hnew
  | cons head tail ih =>
      rw [List.forall_mem_cons] at hold hkept
      rw [insertEntry]
      split
      · simp only [List.forall_mem_cons]
        exact ⟨hnew, hold⟩
      split
      · rw [List.forall_mem_cons]
        exact ⟨hold.1, ih hold.2 hkept.2⟩
      · case isFalse hlt hgt =>
          rw [List.forall_mem_cons]
          exact ⟨hkept.1 (le_antisymm (not_lt.mp hlt) (not_lt.mp hgt)),
            hold.2⟩

theorem insert_ne_nil (m : OrderedMap V rank) (key : K) (value : V) :
    (m.insert key value).entries ≠ [] := by
  rcases m with ⟨_ | ⟨head, tail⟩, _⟩
  · simp [insert, insertEntry]
  · simp only [insert, insertEntry]
    split
    · simp
    · split <;> simp

end OrderedMap

end LinuxTest
