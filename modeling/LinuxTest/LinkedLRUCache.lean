/-
The cache of the practice files: nodes linked by hand between a head and a
tail, a map from keys to nodes and a counter.  Nodes are never freed, so a node
is a number and `fresh` is the next one.
-/
import Mathlib.Data.List.AList
import LinuxTest.DoubleLinks
import LinuxTest.RecentMap
import LinuxTest.Runs

namespace LinuxTest

namespace Prac

/-- The fields `key` and `value` of the nodes, their pointers, and the cache's
own fields. -/
structure LRUCache where
  key : Nat → Int32
  value : Nat → Int32
  links : Links Nat
  head : Nat
  tail : Nat
  capacity : Int
  cursize : Int
  m : AList fun _ : Int32 => Nat
  fresh : Nat

namespace LRUCache

/-- Two nodes as their constructor leaves them, then joined. -/
def init (capacity : Int) : LRUCache where
  key := fun _ => -1
  value := fun _ => -1
  links := (Links.mk (fun _ => none) fun _ => none).join 0 1
  head := 0
  tail := 1
  capacity := capacity
  cursize := 0
  m := ∅
  fresh := 2

/-- The block that `get` and `put` share; a null pointer is followed where
there is no result. -/
def toFront (c : LRUCache) (inode : Nat) : Option LRUCache := do
  let temp ← c.links.next c.head
  if temp = inode then
    return c
  let tprev ← c.links.prev inode
  let tnext ← c.links.next inode
  let links := c.links.setNext c.head inode
  let links := links.setPrev inode c.head
  let links := links.setNext inode temp
  let links := links.setPrev temp inode
  let links := links.setNext tprev tnext
  let links := links.setPrev tnext tprev
  return { c with links := links }

def get (c : LRUCache) (key : Int32) : Option (Int32 × LRUCache) :=
  match c.m.lookup key with
  | none => some (-1, c)
  | some inode => do
      let c ← c.toFront inode
      return (c.value inode, c)

/-- `new node()`, with its value and key set. -/
def newNode (c : LRUCache) (key value : Int32) : LRUCache :=
  { c with
    key := Function.update c.key c.fresh key
    value := Function.update c.value c.fresh value
    fresh := c.fresh + 1 }

/-- `unordered_map::insert` keeps an element that is there. -/
def insert (m : AList fun _ : Int32 => Nat) (key : Int32) (n : Nat) :
    AList fun _ : Int32 => Nat :=
  match m.lookup key with
  | none => m.insert key n
  | some _ => m

/-- `m.erase(m.find(key))`, without a result where the key is absent. -/
def erase (m : AList fun _ : Int32 => Nat) (key : Int32) :
    Option (AList fun _ : Int32 => Nat) :=
  match m.lookup key with
  | none => none
  | some _ => some (m.erase key)

/-- The branch of `put` for a new key while there is room. -/
def putRoom (c : LRUCache) (key : Int32) (n : Nat) : Option LRUCache := do
  let temp ← c.links.next c.head
  let links := c.links.setNext c.head n
  let links := links.setNext n temp
  let links := links.setPrev temp n
  let links := links.setPrev n c.head
  return { c with
    links := links
    m := insert c.m key n
    cursize := c.cursize + 1 }

/-- The branch of `put` for a new key in a full cache. -/
def putFull (c : LRUCache) (key : Int32) (n : Nat) : Option LRUCache := do
  let last ← c.links.prev c.tail
  let before ← c.links.prev last
  let links := c.links.setNext before c.tail
  let links := links.setPrev c.tail before
  let temp ← links.next c.head
  let links := links.setNext c.head n
  let links := links.setPrev n c.head
  let links := links.setNext n temp
  let links := links.setPrev temp n
  let m ← erase c.m (c.key last)
  return { c with
    links := links
    m := insert m key n }

def put (c : LRUCache) (key value : Int32) : Option LRUCache :=
  let n := c.fresh
  let c := c.newNode key value
  match c.m.lookup key with
  | none => if c.cursize < c.capacity then c.putRoom key n else c.putFull key n
  | some inode =>
      LRUCache.toFront
        { c with value := Function.update c.value inode value } inode

/-- The map leads from the keys of the given nodes to these nodes. -/
def Names (m : AList fun _ : Int32 => Nat) (keyOf : Nat → Int32)
    (nodes : List Nat) : Prop :=
  ∀ key n, m.lookup key = some n ↔ n ∈ nodes ∧ keyOf n = key

/-- The nodes between head and tail, and what the map and the counter know of
them. -/
structure Sound (c : LRUCache) (nodes : List Nat) : Prop where
  linked : c.links.Linked (c.head :: nodes ++ [c.tail])
  distinct : (c.head :: nodes ++ [c.tail]).Nodup
  known : ∀ n ∈ c.head :: nodes ++ [c.tail], n < c.fresh
  names : Names c.m c.key nodes
  size : c.m.keys.length = nodes.length
  counted : c.cursize = nodes.length
  bounded : c.cursize ≤ c.capacity

/-- The keys and values of the nodes. -/
def entries (c : LRUCache) (nodes : List Nat) : List (Int32 × Int32) :=
  nodes.map fun n => (c.key n, c.value n)

variable {c : LRUCache} {nodes : List Nat} {key value : Int32} {n : Nat}

theorem sound_init {capacity : Int} (hcapacity : 0 ≤ capacity) :
    (init capacity).Sound [] where
  linked := List.isChain_cons_cons.mpr
    ⟨Links.join_self _ 0 1, List.isChain_singleton 1⟩
  distinct := by
    change [0, 1].Nodup
    decide
  known := by
    intro n hn
    simp only [init, List.cons_append, List.nil_append, List.mem_cons,
      List.not_mem_nil, or_false] at hn ⊢
    omega
  names := by
    intro key n
    simp [init]
  size := rfl
  counted := rfl
  bounded := hcapacity

/-! ### The map -/

variable {m : AList fun _ : Int32 => Nat} {keyOf : Nat → Int32}

theorem Names.find_eq (hm : Names m keyOf nodes) (key : Int32) :
    (nodes.find? fun n => keyOf n == key) = m.lookup key := by
  cases hlookup : m.lookup key with
  | none =>
      refine List.find?_eq_none.mpr fun n hn heq => ?_
      have hfound := (hm key n).mpr ⟨hn, eq_of_beq heq⟩
      rw [hlookup] at hfound
      cases hfound
  | some n =>
      obtain ⟨hn, hkey⟩ := (hm key n).mp hlookup
      cases hfind : nodes.find? fun n => keyOf n == key with
      | none => exact absurd (beq_of_eq hkey) (List.find?_eq_none.mp hfind n hn)
      | some found =>
          have hkeyFound : (keyOf found == key) = true :=
            @List.find?_some _ (fun n => keyOf n == key) _ _ hfind
          have hfound := (hm key found).mpr
            ⟨List.mem_of_find?_eq_some hfind, eq_of_beq hkeyFound⟩
          exact hfound.symm.trans hlookup

theorem Names.eraseP_none (hm : Names m keyOf nodes)
    (hnone : m.lookup key = none) :
    (nodes.eraseP fun n => keyOf n == key) = nodes := by
  refine List.eraseP_of_forall_not fun n hn heq => ?_
  have hfound := (hm key n).mpr ⟨hn, eq_of_beq heq⟩
  rw [hnone] at hfound
  cases hfound

theorem Names.eraseP_some (hm : Names m keyOf nodes)
    (hsome : m.lookup key = some n) :
    (nodes.eraseP fun n => keyOf n == key) = nodes.erase n := by
  obtain ⟨hn, hkey⟩ := (hm key n).mp hsome
  obtain ⟨front, back, rfl, hnew⟩ := List.eq_append_cons_of_mem hn
  have hfront : ∀ other ∈ front, ¬(keyOf other == key) = true := by
    intro other hother heq
    have hfound := (hm key other).mpr
      ⟨List.mem_append_left _ hother, eq_of_beq heq⟩
    rw [hsome] at hfound
    exact hnew (Option.some.inj hfound ▸ hother)
  rw [List.eraseP_append_right _ hfront, List.erase_append_right _ hnew,
    List.erase_cons_head, List.eraseP_cons, beq_of_eq hkey, cond_true]

theorem Names.insert (hm : Names m keyOf nodes) (hkey : keyOf n = key)
    (hnone : m.lookup key = none) :
    Names (LRUCache.insert m key n) keyOf (n :: nodes) := by
  intro other found
  rw [LRUCache.insert, hnone]
  by_cases heq : other = key
  · rw [heq, AList.lookup_insert, List.mem_cons]
    constructor
    · rintro ⟨⟩
      exact ⟨Or.inl rfl, hkey⟩
    · rintro ⟨rfl | hmem, hfound⟩
      · rfl
      · rw [(hm key found).mpr ⟨hmem, hfound⟩] at hnone
        cases hnone
  · rw [AList.lookup_insert_ne heq, hm, List.mem_cons]
    constructor
    · exact fun h => ⟨Or.inr h.1, h.2⟩
    · rintro ⟨rfl | hmem, hfound⟩
      · exact absurd (hfound.symm.trans hkey) heq
      · exact ⟨hmem, hfound⟩

theorem Names.erase (hm : Names m keyOf nodes) (hnodup : nodes.Nodup)
    (hn : n ∈ nodes) : Names (m.erase (keyOf n)) keyOf (nodes.erase n) := by
  intro other found
  rw [hnodup.mem_erase_iff]
  by_cases heq : other = keyOf n
  · rw [heq, AList.lookup_erase]
    constructor
    · rintro ⟨⟩
    · rintro ⟨⟨hne, hmem⟩, hfound⟩
      have hsame := ((hm _ found).mpr ⟨hmem, hfound⟩).symm.trans
        ((hm _ n).mpr ⟨hn, rfl⟩)
      exact absurd (Option.some.inj hsame) hne
  · rw [AList.lookup_erase_ne heq, hm]
    constructor
    · rintro ⟨hmem, hfound⟩
      refine ⟨⟨?_, hmem⟩, hfound⟩
      rintro rfl
      exact heq hfound.symm
    · exact fun h => ⟨h.1.2, h.2⟩

theorem keys_insert (hnone : m.lookup key = none) :
    (LRUCache.insert m key n).keys = key :: m.keys := by
  rw [LRUCache.insert, hnone, AList.keys_insert,
    List.erase_of_not_mem (AList.lookup_eq_none.mp hnone)]

/-! ### Moving a node to the front -/

theorem Sound.nodup (hc : c.Sound nodes) : nodes.Nodup :=
  (List.nodup_append.mp (List.nodup_cons.mp hc.distinct).2).1

/-- A linked node moves to the front, and nothing else changes. -/
theorem Sound.toFront (hc : c.Sound nodes) (hn : n ∈ nodes) :
    ∃ links, c.toFront n = some { c with links := links } ∧
      links.Linked (c.head :: n :: nodes.erase n ++ [c.tail]) := by
  obtain ⟨front, back, hnodes, hnew⟩ := List.eq_append_cons_of_mem hn
  have herase : nodes.erase n = front ++ back := by
    rw [hnodes, List.erase_append_right _ hnew, List.erase_cons_head]
  have hlinked := hc.linked
  have hdistinct := hc.distinct
  rw [hnodes] at hlinked hdistinct
  rw [herase]
  cases front with
  | nil =>
      have hfirst : c.links.next c.head = some n :=
        (@Links.Linked.neighbours _ _ [] _ _ _ hlinked).1
      refine ⟨c.links, ?_, hlinked⟩
      rw [LRUCache.toFront, hfirst]
      exact if_pos rfl
  | cons temp middle =>
      obtain ⟨before, tprev, hlast⟩ :
          ∃ before tprev, temp :: middle = before ++ [tprev] :=
        ⟨_, _, (List.dropLast_append_getLast
          (List.cons_ne_nil temp middle)).symm⟩
      obtain ⟨tnext, behind, hback⟩ :
          ∃ tnext behind, back ++ [c.tail] = tnext :: behind :=
        List.exists_cons_of_ne_nil (by simp)
      have hshape : c.head :: (temp :: middle ++ n :: back) ++ [c.tail] =
          c.head :: temp :: middle ++ n :: tnext :: behind := by
        simp [← hback]
      have hsplit : c.head :: temp :: middle ++ n :: tnext :: behind =
          (c.head :: before) ++ tprev :: n :: tnext :: behind := by
        rw [hlast]
        simp
      rw [hshape] at hlinked hdistinct
      have htemp : c.links.next c.head = some temp :=
        (@Links.Linked.neighbours _ _ [] _ _ _ hlinked).1
      have htprev : c.links.prev n = some tprev :=
        (hsplit ▸ hlinked).neighbours.2
      have htnext : c.links.next n = some tnext :=
        hlinked.neighbours.1
      have hne : temp ≠ n := fun heq => hnew (heq ▸ List.mem_cons_self)
      refine ⟨((c.links.join c.head n).join n temp).join tprev tnext, ?_, ?_⟩
      · rw [LRUCache.toFront, htemp]
        dsimp only [Option.bind_eq_bind, Option.bind_some]
        rw [if_neg hne, htprev, htnext]
        rfl
      · have hfront := hlinked.toFront hdistinct hlast
        rw [← hback] at hfront
        simpa using hfront

/-! ### Calls -/

/-- The nodes may be linked in another order. -/
theorem Sound.relink (hc : c.Sound nodes) {others : List Nat}
    (hperm : others.Perm nodes) {links : Links Nat}
    (hlinked : links.Linked (c.head :: others ++ [c.tail])) :
    Sound { c with links := links } others := by
  have hends : (c.head :: others ++ [c.tail]).Perm
      (c.head :: nodes ++ [c.tail]) := (hperm.cons _).append_right _
  exact {
    linked := hlinked
    distinct := hends.nodup_iff.mpr hc.distinct
    known := fun n hn => hc.known n (hends.mem_iff.mp hn)
    names := fun key n =>
      (hc.names key n).trans (and_congr_left' hperm.mem_iff.symm)
    size := hc.size.trans hperm.length_eq.symm
    counted := by rw [hc.counted, hperm.length_eq]
    bounded := hc.bounded }

/-- What a cache looks like from outside. -/
structure Holds (c : LRUCache) (capacity : Int) (ideal : RecentMap Int32 Int32)
    (nodes : List Nat) : Prop where
  sound : c.Sound nodes
  capacity_eq : c.capacity = capacity
  entries_eq : ideal.entries = c.entries nodes
  recent : ideal.Recent capacity.toNat

variable {capacity : Int} {ideal : RecentMap Int32 Int32}

theorem Holds.lookup_eq (hc : c.Holds capacity ideal nodes) (key : Int32) :
    ideal.lookup key = (c.m.lookup key).map c.value := by
  rw [← hc.sound.names.find_eq key, RecentMap.lookup, hc.entries_eq, entries,
    List.find?_map, Option.map_map]
  rfl

theorem Holds.eraseP_eq (hc : c.Holds capacity ideal nodes) (key : Int32) :
    (ideal.entries.eraseP fun entry => entry.1 == key) =
      c.entries (nodes.eraseP fun n => c.key n == key) := by
  rw [hc.entries_eq, entries, List.eraseP_map]
  rfl

/-- A node that is known, with its value set, moves to the front. -/
theorem Sound.touch (hc : c.Sound nodes) (hlookup : c.m.lookup key = some n)
    (hideal : ideal.Recent c.capacity.toNat)
    (hrest : (ideal.entries.eraseP fun entry => entry.1 == key) =
      c.entries (nodes.erase n)) :
    ∃ links, c.toFront n = some { c with links := links } ∧
      Holds { c with links := links } c.capacity
        (ideal.put c.capacity.toNat key (c.value n)) (n :: nodes.erase n) := by
  obtain ⟨hn, hkey⟩ := (hc.names key n).mp hlookup
  obtain ⟨links, hfront, hlinked⟩ := hc.toFront hn
  have hperm := (List.perm_cons_erase hn).symm
  refine ⟨links, hfront, hc.relink hperm hlinked, rfl, ?_, hideal.put⟩
  rw [RecentMap.put, hrest, List.take_of_length_le]
  · rw [← hkey]
    rfl
  · have hlength := hperm.length_eq
    have hcounted := hc.counted
    have hbounded := hc.bounded
    rw [List.length_cons, entries, List.length_map]
    rw [List.length_cons] at hlength
    omega

/-- A new node changes nothing yet. -/
theorem Holds.newNode (hc : c.Holds capacity ideal nodes) (key value : Int32) :
    (c.newNode key value).Holds capacity ideal nodes := by
  have hold : ∀ n ∈ nodes, n ≠ c.fresh := fun n hn =>
    Nat.ne_of_lt (hc.sound.known n
      (List.mem_append_left _ (List.mem_cons_of_mem _ hn)))
  refine ⟨{ hc.sound with known := ?_, names := ?_ }, hc.capacity_eq, ?_,
    hc.recent⟩
  · exact fun n hn => Nat.lt_succ_of_lt (hc.sound.known n hn)
  · intro other n
    refine (hc.sound.names other n).trans (and_congr_right fun hn => ?_)
    dsimp only [LRUCache.newNode]
    rw [Function.update_of_ne (hold n hn)]
  · rw [hc.entries_eq]
    refine List.map_congr_left fun n hn => ?_
    dsimp only [LRUCache.newNode]
    rw [Function.update_of_ne (hold n hn),
      Function.update_of_ne (hold n hn)]

/-- A node between head and first is one more. -/
theorem Sound.push (hc : c.Sound nodes) (hn : n ∉ c.head :: nodes ++ [c.tail])
    (hlt : n < c.fresh) (hkey : c.key n = key) (hnone : c.m.lookup key = none)
    (hroom : c.cursize < c.capacity) {links : Links Nat}
    (hlinked : links.Linked (c.head :: n :: nodes ++ [c.tail])) :
    Sound { c with
      links := links
      m := insert c.m key n
      cursize := c.cursize + 1 } (n :: nodes) := by
  have hperm : (c.head :: n :: nodes ++ [c.tail]).Perm
      (n :: (c.head :: nodes ++ [c.tail])) := List.Perm.swap _ _ _
  exact {
    linked := hlinked
    distinct := hperm.nodup_iff.mpr (List.nodup_cons.mpr ⟨hn, hc.distinct⟩)
    known := fun other hother =>
      match List.mem_cons.mp (hperm.mem_iff.mp hother) with
      | .inl heq => heq ▸ hlt
      | .inr hmem => hc.known other hmem
    names := hc.names.insert hkey hnone
    size := by
      rw [keys_insert hnone, List.length_cons, List.length_cons, hc.size]
    counted := by
      rw [List.length_cons]
      exact congrArg (· + 1) hc.counted
    bounded := hroom }

/-- Without the last node there is one less. -/
theorem Sound.pop {last : Nat} (hc : c.Sound (nodes ++ [last])) :
    ∃ before, c.links.prev c.tail = some last ∧
      c.links.prev last = some before ∧
      LRUCache.erase c.m (c.key last) = some (c.m.erase (c.key last)) ∧
      Sound { c with
        links := c.links.join before c.tail
        m := c.m.erase (c.key last)
        cursize := c.cursize - 1 } nodes := by
  obtain ⟨front, before, hfront⟩ :
      ∃ front before, c.head :: nodes = front ++ [before] :=
    ⟨_, _, (List.dropLast_append_getLast (List.cons_ne_nil _ _)).symm⟩
  have hshape : c.head :: (nodes ++ [last]) ++ [c.tail] =
      front ++ before :: last :: c.tail :: [] := by
    rw [← List.cons_append, hfront]
    simp
  have hkept : c.head :: nodes ++ [c.tail] =
      front ++ before :: c.tail :: [] := by
    rw [hfront]
    simp
  have hlinked := hc.linked
  have hdistinct := hc.distinct
  rw [hshape] at hlinked hdistinct
  have hbehind : front ++ before :: last :: c.tail :: [] =
      (front ++ [before]) ++ last :: c.tail :: [] := by simp
  have hmem : last ∈ nodes ++ [last] := by simp
  have hnew : last ∉ nodes := fun hin =>
    (List.nodup_append.mp hc.nodup).2.2 last hin last (by simp) rfl
  have herase : (nodes ++ [last]).erase last = nodes := by
    rw [List.erase_append_right _ hnew, List.erase_cons_head, List.append_nil]
  have hlookup := (hc.names _ last).mpr ⟨hmem, rfl⟩
  have hsub : (c.head :: nodes ++ [c.tail]).Sublist
      (c.head :: (nodes ++ [last]) ++ [c.tail]) :=
    ((List.sublist_append_left nodes [last]).cons_cons _).append_right _
  refine ⟨before, (hbehind ▸ hlinked).neighbours.2, hlinked.neighbours.2, ?_,
    ?_⟩
  · rw [LRUCache.erase, hlookup]
  · exact {
      linked := by
        rw [hkept]
        exact hlinked.unlink hdistinct
      distinct := hc.distinct.sublist hsub
      known := fun n hn => hc.known n (hsub.subset hn)
      names := herase ▸ hc.names.erase hc.nodup hmem
      size := by
        rw [AList.keys_erase, List.length_erase_of_mem, hc.size,
          List.length_append]
        · rfl
        · exact AList.mem_keys.mp (AList.lookup_isSome.mp (hlookup ▸ rfl))
      counted := by
        have hcounted := hc.counted
        rw [List.length_append, List.length_singleton] at hcounted
        dsimp only
        omega
      bounded := by
        have hbounded := hc.bounded
        dsimp only
        omega }

theorem Holds.putRoom (hc : c.Holds capacity ideal nodes)
    (hn : n ∉ c.head :: nodes ++ [c.tail]) (hlt : n < c.fresh)
    (hkey : c.key n = key) (hnone : c.m.lookup key = none)
    (hroom : c.cursize < c.capacity) :
    ∃ next, c.putRoom key n = some next ∧ next.Holds capacity
      (ideal.put capacity.toNat key (c.value n)) (n :: nodes) := by
  obtain ⟨temp, htemp, hne, hlinked⟩ :=
    hc.sound.linked.pushFront hc.sound.distinct hn
  have hcapacity := hc.capacity_eq
  have hcounted := hc.sound.counted
  refine ⟨_, ?_,
    hc.sound.push hn hlt hkey hnone hroom hlinked, hcapacity, ?_, hc.recent.put⟩
  · rw [LRUCache.putRoom, htemp]
    simp only [Option.bind_eq_bind, Option.bind_some, Option.pure_def,
      Links.join, Links.setNext, Links.setPrev]
    rw [Function.update_comm hne]
  · rw [RecentMap.put, hc.eraseP_eq, hc.sound.names.eraseP_none hnone,
      List.take_of_length_le]
    · rw [← hkey]
      rfl
    · rw [List.length_cons, entries, List.length_map]
      omega

theorem Holds.putFull {last : Nat}
    (hc : c.Holds capacity ideal (nodes ++ [last]))
    (hn : n ∉ c.head :: (nodes ++ [last]) ++ [c.tail]) (hlt : n < c.fresh)
    (hkey : c.key n = key) (hnone : c.m.lookup key = none)
    (hfull : ¬c.cursize < c.capacity) :
    ∃ next, c.putFull key n = some next ∧ next.Holds capacity
      (ideal.put capacity.toNat key (c.value n)) (n :: nodes) := by
  obtain ⟨before, hlast, hbefore, herase, hpopped⟩ := hc.sound.pop
  have hnew : n ∉ c.head :: nodes ++ [c.tail] := by
    intro hmem
    apply hn
    simp only [List.mem_append, List.mem_cons] at hmem ⊢
    tauto
  have hkeyLast : key ≠ c.key last := by
    rintro rfl
    rw [(hc.sound.names _ last).mpr ⟨by simp, rfl⟩] at hnone
    cases hnone
  have hnone' : (c.m.erase (c.key last)).lookup key = none := by
    rw [AList.lookup_erase_ne hkeyLast, hnone]
  obtain ⟨temp, htemp, _, hlinked⟩ :=
    hpopped.linked.pushFront hpopped.distinct hnew
  have hcapacity := hc.capacity_eq
  have hcounted := hc.sound.counted
  have hbounded := hc.sound.bounded
  rw [List.length_append, List.length_singleton] at hcounted
  have hpushed := hpopped.push hnew hlt hkey hnone'
    (by dsimp only; omega) hlinked
  dsimp only at htemp hpushed
  rw [Int.sub_add_cancel] at hpushed
  refine ⟨_, ?_, hpushed, hcapacity, ?_, hc.recent.put⟩
  · rw [LRUCache.putFull, hlast]
    simp only [Option.bind_eq_bind, Option.bind_some, hbefore]
    change (((c.links.join before c.tail).next c.head).bind _) = _
    rw [htemp]
    simp only [Option.bind_some, herase, Option.pure_def]
    rfl
  · have hlength : (c.entries nodes).length + 1 = capacity.toNat := by
      rw [entries, List.length_map]
      omega
    have hsplit : c.entries (nodes ++ [last]) =
        c.entries nodes ++ c.entries [last] := List.map_append
    rw [RecentMap.put, hc.eraseP_eq, hc.sound.names.eraseP_none hnone, hsplit,
      ← hlength, List.take_succ_cons, List.take_left, ← hkey]
    rfl

/-- A `get` returns what the ideal map finds, or -1. -/
theorem Holds.get (hc : c.Holds capacity ideal nodes) (key : Int32) :
    ∃ next others,
      c.get key = some ((ideal.get capacity.toNat key).1.getD (-1), next) ∧
      next.Holds capacity (ideal.get capacity.toNat key).2 others := by
  rw [LRUCache.get, RecentMap.get, hc.lookup_eq]
  cases hlookup : c.m.lookup key with
  | none => exact ⟨c, nodes, rfl, hc⟩
  | some n =>
      have hrest := hc.eraseP_eq key
      rw [hc.sound.names.eraseP_some hlookup] at hrest
      have hrecent := hc.recent
      rw [← hc.capacity_eq] at hrecent ⊢
      obtain ⟨links, hfront, hholds⟩ := hc.sound.touch hlookup hrecent hrest
      refine ⟨_, _, ?_, hholds⟩
      dsimp only
      rw [hfront]
      rfl

/-- A `put` does what it does to the ideal map. -/
theorem Holds.put (hc : c.Holds capacity ideal nodes) (hcapacity : 1 ≤ capacity)
    (key value : Int32) :
    ∃ next others, c.put key value = some next ∧
      next.Holds capacity (ideal.put capacity.toNat key value) others := by
  have hnew := hc.newNode key value
  have hn : c.fresh ∉ c.head :: nodes ++ [c.tail] := fun hmem =>
    Nat.lt_irrefl _ (hc.sound.known _ hmem)
  have hlt : c.fresh < (c.newNode key value).fresh := Nat.lt_succ_self _
  have hkey : (c.newNode key value).key c.fresh = key :=
    Function.update_self _ _ _
  have hvalue : (c.newNode key value).value c.fresh = value :=
    Function.update_self _ _ _
  rw [LRUCache.put]
  cases hlookup : (c.newNode key value).m.lookup key with
  | none =>
      dsimp only
      by_cases hroom : (c.newNode key value).cursize <
          (c.newNode key value).capacity
      · rw [if_pos hroom]
        obtain ⟨next, hnext, hholds⟩ :=
          hnew.putRoom hn hlt hkey hlookup hroom
        exact ⟨next, _, hnext, hvalue ▸ hholds⟩
      · rw [if_neg hroom]
        have hne : nodes ≠ [] := by
          rintro rfl
          have hcounted : c.cursize = 0 := hc.sound.counted
          have hcapacityEq : c.capacity = capacity := hc.capacity_eq
          change ¬c.cursize < c.capacity at hroom
          omega
        have hsplit := List.dropLast_append_getLast hne
        rw [← hsplit] at hnew hn
        obtain ⟨next, hnext, hholds⟩ :=
          hnew.putFull hn hlt hkey hlookup hroom
        exact ⟨next, _, hnext, hvalue ▸ hholds⟩
  | some n =>
      dsimp only
      obtain ⟨hin, _⟩ := (hnew.sound.names key n).mp hlookup
      have hrest := hnew.eraseP_eq key
      rw [hnew.sound.names.eraseP_some hlookup] at hrest
      have hs := hnew.sound
      have hvalues : (c.newNode key value).entries (nodes.erase n) =
          LRUCache.entries { c.newNode key value with
            value := Function.update (c.newNode key value).value n value }
            (nodes.erase n) := by
        refine List.map_congr_left fun other hother => ?_
        have hne : other ≠ n := (hs.nodup.mem_erase_iff.mp hother).1
        dsimp only
        rw [Function.update_of_ne hne]
      have hset : Sound { c.newNode key value with
          value := Function.update (c.newNode key value).value n value }
          nodes := { hs with }
      have hrecent := hnew.recent
      rw [← hnew.capacity_eq] at hrecent ⊢
      obtain ⟨links, hfront, hholds⟩ :=
        hset.touch hlookup hrecent (hrest.trans hvalues)
      dsimp only at hholds
      rw [Function.update_self] at hholds
      exact ⟨_, _, hfront, hholds⟩

end LRUCache

/-! ### Runs -/

inductive Call where
  | get (key : Int32)
  | put (key value : Int32)
deriving DecidableEq

/-- A cache and the ideal map beside it, with what the last `get` returned and
what the ideal map found for it. -/
structure Session where
  cache : LRUCache
  ideal : RecentMap Int32 Int32
  returned : Option Int32
  found : Option (Option Int32)

def Session.init (capacity : Int) : Session :=
  ⟨LRUCache.init capacity, RecentMap.empty, none, none⟩

def Session.step (s : Session) : Call → Option Session
  | .get key => do
      let (answer, cache) ← s.cache.get key
      let (found, ideal) := s.ideal.get s.cache.capacity.toNat key
      return ⟨cache, ideal, some answer, some found⟩
  | .put key value => do
      let cache ← s.cache.put key value
      let ideal := s.ideal.put s.cache.capacity.toNat key value
      return ⟨cache, ideal, none, none⟩

/-- The cache is a cache of the most recently used entries: its answer is that
of the ideal map, with -1 for nothing, and the same nodes are met in both
directions, known to the map and counted. -/
structure Session.Correct (capacity : Int) (s : Session) : Prop where
  answer_eq : s.returned = s.found.map fun value => value.getD (-1)
  recent : s.ideal.Recent capacity.toNat
  nodes : ∃ nodes : List Nat,
    Links.Leads s.cache.links.next s.cache.head nodes s.cache.tail ∧
    Links.Leads s.cache.links.prev s.cache.tail nodes.reverse s.cache.head ∧
    nodes.Nodup ∧
    (∀ key n, s.cache.m.lookup key = some n ↔
      n ∈ nodes ∧ s.cache.key n = key) ∧
    (nodes.map fun n => (s.cache.key n, s.cache.value n)) = s.ideal.entries ∧
    nodes.length = s.cache.cursize ∧
    s.cache.cursize = s.cache.m.keys.length ∧
    s.cache.cursize ≤ capacity

/-- What a run keeps. -/
structure Session.Sound (capacity : Int) (s : Session) : Prop where
  answer_eq : s.returned = s.found.map fun value => value.getD (-1)
  holds : ∃ nodes, s.cache.Holds capacity s.ideal nodes

variable {s : Session} {capacity : Int}

theorem Session.sound_init (hcapacity : 0 ≤ capacity) :
    (Session.init capacity).Sound capacity :=
  ⟨rfl, [], LRUCache.sound_init hcapacity, rfl, rfl, RecentMap.recent_empty⟩

theorem Session.Sound.step (hcapacity : 1 ≤ capacity) (hs : s.Sound capacity)
    (call : Call) : ∃ next, s.step call = some next ∧ next.Sound capacity := by
  obtain ⟨nodes, hholds⟩ := hs.holds
  cases call with
  | get key =>
      obtain ⟨cache, others, hget, hnext⟩ := hholds.get key
      rw [Session.step, hget, hholds.capacity_eq]
      exact ⟨_, rfl, rfl, others, hnext⟩
  | put key value =>
      obtain ⟨cache, others, hput, hnext⟩ := hholds.put hcapacity key value
      rw [Session.step, hput, hholds.capacity_eq]
      exact ⟨_, rfl, rfl, others, hnext⟩

theorem Session.Sound.correct (hs : s.Sound capacity) : s.Correct capacity := by
  obtain ⟨nodes, hholds⟩ := hs.holds
  have hsound := hholds.sound
  exact {
    answer_eq := hs.answer_eq
    recent := hholds.recent
    nodes := ⟨nodes, hsound.linked.leads_next, hsound.linked.leads_prev,
      hsound.nodup, hsound.names, hholds.entries_eq.symm, hsound.counted.symm,
      by rw [hsound.size, hsound.counted],
      hholds.capacity_eq ▸ hsound.bounded⟩ }

/-- For every capacity from one on and every sequence of calls, the linked
cache answers as the ideal one and stays in order. -/
theorem linked_cache_correct (capacity : Int) (hcapacity : 1 ≤ capacity)
    (calls : List Call) :
    Always Session.step (Session.Correct capacity) (Session.init capacity)
      calls := by
  have halways : Always Session.step (Session.Sound capacity)
      (Session.init capacity) calls :=
    @Always.of_along _ _ _ (fun _ _ => True) _
      (fun s call hs _ => hs.step hcapacity call)
      _ _ (Session.sound_init (by omega)) (Along.of_forall fun _ _ _ => trivial)
  exact halways.mono fun s hs => hs.correct

theorem linked_cache_correct_one :
    (1 : Int) ≤ 1 ∧ Always Session.step (Session.Correct 1) (Session.init 1)
      [Call.put 3 5, Call.put 4 6, Call.get 3, Call.get 4] :=
  ⟨Int.le_refl 1, linked_cache_correct 1 (Int.le_refl 1) _⟩

end Prac

end LinuxTest
