/-
The file cache: a list of nodes, the most recently used first, and a map from
keys to iterators into the list.  An iterator is the address of its node, which
`splice` keeps and `pop_back` ends.
-/
import Mathlib.Data.Option.Basic
import LinuxTest.ByteString
import LinuxTest.Recency
import LinuxTest.Runs

namespace LinuxTest

namespace Sone

structure Timespec where
  tv_sec : Int
  tv_nsec : Int
deriving DecidableEq

/-- What `stat` reports of a file. -/
structure Stat where
  st_mtim : Timespec
  st_size : Nat
deriving DecidableEq

structure CacheNode where
  key : Bytes
  val : Option Bytes
  mtime : Timespec
  fsize : Nat
deriving DecidableEq

/-- What the kernel answers about a file during one call: `stat`, none where it
fails, and the bytes that `read` stores, none where it fails. -/
structure File where
  stat : Option Stat
  read : Option Bytes
deriving DecidableEq

/-- Why a call does not return: a failed `assert` ends the process, and an
iterator without a node has no meaning. -/
inductive Halt where
  | assert
  | dangling
deriving DecidableEq

structure LRUCache where
  cacheList : List (Nat × CacheNode)
  cacheMap : Bytes → Option Nat
  capacity : Nat
  /-- The address of the next node. -/
  fresh : Nat

namespace LRUCache

def init (capacity : Nat) : LRUCache :=
  ⟨[], fun _ => none, capacity, 0⟩

/-- The keys of the list in order. -/
def keys (c : LRUCache) : List Bytes :=
  c.cacheList.map fun entry => entry.2.key

/-- `*it`. -/
def deref (c : LRUCache) (it : Nat) : Except Halt CacheNode :=
  match c.cacheList.find? fun entry => entry.1 = it with
  | none => .error .dangling
  | some entry => .ok entry.2

/-- `cacheMap[k]`, for a key that the map has. -/
def iterator (c : LRUCache) (k : Bytes) : Except Halt Nat :=
  match c.cacheMap k with
  | none => .error .dangling
  | some it => .ok it

/-- `cacheList.begin()`. -/
def begin (c : LRUCache) : Except Halt Nat :=
  match c.cacheList with
  | [] => .error .dangling
  | entry :: _ => .ok entry.1

/-- `cacheList.splice(cacheList.begin(), cacheList, it)`. -/
def splice (c : LRUCache) (it : Nat) : Except Halt LRUCache :=
  match c.cacheList.find? fun entry => entry.1 = it with
  | none => .error .dangling
  | some entry => .ok { c with
      cacheList := entry :: c.cacheList.eraseP fun entry => entry.1 = it }

/-- `cacheMap[k] = it`. -/
def assign (c : LRUCache) (k : Bytes) (it : Nat) : LRUCache :=
  { c with cacheMap := Function.update c.cacheMap k (some it) }

/-- Assign to the members of the node at `it` all but its key. -/
def store (c : LRUCache) (it : Nat) (val : Option Bytes) (mtime : Timespec)
    (fsize : Nat) : LRUCache :=
  { c with cacheList := c.cacheList.map fun entry =>
      if entry.1 = it then
        (entry.1, { entry.2 with val := val, mtime := mtime, fsize := fsize })
      else entry }

/-- `assert(sz == s.st_size)` after the read. -/
def readInFull (file : File) (s : Stat) : Except Halt Bytes :=
  match file.read with
  | none => .error .assert
  | some buf =>
      if buf.length = s.st_size then .ok buf else .error .assert

/-- The two comparisons of `getValue`, the second on the nanoseconds alone. -/
def outdated (s : Stat) (node : CacheNode) : Bool :=
  if s.st_mtim.tv_sec > node.mtime.tv_sec then true
  else if s.st_mtim.tv_nsec > node.mtime.tv_nsec then true
  else false

def getValue (c : LRUCache) (k : Bytes) (file : File) :
    Except Halt (Option Bytes × LRUCache) :=
  match c.cacheMap k with
  | none => .ok (none, c)
  | some it => do
      let c ← c.splice it
      let c := c.assign k (← c.begin)
      match file.stat with
      | none => return (none, c)
      | some s =>
          let it ← c.iterator k
          let node ← c.deref it
          if outdated s node then
            let buf ← readInFull file s
            return (some buf, c.store it (some buf) s.st_mtim buf.length)
          else
            return (node.val, c)

/-- Give up the last node. -/
def evict (c : LRUCache) : Except Halt LRUCache :=
  match c.cacheList.getLast? with
  | none => .error .dangling
  | some entry => .ok { c with
      cacheMap := Function.update c.cacheMap entry.2.key none
      cacheList := c.cacheList.dropLast }

def evictIfFull (c : LRUCache) : Except Halt LRUCache :=
  if c.capacity = c.cacheList.length then c.evict else .ok c

/-- `cacheList.push_front(node)`. -/
def pushFront (c : LRUCache) (node : CacheNode) : LRUCache :=
  { c with
    cacheList := (c.fresh, node) :: c.cacheList
    fresh := c.fresh + 1 }

def setValue (c : LRUCache) (k : Bytes) (file : File) :
    Except Halt LRUCache :=
  match c.cacheMap k with
  | some _ => .ok c
  | none => do
      let c ← c.evictIfFull
      match file.stat with
      | none => .error .assert
      | some s =>
          let buf ← readInFull file s
          let c := c.pushFront ⟨k, some buf, s.st_mtim, buf.length⟩
          return c.assign k (← c.begin)

def getSize (c : LRUCache) (k : Bytes) : Except Halt Nat :=
  match c.cacheMap k with
  | none => .ok 0
  | some it => do
      let node ← c.deref it
      return node.fsize

def isExist (c : LRUCache) (k : Bytes) : Bool :=
  (c.cacheMap k).isSome

/-- List and map in step: nodes at distinct used addresses, and the map takes
each key of the list to its own node and has no other key. -/
structure Linked (c : LRUCache) : Prop where
  own : ∀ entry ∈ c.cacheList, c.cacheMap entry.2.key = some entry.1
  found : ∀ k it, c.cacheMap k = some it →
    ∃ node, (it, node) ∈ c.cacheList ∧ node.key = k
  distinct : (c.cacheList.map Prod.fst).Nodup
  used : ∀ entry ∈ c.cacheList, entry.1 < c.fresh

theorem linked_init (capacity : Nat) : (init capacity).Linked := by
  refine ⟨?_, ?_, List.nodup_nil, ?_⟩
  · intro entry hentry
    cases hentry
  · intro k it hit
    cases hit
  · intro entry hentry
    cases hentry

variable {c : LRUCache} {k : Bytes} {it : Nat}

theorem Linked.nodup_keys (hc : c.Linked) : c.keys.Nodup := by
  have hmap : c.keys.map c.cacheMap =
      (c.cacheList.map Prod.fst).map some := by
    simp only [keys, List.map_map]
    exact List.map_congr_left hc.own
  apply List.Nodup.of_map c.cacheMap
  rw [hmap]
  exact hc.distinct.map (Option.some_injective Nat)

theorem Linked.isSome_iff (hc : c.Linked) (k : Bytes) :
    (c.cacheMap k).isSome ↔ k ∈ c.keys := by
  constructor
  · intro hsome
    obtain ⟨it, hit⟩ := Option.isSome_iff_exists.mp hsome
    obtain ⟨node, hnode, hkey⟩ := hc.found k it hit
    exact List.mem_map.mpr ⟨(it, node), hnode, hkey⟩
  · intro hmem
    obtain ⟨entry, hentry, rfl⟩ := List.mem_map.mp hmem
    rw [hc.own entry hentry]
    rfl

theorem Linked.none_iff (hc : c.Linked) (k : Bytes) :
    c.cacheMap k = none ↔ k ∉ c.keys := by
  rw [← hc.isSome_iff, Option.not_isSome_iff_eq_none]

/-- In the list, the address of a key's node and the key say the same. -/
theorem Linked.fst_eq_iff (hc : c.Linked) (hit : c.cacheMap k = some it) :
    ∀ entry ∈ c.cacheList, entry.1 = it ↔ entry.2.key = k := by
  intro entry hentry
  have hown := hc.own entry hentry
  constructor
  · intro haddress
    obtain ⟨node, hnode, hkey⟩ := hc.found k it hit
    have hsame : entry = (it, node) :=
      List.inj_on_of_nodup_map hc.distinct hentry hnode haddress
    rw [hsame, hkey]
  · intro hkey
    rw [hkey, hit] at hown
    exact (Option.some.inj hown).symm

theorem Linked.find_eq (hc : c.Linked) (hit : c.cacheMap k = some it) :
    ∃ node, (it, node) ∈ c.cacheList ∧ node.key = k ∧
      (c.cacheList.find? fun entry => entry.1 = it) = some (it, node) := by
  obtain ⟨node, hnode, hkey⟩ := hc.found k it hit
  have hsome : (c.cacheList.find? fun entry => entry.1 = it).isSome := by
    rw [List.find?_isSome]
    exact ⟨(it, node), hnode, by simp⟩
  obtain ⟨entry, hentry⟩ := Option.isSome_iff_exists.mp hsome
  have haddress : entry.1 = it := by
    simpa using List.find?_some hentry
  have hsame : entry = (it, node) :=
    List.inj_on_of_nodup_map hc.distinct (List.mem_of_find?_eq_some hentry)
      hnode haddress
  exact ⟨node, hnode, hkey, by rw [hentry, hsame]⟩

/-- Iterators of keys in the map can be followed. -/
theorem Linked.deref_eq (hc : c.Linked) (hit : c.cacheMap k = some it) :
    ∃ node, c.deref it = .ok node := by
  obtain ⟨node, _, _, hfind⟩ := hc.find_eq hit
  exact ⟨node, by rw [deref, hfind]⟩

theorem map_key_eraseP {entries : List (Nat × CacheNode)}
    (hsame : ∀ entry ∈ entries, entry.1 = it ↔ entry.2.key = k) :
    (entries.eraseP fun entry => entry.1 = it).map (fun entry => entry.2.key)
      = (entries.map fun entry => entry.2.key).erase k := by
  induction entries with
  | nil => rfl
  | cons head tail ih =>
      have hhead := hsame head List.mem_cons_self
      have htail := ih fun entry hentry =>
        hsame entry (List.mem_cons_of_mem head hentry)
      by_cases hit : head.1 = it
      · simp [hit, hhead.mp hit]
      · have hkey : head.2.key ≠ k := fun hkey => hit (hhead.mpr hkey)
        simp only [List.map_cons, List.eraseP_cons, hit, decide_false,
          cond_false, List.erase_cons, beq_iff_eq, hkey, ↓reduceIte, htail]

/-- What of an entry the map depends on. -/
def tag (entry : Nat × CacheNode) : Nat × Bytes :=
  (entry.1, entry.2.key)

/-- Reordering nodes, or writing to members other than the key, keeps list and
map in step. -/
theorem Linked.congr {next : LRUCache} (hc : c.Linked)
    (htags : (next.cacheList.map tag).Perm (c.cacheList.map tag))
    (hmap : next.cacheMap = c.cacheMap) (hfresh : next.fresh = c.fresh) :
    next.Linked := by
  have hold : ∀ entry ∈ next.cacheList,
      ∃ old ∈ c.cacheList, old.1 = entry.1 ∧ old.2.key = entry.2.key := by
    intro entry hentry
    have hmem := htags.mem_iff.mp (List.mem_map_of_mem hentry)
    obtain ⟨old, hold, htag⟩ := List.mem_map.mp hmem
    exact ⟨old, hold, Prod.ext_iff.mp htag⟩
  refine ⟨?_, ?_, ?_, ?_⟩
  · intro entry hentry
    obtain ⟨old, holdMem, haddress, hkey⟩ := hold entry hentry
    rw [hmap, ← hkey, hc.own old holdMem, haddress]
  · intro k it hit
    rw [hmap] at hit
    obtain ⟨node, hnode, hkey⟩ := hc.found k it hit
    have hmem := htags.mem_iff.mpr (List.mem_map_of_mem hnode)
    obtain ⟨entry, hentry, htag⟩ := List.mem_map.mp hmem
    obtain ⟨haddress, hentryKey⟩ := Prod.ext_iff.mp htag
    change entry.1 = it at haddress
    subst haddress
    exact ⟨entry.2, hentry, hentryKey.trans hkey⟩
  · have hfst := htags.map Prod.fst
    simp only [List.map_map] at hfst
    exact hfst.nodup_iff.mpr hc.distinct
  · intro entry hentry
    obtain ⟨old, holdMem, haddress, _⟩ := hold entry hentry
    rw [hfresh, ← haddress]
    exact hc.used old holdMem

theorem perm_cons_eraseP {A : Type} {p : A → Bool} {entry : A}
    {entries : List A} (hfind : entries.find? p = some entry) :
    (entry :: entries.eraseP p).Perm entries := by
  induction entries with
  | nil => cases hfind
  | cons head tail ih =>
      rw [List.find?_cons] at hfind
      rw [List.eraseP_cons]
      cases hhead : p head with
      | true =>
          simp only [hhead] at hfind
          cases hfind
          exact List.Perm.refl _
      | false =>
          simp only [hhead] at hfind
          exact (List.Perm.swap head entry _).trans ((ih hfind).cons head)

/-- The first step of `getValue` on a key it finds: its node moves to the front
and the map is told so. -/
theorem Linked.touch (hc : c.Linked) (hit : c.cacheMap k = some it) :
    ∃ moved, c.splice it = .ok moved ∧ moved.begin = .ok it ∧
      (moved.assign k it).Linked ∧
      (moved.assign k it).cacheMap k = some it ∧
      (moved.assign k it).capacity = c.capacity ∧
      (moved.assign k it).keys = k :: c.keys.erase k := by
  obtain ⟨node, hnode, hkey, hfind⟩ := hc.find_eq hit
  refine ⟨{ c with cacheList := (it, node) ::
    c.cacheList.eraseP fun entry => entry.1 = it }, ?_, rfl, ?_, ?_, rfl, ?_⟩
  · rw [splice, hfind]
  · refine hc.congr ?_ ?_ rfl
    · exact (perm_cons_eraseP hfind).map tag
    · exact Function.update_eq_self_iff.mpr hit.symm
  · simp [assign]
  · simp only [keys, assign, List.map_cons, hkey,
      map_key_eraseP (hc.fst_eq_iff hit)]

theorem Linked.store (hc : c.Linked) (it : Nat) (val : Option Bytes)
    (mtime : Timespec) (fsize : Nat) :
    (c.store it val mtime fsize).Linked ∧
      (c.store it val mtime fsize).keys = c.keys := by
  constructor
  · refine hc.congr (List.Perm.of_eq ?_) rfl rfl
    simp only [LRUCache.store, List.map_map]
    apply List.map_congr_left
    intro entry _
    simp only [Function.comp_apply, tag]
    split <;> rfl
  · simp only [keys, LRUCache.store, List.map_map]
    apply List.map_congr_left
    intro entry _
    simp only [Function.comp_apply]
    split <;> rfl

/-- A file that a call can read in full. -/
def Readable (file : File) : Prop :=
  ∃ s buf, file.stat = some s ∧ file.read = some buf ∧
    buf.length = s.st_size

/-- `getValue` on a key it finds: the key comes first, whatever the kernel says,
unless the file can not be read again in full. -/
theorem getValue_found (hc : c.Linked) (hit : c.cacheMap k = some it)
    (file : File) :
    (c.getValue k file = .error .assert ∧ ¬ Readable file) ∨
    ∃ val next, c.getValue k file = .ok (val, next) ∧ next.Linked ∧
      next.capacity = c.capacity ∧ next.keys = k :: c.keys.erase k := by
  obtain ⟨moved, hsplice, hbegin, hlinked, hmap, hcapacity, hkeys⟩ :=
    hc.touch hit
  obtain ⟨node, hderef⟩ := hlinked.deref_eq hmap
  have hiterator : (moved.assign k it).iterator k = .ok it := by
    rw [iterator, hmap]
  rw [getValue, hit]
  simp only [hsplice, hbegin, bind, Except.bind]
  cases hstat : file.stat with
  | none => exact Or.inr ⟨none, _, rfl, hlinked, hcapacity, hkeys⟩
  | some s =>
      simp only [hiterator, hderef]
      cases outdated s node with
      | false => exact Or.inr ⟨node.val, _, rfl, hlinked, hcapacity, hkeys⟩
      | true =>
          simp only [↓reduceIte, readInFull]
          cases hread : file.read with
          | none =>
              refine Or.inl ⟨rfl, ?_⟩
              rintro ⟨_, _, _, hsome, _⟩
              rw [hread] at hsome
              cases hsome
          | some buf =>
              by_cases hlength : buf.length = s.st_size
              · obtain ⟨hstored, hstoredKeys⟩ :=
                  hlinked.store it (some buf) s.st_mtim buf.length
                simp only [hlength, ↓reduceIte]
                refine Or.inr ⟨some buf, _, rfl, ?_, hcapacity, ?_⟩
                · rw [← hlength]
                  exact hstored
                · rw [← hlength, hstoredKeys, hkeys]
              · simp only [hlength, ↓reduceIte]
                refine Or.inl ⟨trivial, ?_⟩
                rintro ⟨_, _, hsomeStat, hsome, hfull⟩
                rw [hread] at hsome
                rw [hstat] at hsomeStat
                cases hsome
                cases hsomeStat
                exact hlength hfull

theorem Linked.evict (hc : c.Linked) (hne : c.cacheList ≠ []) :
    ∃ next, c.evict = .ok next ∧ next.Linked ∧
      next.capacity = c.capacity ∧ next.keys = c.keys.dropLast := by
  obtain ⟨front, last, hlist⟩ :
      ∃ front last, c.cacheList = front ++ [last] :=
    ⟨_, _, (List.dropLast_append_getLast hne).symm⟩
  have hnodup := hc.nodup_keys
  simp only [keys, hlist, List.map_append, List.map_cons, List.map_nil]
    at hnodup
  have hkeyNe : ∀ entry ∈ front, entry.2.key ≠ last.2.key := by
    intro entry hentry hkey
    have hmem : last.2.key ∈ front.map fun entry => entry.2.key :=
      hkey ▸ List.mem_map_of_mem hentry
    exact (List.nodup_append.mp hnodup).2.2 _ hmem _ List.mem_cons_self rfl
  have hfront : ∀ entry ∈ front, entry ∈ c.cacheList := by
    intro entry hentry
    rw [hlist]
    exact List.mem_append_left [last] hentry
  refine ⟨{ c with
    cacheMap := Function.update c.cacheMap last.2.key none
    cacheList := front }, ?_, ⟨?_, ?_, ?_, ?_⟩, rfl, ?_⟩
  · simp [LRUCache.evict, hlist]
  · intro entry hentry
    change Function.update c.cacheMap last.2.key none entry.2.key = _
    rw [Function.update_of_ne (hkeyNe entry hentry)]
    exact hc.own entry (hfront entry hentry)
  · intro k it hit
    change Function.update c.cacheMap last.2.key none k = _ at hit
    by_cases hk : k = last.2.key
    · simp [hk] at hit
    · rw [Function.update_of_ne hk] at hit
      obtain ⟨node, hnode, hkey⟩ := hc.found k it hit
      rw [hlist, List.mem_append, List.mem_singleton] at hnode
      rcases hnode with hnode | rfl
      · exact ⟨node, hnode, hkey⟩
      · exact absurd hkey.symm hk
  · have hdistinct := hc.distinct
    rw [hlist, List.map_append] at hdistinct
    exact (List.nodup_append.mp hdistinct).1
  · intro entry hentry
    exact hc.used entry (hfront entry hentry)
  · simp [keys, hlist]

/-- A new key at the front, in a new node. -/
theorem Linked.insert (hc : c.Linked) (hk : k ∉ c.keys) {node : CacheNode}
    (hnode : node.key = k) :
    ((c.pushFront node).assign k c.fresh).Linked := by
  have hkeyNe : ∀ entry ∈ c.cacheList, entry.2.key ≠ k := by
    rintro entry hentry rfl
    exact hk (List.mem_map_of_mem hentry)
  refine ⟨?_, ?_, ?_, ?_⟩
  · intro entry hentry
    change Function.update c.cacheMap k (some c.fresh) entry.2.key = _
    rcases List.mem_cons.mp hentry with rfl | hold
    · simp [hnode]
    · rw [Function.update_of_ne (hkeyNe entry hold)]
      exact hc.own entry hold
  · intro other it hit
    change Function.update c.cacheMap k (some c.fresh) other = _ at hit
    by_cases hother : other = k
    · simp only [hother, Function.update_self, Option.some.injEq] at hit
      exact ⟨node, hit ▸ List.mem_cons_self, hnode.trans hother.symm⟩
    · rw [Function.update_of_ne hother] at hit
      obtain ⟨old, hold, hkey⟩ := hc.found other it hit
      exact ⟨old, List.mem_cons_of_mem _ hold, hkey⟩
  · refine List.nodup_cons.mpr ⟨?_, hc.distinct⟩
    intro hmem
    obtain ⟨entry, hentry, haddress⟩ := List.mem_map.mp hmem
    exact absurd (hc.used entry hentry) (by rw [haddress]; exact lt_irrefl _)
  · intro entry hentry
    change entry.1 < c.fresh + 1
    rcases List.mem_cons.mp hentry with rfl | hold
    · exact Nat.lt_succ_self c.fresh
    · exact Nat.lt_succ_of_lt (hc.used entry hold)

/-- The keys that stay when a new one comes in. -/
def kept (c : LRUCache) : List Bytes :=
  if c.capacity = c.keys.length then c.keys.dropLast else c.keys

theorem Linked.evictIfFull (hc : c.Linked) (hcapacity : 1 ≤ c.capacity) :
    ∃ next, c.evictIfFull = .ok next ∧ next.Linked ∧
      next.capacity = c.capacity ∧ next.keys = c.kept := by
  have hlength : c.keys.length = c.cacheList.length := List.length_map _
  rw [kept, hlength, LRUCache.evictIfFull]
  by_cases hfull : c.capacity = c.cacheList.length
  · have hne : c.cacheList ≠ [] := by
      intro hnil
      rw [hnil] at hfull
      exact absurd hcapacity (by rw [hfull]; exact Nat.not_succ_le_zero 0)
    simpa only [hfull, ↓reduceIte] using hc.evict hne
  · simp only [hfull, ↓reduceIte]
    exact ⟨c, rfl, hc, rfl, rfl⟩

/-- `setValue` of a new key puts it before the keys that stay. -/
theorem setValue_new (hc : c.Linked) (hcapacity : 1 ≤ c.capacity)
    (hk : k ∉ c.keys) {file : File} (hfile : Readable file) :
    ∃ next, c.setValue k file = .ok next ∧ next.Linked ∧
      next.capacity = c.capacity ∧ next.keys = k :: c.kept := by
  obtain ⟨s, buf, hstat, hread, hlength⟩ := hfile
  obtain ⟨room, hroom, hlinked, hroomCapacity, hkeys⟩ :=
    hc.evictIfFull hcapacity
  have hnew : k ∉ room.keys := by
    rw [hkeys, kept]
    intro hmem
    split at hmem
    · exact hk (List.mem_of_mem_dropLast hmem)
    · exact hk hmem
  rw [setValue, (hc.none_iff k).mpr hk]
  simp only [hroom, hstat, readInFull, hread, hlength, ↓reduceIte, bind,
    Except.bind, begin, pushFront]
  refine ⟨_, rfl, ?_, hroomCapacity, ?_⟩
  · apply hlinked.insert hnew
    rfl
  · simp only [keys] at hkeys
    simp [keys, assign, hkeys]

end LRUCache

end Sone

end LinuxTest
