/-
The file cache with the addresses of its buffers.  `getValue` returns the
address that a node has in `val`; a refresh and an eviction delete the buffer
there, whoever may still have its address.
-/
import LinuxTest.LRUCacheSpec

namespace LinuxTest

namespace Sone

namespace LRUCache

/-- `getValue` on the node at `it` reads the file again. -/
def expired (c : LRUCache) (it : Nat) (file : File) : Bool :=
  match file.stat, c.deref it with
  | some s, .ok node => outdated s node
  | _, _ => false

/-- The call of `getValue` replaces the buffer of its key. -/
def refreshes (c : LRUCache) (k : Bytes) (file : File) : Bool :=
  match c.cacheMap k with
  | some it => c.expired it file
  | none => false

/-- The node that the next insertion gives up. -/
def victim (c : LRUCache) : Option (Nat × CacheNode) :=
  if c.capacity = c.cacheList.length then c.cacheList.getLast? else none

/-- The cache, the address that the node at an address has in `val`, what the
live buffers hold and the address of the next buffer. -/
structure Buffered where
  cache : LRUCache
  val : Nat → Nat
  heap : Nat → Option Bytes
  next : Nat

namespace Buffered

/-- `delete`, and `new` for the node at `it` of a buffer with what was read. -/
def replace (b : Buffered) (gone : Option Nat) (it : Nat) (buf : Bytes)
    (cache : LRUCache) : Buffered where
  cache := cache
  val := Function.update b.val it b.next
  heap := fun p =>
    if p = b.next then some buf else if some p = gone then none else b.heap p
  next := b.next + 1

/-- `getValue` with the pointer it returns. -/
def getValue (b : Buffered) (k : Bytes) (file : File) :
    Except Halt (Option Nat × Buffered) := do
  let (val, cache) ← b.cache.getValue k file
  match val with
  | none => return (none, { b with cache := cache })
  | some buf =>
      let it ← b.cache.iterator k
      if b.cache.expired it file then
        return (some b.next, b.replace (some (b.val it)) it buf cache)
      else
        return (some (b.val it), { b with cache := cache })

/-- `setValue`; the new node is at the next address. -/
def setValue (b : Buffered) (k : Bytes) (file : File) :
    Except Halt Buffered := do
  let cache ← b.cache.setValue k file
  match b.cache.cacheMap k, file.read with
  | none, some buf =>
      return b.replace (b.cache.victim.map fun entry => b.val entry.1)
        b.cache.fresh buf cache
  | _, _ => return { b with cache := cache }

/-- The ways in which `getValue` returns. -/
inductive Gets (b : Buffered) (k : Bytes) (file : File) :
    Option Nat → Buffered → Prop where
  | absent (habsent : b.cache.cacheMap k = none) : Gets b k file none b
  | unknown {it : Nat} {node : CacheNode} (hit : b.cache.cacheMap k = some it)
      (hnode : (it, node) ∈ b.cache.cacheList) (hstat : file.stat = none) :
      Gets b k file none { b with cache := b.cache.front it node }
  | null {it : Nat} {node : CacheNode} (hit : b.cache.cacheMap k = some it)
      (hnode : (it, node) ∈ b.cache.cacheList) (hnull : node.val = none) :
      Gets b k file none { b with cache := b.cache.front it node }
  | current {it : Nat} {node : CacheNode} (hit : b.cache.cacheMap k = some it)
      (hnode : (it, node) ∈ b.cache.cacheList) :
      Gets b k file (some (b.val it)) { b with cache := b.cache.front it node }
  | refreshed {it : Nat} {node : CacheNode} {s : Stat} {buf : Bytes}
      (hit : b.cache.cacheMap k = some it)
      (hnode : (it, node) ∈ b.cache.cacheList)
      (hrefreshes : b.cache.refreshes k file) (hstat : file.stat = some s)
      (hread : file.read = some buf) (hlength : buf.length = s.st_size) :
      Gets b k file (some b.next) (b.replace (some (b.val it)) it buf
        (b.cache.front it { node with
          val := some buf, mtime := s.st_mtim, fsize := buf.length }))

variable {b next : Buffered} {k : Bytes} {file : File}

theorem expired_eq {c : LRUCache} (hlinked : c.Linked) {it : Nat}
    {node : CacheNode} {st : Stat} (hnode : (it, node) ∈ c.cacheList)
    (hstat : file.stat = some st) :
    c.expired it file = outdated st node := by
  simp only [expired, hstat, deref, hlinked.find_node hnode]

theorem getValue_cases (hlinked : b.cache.Linked) {p : Option Nat}
    (hget : b.getValue k file = .ok (p, next)) : Gets b k file p next := by
  rw [getValue] at hget
  obtain ⟨⟨val, cache⟩, hcache, hget⟩ := bind_eq_ok hget
  have hiterator {it : Nat} (hit : b.cache.cacheMap k = some it) :
      b.cache.iterator k = .ok it := by
    rw [iterator, hit]
  cases LRUCache.getValue_cases hlinked hcache with
  | absent habsent =>
      cases hget
      exact .absent habsent
  | unknown hit hnode hstat =>
      cases hget
      exact .unknown hit hnode hstat
  | @current it node st hit hnode hstat hcurrent =>
      cases hval : node.val with
      | none =>
          simp only [hval] at hget
          cases hget
          exact .null hit hnode hval
      | some buf =>
          simp only [hval, hiterator hit, bind, Except.bind,
            expired_eq hlinked hnode hstat, hcurrent] at hget
          cases hget
          exact .current hit hnode
  | @refreshed it node st buf hit hnode hstat houtdated hread hlength =>
      have hexpired : b.cache.expired it file = true := by
        rw [expired_eq hlinked hnode hstat, houtdated]
      simp only [hiterator hit, bind, Except.bind, hexpired] at hget
      cases hget
      refine .refreshed hit hnode ?_ hstat hread hlength
      rw [refreshes, hit]
      exact hexpired

/-- The ways in which `setValue` returns. -/
inductive Sets (b : Buffered) (k : Bytes) (file : File) : Buffered → Prop where
  | present {it : Nat} (hit : b.cache.cacheMap k = some it) : Sets b k file b
  | inserted {room : LRUCache} {s : Stat} {buf : Bytes}
      (habsent : b.cache.cacheMap k = none)
      (hroom : b.cache.evictIfFull = .ok room) (hstat : file.stat = some s)
      (hread : file.read = some buf) (hlength : buf.length = s.st_size) :
      Sets b k file (b.replace (b.cache.victim.map fun entry => b.val entry.1)
        b.cache.fresh buf ((room.pushFront
          ⟨k, some buf, s.st_mtim, buf.length⟩).assign k room.fresh))

theorem setValue_cases (hset : b.setValue k file = .ok next) :
    Sets b k file next := by
  rw [setValue] at hset
  obtain ⟨cache, hcache, hset⟩ := bind_eq_ok hset
  cases LRUCache.setValue_cases hcache with
  | present hit =>
      simp only [hit] at hset
      cases hset
      exact .present hit
  | inserted habsent hroom hstat hread hlength =>
      simp only [habsent, hread] at hset
      cases hset
      exact .inserted habsent hroom hstat hread hlength

/-! ### The buffers of the nodes -/

/-- Each node has a live buffer of its own, of which `fsize` is the length and
the content is one that `P` allows for the key. -/
structure Backed (P : Bytes → Bytes → Prop) (b : Buffered) : Prop where
  linked : b.cache.Linked
  live : ∀ entry ∈ b.cache.cacheList, ∃ buf, entry.2.val = some buf ∧
    b.heap (b.val entry.1) = some buf ∧ entry.2.fsize = buf.length ∧
    P entry.2.key buf
  apart : ∀ entry ∈ b.cache.cacheList, ∀ other ∈ b.cache.cacheList,
    b.val entry.1 = b.val other.1 → entry.1 = other.1
  used : ∀ entry ∈ b.cache.cacheList, b.val entry.1 < b.next

/-- The node of the key has the address of a live buffer and its length. -/
structure Holds (b : Buffered) (k : Bytes) (p : Nat) (buf : Bytes) : Prop where
  node : ∃ it node, b.cache.cacheMap k = some it ∧
    (it, node) ∈ b.cache.cacheList ∧ b.val it = p ∧ node.fsize = buf.length
  live : b.heap p = some buf

variable {P : Bytes → Bytes → Prop}

theorem Backed.holds (hb : Backed P b) {it : Nat}
    (hit : b.cache.cacheMap k = some it) :
    ∃ buf, b.Holds k (b.val it) buf ∧ P k buf := by
  obtain ⟨node, hnode, hkey⟩ := hb.linked.found k it hit
  obtain ⟨buf, _, hlive, hsize, hP⟩ := hb.live (it, node) hnode
  exact ⟨buf, ⟨⟨it, node, hit, hnode, rfl, hsize⟩, hlive⟩, hkey ▸ hP⟩

theorem Backed.mono {Q : Bytes → Bytes → Prop} (hb : Backed P b)
    (himp : ∀ k buf, P k buf → Q k buf) : Backed Q b := by
  refine ⟨hb.linked, ?_, hb.apart, hb.used⟩
  intro entry hentry
  obtain ⟨buf, hval, hlive, hsize, hP⟩ := hb.live entry hentry
  exact ⟨buf, hval, hlive, hsize, himp _ _ hP⟩

/-- A key has one buffer. -/
theorem Holds.unique {p q : Nat} {buf bytes : Bytes} (hfirst : b.Holds k p buf)
    (hlast : b.Holds k q bytes) : p = q ∧ buf = bytes := by
  obtain ⟨⟨it, _, hit, _, rfl, _⟩, hlive⟩ := hfirst
  obtain ⟨⟨_, _, hit', _, rfl, _⟩, hlive'⟩ := hlast
  rw [hit] at hit'
  cases hit'
  rw [hlive] at hlive'
  exact ⟨rfl, Option.some.inj hlive'⟩

theorem Backed.content (hb : Backed P b) {p : Nat} {buf : Bytes}
    (hholds : b.Holds k p buf) : P k buf := by
  obtain ⟨it, _, hit, _⟩ := hholds.node
  obtain ⟨bytes, hother, hP⟩ := hb.holds hit
  rw [(hholds.unique hother).2]
  exact hP

/-- `getSize` of a key with a buffer. -/
theorem Holds.getSize (hlinked : b.cache.Linked) {p : Nat} {buf : Bytes}
    (hholds : b.Holds k p buf) : b.cache.getSize k = .ok buf.length := by
  obtain ⟨it, node, hit, hnode, _, hsize⟩ := hholds.node
  rw [LRUCache.getSize, hit]
  simp only [deref, hlinked.find_node hnode, bind, Except.bind, pure,
    Except.pure, hsize]

/-- A node moves to the front. -/
theorem Backed.front (hb : Backed P b) {it : Nat} {node : CacheNode}
    (hnode : (it, node) ∈ b.cache.cacheList) :
    Backed P { b with cache := b.cache.front it node } := by
  have hmem : ∀ entry ∈ (b.cache.front it node).cacheList,
      entry ∈ b.cache.cacheList := by
    intro entry hentry
    rcases hb.linked.mem_front.mp hentry with rfl | ⟨hold, _⟩
    · exact hnode
    · exact hold
  refine ⟨hb.linked.front hnode rfl, ?_, ?_, ?_⟩
  · exact fun entry hentry => hb.live entry (hmem entry hentry)
  · exact fun entry hentry other hother =>
      hb.apart entry (hmem entry hentry) other (hmem other hother)
  · exact fun entry hentry => hb.used entry (hmem entry hentry)

section Replace

variable {gone : Option Nat} {it : Nat} {buf : Bytes} {cache : LRUCache}

@[simp] theorem replace_val_self :
    (b.replace gone it buf cache).val it = b.next :=
  Function.update_self ..

theorem replace_val_of_ne {other : Nat} (hne : other ≠ it) :
    (b.replace gone it buf cache).val other = b.val other :=
  Function.update_of_ne hne ..

/-- A new buffer for the node at `it`, when the nodes that stay keep theirs. -/
theorem Backed.replace (hb : Backed P b) (node : CacheNode)
    (hlinked : cache.Linked)
    (hmem : ∀ entry ∈ cache.cacheList, entry = (it, node) ∨
      (entry ∈ b.cache.cacheList ∧ entry.1 ≠ it ∧
        some (b.val entry.1) ≠ gone))
    (hval : node.val = some buf) (hsize : node.fsize = buf.length)
    (hP : P node.key buf) : Backed P (b.replace gone it buf cache) := by
  refine ⟨hlinked, ?_, ?_, ?_⟩
  · intro entry hentry
    rcases hmem entry hentry with rfl | ⟨hstays, hne, hkept⟩
    · refine ⟨buf, hval, ?_, hsize, hP⟩
      rw [replace_val_self]
      exact if_pos rfl
    · obtain ⟨bytes, hbytes, hlive, hrest⟩ := hb.live entry hstays
      refine ⟨bytes, hbytes, ?_, hrest⟩
      rw [replace_val_of_ne hne, ← hlive]
      have hlt := hb.used entry hstays
      exact (if_neg (Nat.ne_of_lt hlt)).trans (if_neg hkept)
  · intro entry hentry other hother hsame
    rcases hmem entry hentry with rfl | ⟨hstays, hne, _⟩ <;>
      rcases hmem other hother with rfl | ⟨hothers, hneOther, _⟩
    · rfl
    · rw [replace_val_self, replace_val_of_ne hneOther] at hsame
      have hlt := hb.used other hothers
      omega
    · rw [replace_val_self, replace_val_of_ne hne] at hsame
      have hlt := hb.used entry hstays
      omega
    · rw [replace_val_of_ne hne, replace_val_of_ne hneOther] at hsame
      exact hb.apart entry hstays other hothers hsame
  · intro entry hentry
    change _ < b.next + 1
    rcases hmem entry hentry with rfl | ⟨hstays, hne, _⟩
    · rw [replace_val_self]
      omega
    · rw [replace_val_of_ne hne]
      have hlt := hb.used entry hstays
      omega

end Replace

theorem Holds.front {q it : Nat} {bytes : Bytes} {other : Bytes}
    {node : CacheNode} (hlinked : b.cache.Linked)
    (hnode : (it, node) ∈ b.cache.cacheList) (hholds : b.Holds other q bytes) :
    Holds { b with cache := b.cache.front it node } other q bytes := by
  obtain ⟨⟨address, found, haddress, hfound, hval, hsize⟩, hlive⟩ := hholds
  refine ⟨⟨address, found, haddress, ?_, hval, hsize⟩, hlive⟩
  rw [hlinked.mem_front]
  by_cases hsame : address = it
  · subst hsame
    left
    exact List.inj_on_of_nodup_map hlinked.distinct hfound hnode rfl
  · exact Or.inr ⟨hfound, hsame⟩

/-- A buffer stays when its node stays and it is not the one deleted. -/
theorem Holds.replace (hb : Backed P b) {gone : Option Nat} {it q : Nat}
    {bytes buf other : Bytes} {cache : LRUCache}
    (hholds : b.Holds other q bytes)
    (hkept : ∀ entry ∈ b.cache.cacheList, entry.2.key = other →
      entry ∈ cache.cacheList ∧ entry.1 ≠ it ∧ some (b.val entry.1) ≠ gone)
    (hmap : cache.cacheMap other = b.cache.cacheMap other) :
    (b.replace gone it buf cache).Holds other q bytes := by
  obtain ⟨⟨address, found, haddress, hfound, rfl, hsize⟩, hlive⟩ := hholds
  obtain ⟨hstays, hne, hdeleted⟩ := hkept (address, found) hfound
    (hb.linked.key_eq haddress hfound)
  refine ⟨⟨address, found, hmap.trans haddress, hstays, ?_, hsize⟩, ?_⟩
  · exact replace_val_of_ne hne
  · have hlt := hb.used (address, found) hfound
    rw [← hlive]
    exact (if_neg (Nat.ne_of_lt hlt)).trans (if_neg hdeleted)

/-! ### `getValue` -/

theorem Gets.backed {p : Option Nat} (hget : Gets b k file p next)
    (hb : Backed P b)
    (hP : ∀ s buf, file.stat = some s → file.read = some buf →
      buf.length = s.st_size → P k buf) : Backed P next := by
  cases hget with
  | absent _ => exact hb
  | unknown _ hnode _ => exact hb.front hnode
  | null _ hnode _ => exact hb.front hnode
  | current _ hnode => exact hb.front hnode
  | @refreshed it node s buf hit hnode _ hstat hread hlength =>
      have hnew : P node.key buf := by
        rw [hb.linked.key_eq hit hnode]
        exact hP s buf hstat hread hlength
      refine hb.replace ⟨node.key, some buf, s.st_mtim, buf.length⟩
        (hb.linked.front hnode rfl) (fun entry hentry => ?_) rfl rfl hnew
      rcases hb.linked.mem_front.mp hentry with hfront | ⟨hold, hne⟩
      · exact Or.inl hfront
      · refine Or.inr ⟨hold, hne, ?_⟩
        intro hsame
        exact hne (hb.apart entry hold _ hnode (Option.some.inj hsame))

/-- Of the buffers only that of the key can go, and only in a refresh. -/
theorem Gets.keeps {p : Option Nat} (hget : Gets b k file p next)
    (hb : Backed P b) {other bytes : Bytes} {q : Nat}
    (hholds : b.Holds other q bytes)
    (hquiet : b.cache.refreshes k file → other ≠ k) :
    next.Holds other q bytes := by
  cases hget with
  | absent _ => exact hholds
  | unknown _ hnode _ => exact hholds.front hb.linked hnode
  | null _ hnode _ => exact hholds.front hb.linked hnode
  | current _ hnode => exact hholds.front hb.linked hnode
  | @refreshed it node s buf hit hnode hrefreshes hstat hread hlength =>
      refine hholds.replace hb ?_ rfl
      intro entry hentry hkey
      have hne : entry.1 ≠ it := by
        intro haddress
        rw [hb.linked.fst_eq_iff hit entry hentry] at haddress
        exact hquiet hrefreshes (hkey.symm.trans haddress)
      refine ⟨hb.linked.mem_front.mpr (Or.inr ⟨hentry, hne⟩), hne, ?_⟩
      intro hsame
      exact hne (hb.apart entry hentry _ hnode (Option.some.inj hsame))

/-- The pointer that is returned is that of the key's buffer. -/
theorem Gets.holds {q : Nat} (hget : Gets b k file (some q) next)
    (hnext : Backed P next) : ∃ buf, next.Holds k q buf ∧ P k buf := by
  cases hget with
  | current hit _ => exact hnext.holds hit
  | @refreshed it _ _ _ hit _ _ _ _ _ =>
      have hholds := hnext.holds hit
      rw [replace_val_self] at hholds
      exact hholds

theorem Gets.cacheMap_eq {p : Option Nat} (hget : Gets b k file p next) :
    next.cache.cacheMap = b.cache.cacheMap := by
  cases hget <;> rfl

/-- A key that is found, of a file that `stat` finds, has a pointer. -/
theorem Gets.exists_pointer {p : Option Nat} (hget : Gets b k file p next)
    (hb : Backed P b) {it : Nat} (hit : b.cache.cacheMap k = some it)
    (hstat : file.stat ≠ none) : ∃ q, p = some q := by
  cases hget with
  | absent habsent =>
      rw [hit] at habsent
      cases habsent
  | unknown _ _ hunknown => exact absurd hunknown hstat
  | null _ hnode hnull =>
      obtain ⟨buf, hbuf, _⟩ := hb.live _ hnode
      rw [hnull] at hbuf
      cases hbuf
  | current => exact ⟨_, rfl⟩
  | refreshed => exact ⟨_, rfl⟩

/-! ### `setValue` -/

/-- What making room gives up. -/
theorem evictIfFull_cases {c room : LRUCache}
    (hroom : c.evictIfFull = .ok room) :
    (c.victim = none ∧ room = c) ∨
    ∃ entry, c.victim = some entry ∧ c.cacheList = room.cacheList ++ [entry] ∧
      room.cacheMap = Function.update c.cacheMap entry.2.key none ∧
      room.fresh = c.fresh := by
  rw [LRUCache.evictIfFull] at hroom
  split at hroom
  · case isTrue hfull =>
      rw [LRUCache.evict] at hroom
      cases hlast : c.cacheList.getLast? with
      | none => simp [hlast] at hroom
      | some entry =>
          simp only [hlast] at hroom
          cases hroom
          refine Or.inr ⟨entry, ?_, ?_, rfl, rfl⟩
          · rw [victim, if_pos hfull, hlast]
          · exact (List.dropLast_append_getLast? entry hlast).symm
  · case isFalse hroomy =>
      cases hroom
      exact Or.inl ⟨by rw [victim, if_neg hroomy], rfl⟩

/-- The nodes that stay keep their buffers. -/
theorem Backed.val_ne_victim (hb : Backed P b) {room : LRUCache}
    (hroom : b.cache.evictIfFull = .ok room) {entry : Nat × CacheNode}
    (hentry : entry ∈ room.cacheList) :
    some (b.val entry.1) ≠ b.cache.victim.map fun entry => b.val entry.1 := by
  have hold := (hb.linked.of_evictIfFull hroom).2 entry hentry
  rcases evictIfFull_cases hroom with ⟨hnone, _⟩ | ⟨last, hlast, hlist, _, _⟩
  · rw [hnone]
    nofun
  · rw [hlast]
    intro hsame
    have haddress := hb.apart entry hold last (by simp [hlist])
      (Option.some.inj hsame)
    have hdistinct := hb.linked.distinct
    rw [hlist, List.map_append] at hdistinct
    exact (List.nodup_append.mp hdistinct).2.2 _ (List.mem_map_of_mem hentry)
      _ (List.mem_singleton.mpr rfl) haddress

theorem room_fresh {c room : LRUCache} (hroom : c.evictIfFull = .ok room) :
    room.fresh = c.fresh := by
  rcases evictIfFull_cases hroom with ⟨_, rfl⟩ | ⟨_, _, _, _, hfresh⟩
  · rfl
  · exact hfresh

theorem Sets.backed (hset : Sets b k file next) (hb : Backed P b)
    (hP : ∀ s buf, file.stat = some s → file.read = some buf →
      buf.length = s.st_size → P k buf) : Backed P next := by
  cases hset with
  | present _ => exact hb
  | @inserted room s buf habsent hroom hstat hread hlength =>
      have hlinked := (SetValue.inserted habsent hroom hstat hread
        hlength).linked hb.linked
      refine hb.replace ⟨k, some buf, s.st_mtim, buf.length⟩ hlinked
        (fun entry hentry => ?_) rfl rfl (hP s buf hstat hread hlength)
      rcases List.mem_cons.mp hentry with hnew | hstays
      · left
        rw [hnew, room_fresh hroom]
      · have hold := (hb.linked.of_evictIfFull hroom).2 entry hstays
        exact Or.inr ⟨hold, Nat.ne_of_lt (hb.linked.used entry hold),
          hb.val_ne_victim hroom hstays⟩

/-- Of the buffers only that of the node given up can go. -/
theorem Sets.keeps (hset : Sets b k file next) (hb : Backed P b)
    {other bytes : Bytes} {q : Nat} (hholds : b.Holds other q bytes)
    (hquiet : ∀ entry, b.cache.cacheMap k = none →
      b.cache.victim = some entry → other ≠ entry.2.key) :
    next.Holds other q bytes := by
  cases hset with
  | present _ => exact hholds
  | @inserted room s buf habsent hroom hstat hread hlength =>
      have hpresent : other ≠ k := by
        rintro rfl
        obtain ⟨⟨it, _, hit, _⟩, _⟩ := hholds
        rw [habsent] at hit
        cases hit
      have hmap : room.cacheMap other = b.cache.cacheMap other := by
        rcases evictIfFull_cases hroom with
          ⟨_, rfl⟩ | ⟨last, hlast, _, hmap, _⟩
        · rfl
        · rw [hmap]
          exact Function.update_of_ne (hquiet last habsent hlast) ..
      refine hholds.replace hb ?_
        ((Function.update_of_ne hpresent ..).trans hmap)
      intro entry hentry hkey
      have hstays : entry ∈ room.cacheList := by
        rcases evictIfFull_cases hroom with
          ⟨_, rfl⟩ | ⟨last, hlast, hlist, _, _⟩
        · exact hentry
        · rw [hlist, List.mem_append, List.mem_singleton] at hentry
          rcases hentry with hstays | rfl
          · exact hstays
          · exact absurd hkey.symm (hquiet entry habsent hlast)
      exact ⟨List.mem_cons_of_mem _ hstays,
        Nat.ne_of_lt (hb.linked.used entry hentry),
        hb.val_ne_victim hroom hstays⟩

/-- The key is in the cache afterwards. -/
theorem Sets.found (hset : Sets b k file next) :
    ∃ it, next.cache.cacheMap k = some it := by
  cases hset with
  | present hit => exact ⟨_, hit⟩
  | inserted => exact ⟨_, Function.update_self ..⟩

end Buffered

end LRUCache

end Sone

end LinuxTest
