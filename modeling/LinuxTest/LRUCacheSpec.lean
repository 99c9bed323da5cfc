/-
What a call on the file cache that returns can have done.
-/
import LinuxTest.LRUCache

namespace LinuxTest

namespace Sone

namespace LRUCache

/-- The cache with the node at `it` moved to the front and replaced. -/
def front (c : LRUCache) (it : Nat) (node : CacheNode) : LRUCache :=
  { c with cacheList := (it, node) ::
      c.cacheList.eraseP fun entry => entry.1 = it }

/-- The ways in which `getValue` returns. -/
inductive GetValue (c : LRUCache) (k : Bytes) (file : File) :
    Option Bytes → LRUCache → Prop where
  | absent (habsent : c.cacheMap k = none) : GetValue c k file none c
  | unknown {it : Nat} {node : CacheNode} (hit : c.cacheMap k = some it)
      (hnode : (it, node) ∈ c.cacheList) (hstat : file.stat = none) :
      GetValue c k file none (c.front it node)
  | current {it : Nat} {node : CacheNode} {s : Stat}
      (hit : c.cacheMap k = some it) (hnode : (it, node) ∈ c.cacheList)
      (hstat : file.stat = some s) (hcurrent : outdated s node = false) :
      GetValue c k file node.val (c.front it node)
  | refreshed {it : Nat} {node : CacheNode} {s : Stat} {buf : Bytes}
      (hit : c.cacheMap k = some it) (hnode : (it, node) ∈ c.cacheList)
      (hstat : file.stat = some s) (houtdated : outdated s node = true)
      (hread : file.read = some buf) (hlength : buf.length = s.st_size) :
      GetValue c k file (some buf) (c.front it
        { node with val := some buf, mtime := s.st_mtim, fsize := buf.length })

/-- The ways in which `setValue` returns. -/
inductive SetValue (c : LRUCache) (k : Bytes) (file : File) :
    LRUCache → Prop where
  | present {it : Nat} (hit : c.cacheMap k = some it) : SetValue c k file c
  | inserted {room : LRUCache} {s : Stat} {buf : Bytes}
      (habsent : c.cacheMap k = none) (hroom : c.evictIfFull = .ok room)
      (hstat : file.stat = some s) (hread : file.read = some buf)
      (hlength : buf.length = s.st_size) :
      SetValue c k file ((room.pushFront
        ⟨k, some buf, s.st_mtim, buf.length⟩).assign k room.fresh)

variable {c : LRUCache} {k : Bytes} {it : Nat} {node : CacheNode}

/-! ### The front -/

theorem Linked.key_eq (hc : c.Linked) (hit : c.cacheMap k = some it)
    (hnode : (it, node) ∈ c.cacheList) : node.key = k :=
  (hc.fst_eq_iff hit (it, node) hnode).mp rfl

theorem Linked.find_node (hc : c.Linked) (hnode : (it, node) ∈ c.cacheList) :
    (c.cacheList.find? fun entry => entry.1 = it) = some (it, node) := by
  obtain ⟨found, hfound, _, hfind⟩ := hc.find_eq (hc.own (it, node) hnode)
  have hsame : (it, found) = (it, node) :=
    List.inj_on_of_nodup_map hc.distinct hfound hnode rfl
  rw [hfind, hsame]

theorem mem_eraseP_fst {entries : List (Nat × CacheNode)}
    (hdistinct : (entries.map Prod.fst).Nodup) {entry : Nat × CacheNode} :
    entry ∈ entries.eraseP (fun entry => entry.1 = it) ↔
      entry ∈ entries ∧ entry.1 ≠ it := by
  induction entries with
  | nil => simp
  | cons head tail ih =>
      rw [List.map_cons, List.nodup_cons] at hdistinct
      by_cases hhead : head.1 = it
      · have htail : entry ∈ tail → entry.1 ≠ it := fun hmem heq =>
          hdistinct.1 (hhead.trans heq.symm ▸ List.mem_map_of_mem hmem)
        simp only [List.eraseP_cons, hhead, decide_true, cond_true,
          List.mem_cons]
        constructor
        · exact fun hmem => ⟨Or.inr hmem, htail hmem⟩
        · rintro ⟨rfl | hmem, hne⟩
          · exact absurd hhead hne
          · exact hmem
      · simp only [List.eraseP_cons, hhead, decide_false, cond_false,
          List.mem_cons, ih hdistinct.2]
        constructor
        · rintro (rfl | ⟨hmem, hne⟩)
          · exact ⟨Or.inl rfl, hhead⟩
          · exact ⟨Or.inr hmem, hne⟩
        · rintro ⟨rfl | hmem, hne⟩
          · exact Or.inl rfl
          · exact Or.inr ⟨hmem, hne⟩

theorem Linked.mem_front (hc : c.Linked) {entry : Nat × CacheNode} :
    entry ∈ (c.front it node).cacheList ↔
      entry = (it, node) ∨ (entry ∈ c.cacheList ∧ entry.1 ≠ it) := by
  rw [front, List.mem_cons, mem_eraseP_fst hc.distinct]

theorem Linked.front (hc : c.Linked) {old : CacheNode}
    (hold : (it, old) ∈ c.cacheList) (hkey : node.key = old.key) :
    (c.front it node).Linked := by
  refine hc.congr ?_ rfl rfl
  have hperm := (perm_cons_eraseP (hc.find_node hold)).map tag
  have htag : tag (it, node) = tag (it, old) := by
    rw [tag, tag, hkey]
  rw [LRUCache.front, List.map_cons, htag]
  exact hperm

theorem deref_front : (c.front it node).deref it = .ok node := by
  simp [deref, front]

theorem Linked.store_front (hc : c.Linked) (val : Option Bytes)
    (mtime : Timespec) (fsize : Nat) :
    (c.front it node).store it val mtime fsize = c.front it
      { node with val := val, mtime := mtime, fsize := fsize } := by
  have htail : (c.cacheList.eraseP fun entry => entry.1 = it).map
      (fun entry => if entry.1 = it then
        (entry.1, ({ entry.2 with
          val := val, mtime := mtime, fsize := fsize } : CacheNode))
        else entry) = c.cacheList.eraseP fun entry => entry.1 = it := by
    refine (List.map_congr_left ?_).trans (List.map_id _)
    intro entry hentry
    exact if_neg ((mem_eraseP_fst hc.distinct).mp hentry).2
  simp only [LRUCache.store, LRUCache.front, List.map_cons, ↓reduceIte, htail]

/-! ### The calls -/

theorem map_eq_ok {A B : Type} {result : Except Halt A} {f : A → B} {value : B}
    (hmap : result.map f = .ok value) : ∃ a, result = .ok a ∧ f a = value := by
  cases result with
  | error halt => cases hmap
  | ok a =>
      cases hmap
      exact ⟨a, rfl, rfl⟩

theorem bind_eq_ok {A B : Type} {result : Except Halt A}
    {next : A → Except Halt B} {value : B}
    (hbind : result >>= next = .ok value) :
    ∃ a, result = .ok a ∧ next a = .ok value := by
  cases result with
  | error halt => cases hbind
  | ok a => exact ⟨a, rfl, hbind⟩

theorem toOption_eq_some {A : Type} {result : Except Halt A} {value : A}
    (hsome : result.toOption = some value) : result = .ok value := by
  cases result with
  | error halt => cases hsome
  | ok a =>
      cases hsome
      rfl

theorem Linked.splice_eq (hc : c.Linked) (hnode : (it, node) ∈ c.cacheList) :
    c.splice it = .ok (c.front it node) := by
  rw [splice, hc.find_node hnode]
  rfl

theorem begin_front : (c.front it node).begin = .ok it := rfl

theorem assign_front (hit : c.cacheMap k = some it) :
    (c.front it node).assign k it = c.front it node := by
  rw [assign]
  congr 1
  exact Function.update_eq_self_iff.mpr hit.symm

theorem iterator_front (hit : c.cacheMap k = some it) :
    (c.front it node).iterator k = .ok it := by
  have hmap : (c.front it node).cacheMap k = some it := hit
  rw [iterator, hmap]

theorem getSize_front (hit : c.cacheMap k = some it) (node : CacheNode) :
    (c.front it node).getSize k = .ok node.fsize := by
  have hmap : (c.front it node).cacheMap k = some it := hit
  rw [getSize, hmap]
  simp only [deref_front, bind, Except.bind, pure, Except.pure]

theorem getValue_found_eq (hc : c.Linked) (hit : c.cacheMap k = some it)
    (hnode : (it, node) ∈ c.cacheList) (file : File) :
    c.getValue k file = match file.stat with
      | none => .ok (none, c.front it node)
      | some s =>
          if outdated s node then
            (readInFull file s).map fun buf => (some buf, c.front it
              { node with
                val := some buf, mtime := s.st_mtim, fsize := buf.length })
          else .ok (node.val, c.front it node) := by
  rw [getValue, hit]
  simp only [hc.splice_eq hnode, bind, Except.bind, begin_front,
    assign_front hit, iterator_front hit, deref_front, pure, Except.pure]
  cases file.stat with
  | none => rfl
  | some s =>
      simp only []
      split
      · cases readInFull file s with
        | error halt => rfl
        | ok buf => simp only [hc.store_front, Except.map]
      · rfl

theorem readInFull_ok {file : File} {s : Stat} {buf : Bytes}
    (hread : readInFull file s = .ok buf) :
    file.read = some buf ∧ buf.length = s.st_size := by
  rw [readInFull] at hread
  cases hfile : file.read with
  | none => simp [hfile] at hread
  | some bytes =>
      simp only [hfile] at hread
      split at hread
      · case isTrue hlength =>
          cases hread
          exact ⟨rfl, hlength⟩
      · cases hread

theorem getValue_cases (hc : c.Linked) {file : File} {val : Option Bytes}
    {next : LRUCache} (hget : c.getValue k file = .ok (val, next)) :
    GetValue c k file val next := by
  cases hmap : c.cacheMap k with
  | none =>
      rw [getValue, hmap] at hget
      cases hget
      exact .absent hmap
  | some it =>
      obtain ⟨node, hnode, _⟩ := hc.found k it hmap
      rw [getValue_found_eq hc hmap hnode] at hget
      cases hstat : file.stat with
      | none =>
          simp only [hstat] at hget
          cases hget
          exact .unknown hmap hnode hstat
      | some s =>
          simp only [hstat] at hget
          split at hget
          · case isTrue houtdated =>
              obtain ⟨buf, hread, hresult⟩ := map_eq_ok hget
              obtain ⟨hbuf, hlength⟩ := readInFull_ok hread
              cases hresult
              exact .refreshed hmap hnode hstat houtdated hbuf hlength
          · case isFalse hcurrent =>
              cases hget
              exact .current hmap hnode hstat (by simpa using hcurrent)

theorem setValue_cases {file : File} {next : LRUCache}
    (hset : c.setValue k file = .ok next) : SetValue c k file next := by
  rw [setValue] at hset
  cases hmap : c.cacheMap k with
  | some it =>
      simp only [hmap] at hset
      cases hset
      exact .present hmap
  | none =>
      simp only [hmap] at hset
      obtain ⟨room, hroom, hset⟩ := bind_eq_ok hset
      cases hstat : file.stat with
      | none => simp [hstat] at hset
      | some s =>
          simp only [hstat] at hset
          obtain ⟨buf, hread, hset⟩ := bind_eq_ok hset
          obtain ⟨hbuf, hlength⟩ := readInFull_ok hread
          cases hset
          exact .inserted hmap hroom hstat hbuf hlength

/-- Room is made by giving up nodes only. -/
theorem Linked.of_evictIfFull (hc : c.Linked) {room : LRUCache}
    (hroom : c.evictIfFull = .ok room) :
    room.Linked ∧ ∀ entry ∈ room.cacheList, entry ∈ c.cacheList := by
  rw [LRUCache.evictIfFull] at hroom
  split at hroom
  · have hne : c.cacheList ≠ [] := by
      intro hnil
      rw [LRUCache.evict, hnil] at hroom
      cases hroom
    obtain ⟨next, hnext, hlinked, _, _⟩ := hc.evict hne
    rw [hroom] at hnext
    cases hnext
    refine ⟨hlinked, ?_⟩
    rw [LRUCache.evict, List.getLast?_eq_getLast_of_ne_nil hne] at hroom
    cases hroom
    exact fun entry hentry => List.mem_of_mem_dropLast hentry
  · cases hroom
    exact ⟨hc, fun entry hentry => hentry⟩

/-- `setValue` keeps list and map in step. -/
theorem SetValue.linked {file : File} {next : LRUCache}
    (hset : SetValue c k file next) (hc : c.Linked) : next.Linked := by
  cases hset with
  | present => exact hc
  | inserted habsent hroom _ _ _ =>
      obtain ⟨hlinked, hkept⟩ := hc.of_evictIfFull hroom
      refine hlinked.insert ?_ rfl
      intro hmem
      obtain ⟨entry, hentry, hkey⟩ := List.mem_map.mp hmem
      have hown := hc.own entry (hkept entry hentry)
      rw [hkey, habsent] at hown
      cases hown

end LRUCache

end Sone

end LinuxTest
