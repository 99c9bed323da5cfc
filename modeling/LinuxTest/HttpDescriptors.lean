/-
The descriptors that `createResponse` opens, itself and in the file cache,
against those that it closes.
-/
import LinuxTest.HttpResponseForm
import LinuxTest.LRUCacheSpec
import Mathlib.Data.Finset.Card
import Mathlib.Data.Finset.Range

namespace LinuxTest

namespace Sone

/-- The descriptor that `open` returns: the lowest that is not in use. -/
def lowest (fds : Finset Nat) : Nat :=
  ((List.range (fds.card + 1)).find? fun fd => fd ∉ fds).getD 0

/-- The open descriptors after a successful `open`. -/
def openFd (fds : Finset Nat) : Finset Nat :=
  insert (lowest fds) fds

/-- The open descriptors after `close(fd)`. -/
def closeFd (fds : Finset Nat) (fd : Nat) : Finset Nat :=
  fds.erase fd

namespace LRUCache

/-- `getValue`, with the descriptors of the process. -/
def getValueFds (c : LRUCache) (k : Bytes) (file : File)
    (fds : Finset Nat) : Except Halt (Option Bytes × LRUCache × Finset Nat) :=
  match c.cacheMap k with
  | none => .ok (none, c, fds)
  | some it => do
      let c ← c.splice it
      let c := c.assign k (← c.begin)
      match file.stat with
      | none => return (none, c, fds)
      | some s =>
          let it ← c.iterator k
          let node ← c.deref it
          if outdated s node then
            -- a read that is not cut short needs an `open` that succeeded
            let fds := openFd fds
            let buf ← readInFull file s
            return (some buf, c.store it (some buf) s.st_mtim buf.length, fds)
          else
            return (node.val, c, fds)

/-- `setValue`, with the descriptors of the process. -/
def setValueFds (c : LRUCache) (k : Bytes) (file : File)
    (fds : Finset Nat) : Except Halt (LRUCache × Finset Nat) :=
  match c.cacheMap k with
  | some _ => .ok (c, fds)
  | none => do
      let c ← c.evictIfFull
      match file.stat with
      | none => .error .assert
      | some s =>
          let fds := openFd fds
          let buf ← readInFull file s
          let c := c.pushFront ⟨k, some buf, s.st_mtim, buf.length⟩
          return (c.assign k (← c.begin), fds)

/-- `if(!_cache.getValue(k)) _cache.setValue(k);` -/
def warm (c : LRUCache) (k : Bytes) (file : File) (fds : Finset Nat) :
    Except Halt (LRUCache × Finset Nat) := do
  let (val, c, fds) ← c.getValueFds k file fds
  match val with
  | none => c.setValueFds k file fds
  | some _ => return (c, fds)

/-- `std::string(val, size)`, which throws for `nullptr` unless the size is
zero. -/
def bodyString (val : Option Bytes) (size : Nat) : Option Bytes :=
  match val with
  | none => if size = 0 then some [] else none
  | some buf => some (buf.take size)

/-- The cache calls of `createResponse`: the bytes from which it makes the body,
none where the making of the string throws. -/
def readBody (c : LRUCache) (k : Bytes) (file : File) (fds : Finset Nat) :
    Except Halt (Option Bytes × LRUCache × Finset Nat) := do
  let (c, fds) ← c.warm k file fds
  let (val, c, fds) ← c.getValueFds k file fds
  let size ← c.getSize k
  return (bodyString val size, c, fds)

end LRUCache

/-- What a call of `createResponse` leaves: a response or an exception, the
cache and the open descriptors. -/
structure Ended where
  outcome : Except Raise HttpResponse
  cache : LRUCache
  fds : Finset Nat

/-- `HttpServer::createResponse` with the file cache and the descriptors.
`file` is what the kernel answers about the file while the call lasts. -/
def createResponseFds (w : World) (file : File) (c : LRUCache)
    (fds : Finset Nat) (req : HttpRequest) (reqTime : Int) :
    Except Halt Ended :=
  let opened := w.openFile (openedPath req)
  let fd := lowest fds
  let fds := if opened.isSome then openFd fds else fds
  let mtime := opened.getD w.unsetTime
  let resp := commonResponse w req.version
  let modified := req.getHeader (lit "If-Modified-Since")
  if modified ≠ [] ∧ opened.isSome ∧
      w.compareGMTStr modified (w.toGMTString mtime) then
    .ok ⟨.ok { resp with state := .notModified }, c, fds⟩
  else
    let resp := setCacheHeaders w mtime reqTime resp
    match opened with
    | none => .ok ⟨.ok (notFoundResponse resp), c, fds⟩
    | some _ => do
        let (body, c, fds) ← c.readBody (completeUrl req) file fds
        match body with
        | none => return ⟨.error .nullString, c, fds⟩
        | some body =>
            return ⟨.ok (fileResponse { w with cacheValue := fun _ => body }
              req resp), c, closeFd fds fd⟩

/-! ### Descriptors -/

theorem lowest_notMem (fds : Finset Nat) : lowest fds ∉ fds := by
  rw [lowest]
  cases hfind : (List.range (fds.card + 1)).find? fun fd => fd ∉ fds with
  | some fd => simpa using List.find?_some hfind
  | none =>
      -- so many descriptors do not fit into the set
      have hsubset : Finset.range (fds.card + 1) ⊆ fds := by
        intro fd hfd
        have hused := List.find?_eq_none.mp hfind fd
          (List.mem_range.mpr (Finset.mem_range.mp hfd))
        simpa using hused
      have hcard := Finset.card_le_card hsubset
      rw [Finset.card_range] at hcard
      exact absurd hcard (Nat.not_succ_le_self _)

theorem subset_openFd (fds : Finset Nat) : fds ⊆ openFd fds :=
  Finset.subset_insert _ _

theorem lowest_mem_openFd (fds : Finset Nat) : lowest fds ∈ openFd fds :=
  Finset.mem_insert_self _ _

theorem closeFd_openFd (fds : Finset Nat) :
    closeFd (openFd fds) (lowest fds) = fds :=
  Finset.erase_insert (lowest_notMem fds)

/-- A set that keeps a newly opened descriptor is not the old one. -/
theorem ne_of_openFd_subset {fds after : Finset Nat}
    (hsubset : openFd fds ⊆ after) : after ≠ fds := by
  rintro rfl
  exact lowest_notMem after (hsubset (lowest_mem_openFd after))

/-- Closing one's own descriptor leaves the others as they have become. -/
theorem closeFd_eq_iff {fds after : Finset Nat}
    (hsubset : openFd fds ⊆ after) :
    closeFd after (lowest fds) = fds ↔ after = openFd fds := by
  constructor
  · intro hclosed
    have hinsert := Finset.insert_erase (hsubset (lowest_mem_openFd fds))
    rw [closeFd] at hclosed
    rw [hclosed] at hinsert
    exact hinsert.symm
  · rintro rfl
    exact closeFd_openFd fds

/-! ### The cache calls -/

namespace LRUCache

variable {c next : LRUCache} {k : Bytes} {it : Nat} {node : CacheNode}
  {file : File} {fds after : Finset Nat}

theorem getValueFds_found_eq (hc : c.Linked) (hit : c.cacheMap k = some it)
    (hnode : (it, node) ∈ c.cacheList) :
    c.getValueFds k file fds = match file.stat with
      | none => .ok (none, c.front it node, fds)
      | some s =>
          if outdated s node then
            (readInFull file s).map fun buf => (some buf, c.front it
              { node with
                val := some buf, mtime := s.st_mtim, fsize := buf.length },
              openFd fds)
          else .ok (node.val, c.front it node, fds) := by
  rw [getValueFds, hit]
  simp only [hc.splice_eq hnode, bind, Except.bind, begin_front,
    assign_front hit, iterator_front hit, deref_front, pure, Except.pure]
  cases file.stat with
  | none => rfl
  | some s =>
      simp only []
      split
      · cases readInFull file s with
        | error halt => rfl
        | ok buf => simp only [hc.store_front, Except.map]
      · rfl

/-- The cache part of the call is `getValue`, and descriptors only grow. -/
theorem getValueFds_getValue (hc : c.Linked) {val : Option Bytes}
    (hget : c.getValueFds k file fds = .ok (val, next, after)) :
    c.getValue k file = .ok (val, next) ∧ fds ⊆ after := by
  cases hmap : c.cacheMap k with
  | none =>
      rw [getValueFds, hmap] at hget
      cases hget
      rw [getValue, hmap]
      exact ⟨rfl, Finset.Subset.refl _⟩
  | some it =>
      obtain ⟨node, hnode, _⟩ := hc.found k it hmap
      rw [getValueFds_found_eq hc hmap hnode] at hget
      rw [getValue_found_eq hc hmap hnode]
      cases hstat : file.stat with
      | none =>
          simp only [hstat] at hget
          cases hget
          exact ⟨rfl, Finset.Subset.refl _⟩
      | some s =>
          simp only [hstat] at hget ⊢
          split at hget
          · case isTrue houtdated =>
              obtain ⟨buf, hread, hresult⟩ := map_eq_ok hget
              cases hresult
              rw [if_pos houtdated, hread]
              exact ⟨rfl, subset_openFd fds⟩
          · case isFalse hcurrent =>
              cases hget
              rw [if_neg hcurrent]
              exact ⟨rfl, Finset.Subset.refl _⟩

/-- The cache part of the call is `setValue`, and an insertion opens. -/
theorem setValueFds_setValue
    (hset : c.setValueFds k file fds = .ok (next, after)) :
    c.setValue k file = .ok next ∧
      after = if (c.cacheMap k).isNone then openFd fds else fds := by
  rw [setValueFds] at hset
  rw [setValue]
  cases hmap : c.cacheMap k with
  | some it =>
      simp only [hmap] at hset
      cases hset
      exact ⟨rfl, rfl⟩
  | none =>
      simp only [hmap] at hset
      obtain ⟨room, hroom, hset⟩ := bind_eq_ok hset
      cases hstat : file.stat with
      | none => simp [hstat] at hset
      | some s =>
          simp only [hstat] at hset
          obtain ⟨buf, hread, hset⟩ := bind_eq_ok hset
          cases hset
          simp only [hroom, hread, bind, Except.bind]
          exact ⟨rfl, rfl⟩

/-- The cache holds the file in a node that is not outdated, with a buffer that
`getValue` returns or the size zero. -/
def Holds (c : LRUCache) (k : Bytes) (file : File) : Prop :=
  ∃ it node, c.cacheMap k = some it ∧ (it, node) ∈ c.cacheList ∧
    (∀ s, file.stat = some s → outdated s node = false) ∧
    ((file.stat.isSome ∧ node.val.isSome) ∨ node.fsize = 0)

theorem Holds.unique (hc : c.Linked) (hit : c.cacheMap k = some it)
    (hnode : (it, node) ∈ c.cacheList) :
    c.Holds k file ↔ (∀ s, file.stat = some s → outdated s node = false) ∧
      ((file.stat.isSome ∧ node.val.isSome) ∨ node.fsize = 0) := by
  constructor
  · rintro ⟨it', node', hit', hnode', hbody⟩
    rw [hit] at hit'
    cases hit'
    have hsame : (it, node) = (it, node') :=
      List.inj_on_of_nodup_map hc.distinct hnode hnode' rfl
    cases hsame
    exact hbody
  · intro hbody
    exact ⟨it, node, hit, hnode, hbody⟩

theorem bodyString_isSome {val : Option Bytes} {size : Nat} :
    (bodyString val size).isSome ↔ val.isSome ∨ size = 0 := by
  cases val with
  | none =>
      rw [bodyString]
      split <;> simp_all
  | some buf => simp [bodyString]

theorem setValueFds_found (hit : c.cacheMap k = some it) :
    c.setValueFds k file fds = .ok (c, fds) := by
  rw [setValueFds, hit]

/-- The first calls leave the descriptors alone where they find a node that is
not outdated, and otherwise open one. -/
theorem warm_fds (hc : c.Linked)
    (hwarm : c.warm k file fds = .ok (next, after)) :
    (after = fds ∧ ∃ it node, c.cacheMap k = some it ∧
        (it, node) ∈ c.cacheList ∧ next = c.front it node ∧
        ∀ s, file.stat = some s → outdated s node = false) ∨
      (next.Linked ∧ openFd fds ⊆ after ∧ ¬ c.Holds k file) := by
  rw [warm] at hwarm
  obtain ⟨⟨val, first, fds₁⟩, hget, hwarm⟩ := bind_eq_ok hwarm
  cases hmap : c.cacheMap k with
  | none =>
      rw [getValueFds, hmap] at hget
      cases hget
      obtain ⟨hset, hafter⟩ := setValueFds_setValue hwarm
      rw [hmap, Option.isNone_none, if_pos rfl] at hafter
      refine Or.inr ⟨(setValue_cases hset).linked hc, hafter.ge, ?_⟩
      rintro ⟨it, node, hit, _⟩
      rw [hmap] at hit
      cases hit
  | some it =>
      obtain ⟨node, hnode, _⟩ := hc.found k it hmap
      have hfront : (c.front it node).cacheMap k = some it := hmap
      rw [getValueFds_found_eq hc hmap hnode] at hget
      cases hstat : file.stat with
      | none =>
          simp only [hstat] at hget
          cases hget
          simp only [setValueFds_found hfront] at hwarm
          cases hwarm
          exact Or.inl ⟨rfl, it, node, rfl, hnode, rfl, by simp⟩
      | some s =>
          simp only [hstat] at hget
          split at hget
          · case isTrue houtdated =>
              obtain ⟨buf, _, hresult⟩ := map_eq_ok hget
              cases hresult
              cases hwarm
              refine Or.inr ⟨hc.front hnode rfl, Finset.Subset.refl _, ?_⟩
              rw [Holds.unique hc hmap hnode]
              simp [hstat, houtdated]
          · case isFalse hcurrent =>
              cases hget
              have hresult : next = c.front it node ∧ after = fds := by
                cases hval : node.val with
                | none =>
                    simp only [hval, setValueFds_found hfront] at hwarm
                    cases hwarm
                    exact ⟨rfl, rfl⟩
                | some buf =>
                    rw [hval] at hwarm
                    cases hwarm
                    exact ⟨rfl, rfl⟩
              obtain ⟨rfl, rfl⟩ := hresult
              refine Or.inl ⟨rfl, it, node, rfl, hnode, rfl, ?_⟩
              intro s' hs'
              cases hs'
              simpa using hcurrent

/-- The cache calls keep every descriptor open, and open none and give a body
just when the cache holds the file. -/
theorem readBody_fds (hc : c.Linked) {body : Option Bytes}
    (hbody : c.readBody k file fds = .ok (body, next, after)) :
    fds ⊆ after ∧ (after = fds ∧ body.isSome ↔ c.Holds k file) := by
  rw [readBody] at hbody
  obtain ⟨⟨middle, fds₁⟩, hwarm, hbody⟩ := bind_eq_ok hbody
  obtain ⟨⟨val, last, fds₂⟩, hlast, hbody⟩ := bind_eq_ok hbody
  obtain ⟨size, hsize, hbody⟩ := bind_eq_ok hbody
  cases hbody
  rw [bodyString_isSome]
  rcases warm_fds hc hwarm with
    ⟨rfl, it, node, hit, hnode, rfl, hcurrent⟩ | ⟨hlinked, hopened, hnot⟩
  · have hfront : (c.front it node).cacheMap k = some it := hit
    rw [getValueFds_found_eq (hc.front hnode rfl) hfront
      List.mem_cons_self] at hlast
    rw [Holds.unique hc hit hnode]
    cases hstat : file.stat with
    | none =>
        simp only [hstat] at hlast
        cases hlast
        rw [getSize_front hfront] at hsize
        cases hsize
        exact ⟨Finset.Subset.refl _, by simp⟩
    | some s =>
        have hnow := hcurrent s hstat
        simp only [hstat, hnow] at hlast
        cases hlast
        rw [getSize_front hfront] at hsize
        cases hsize
        exact ⟨Finset.Subset.refl _, by simp [hnow]⟩
  · have hgrown := hopened.trans (getValueFds_getValue hlinked hlast).2
    refine ⟨(subset_openFd fds).trans hgrown, ?_⟩
    simp [hnot, ne_of_openFd_subset hgrown]

end LRUCache

/-! ### The call -/

/-- The answer to the request about a file last modified at `mtime` is 304. -/
def IsNotModified (w : World) (req : HttpRequest) (mtime : Int) : Prop :=
  req.getHeader (lit "If-Modified-Since") ≠ [] ∧
    w.compareGMTStr (req.getHeader (lit "If-Modified-Since"))
      (w.toGMTString mtime)

variable {w : World} {file : File} {c : LRUCache} {fds : Finset Nat}
  {req : HttpRequest} {reqTime : Int} {ended : Ended}

/-- The response is that of `createResponse`, over the bytes that the cache
gave. -/
theorem createResponseFds_response {resp : HttpResponse}
    (hcall : createResponseFds w file c fds req reqTime = .ok ended)
    (hresp : ended.outcome = .ok resp) :
    ∃ body, resp = createResponse { w with cacheValue := fun _ => body } req
      reqTime := by
  rw [createResponseFds] at hcall
  cases hopen : w.openFile (openedPath req) with
  | none =>
      simp only [hopen, Option.isSome_none, Bool.false_eq_true, false_and,
        and_false, if_false] at hcall
      cases hcall
      cases hresp
      exact ⟨[], by simp [createResponse, hopen]; rfl⟩
  | some mtime =>
      simp only [hopen, Option.isSome_some, if_true, true_and,
        Option.getD_some] at hcall
      split at hcall
      · case isTrue hmodified =>
          cases hcall
          cases hresp
          refine ⟨[], ?_⟩
          simp only [createResponse, hopen, Option.isSome_some,
            Option.getD_some, true_and]
          exact (if_pos hmodified).symm
      · case isFalse hmodified =>
          obtain ⟨⟨body, cache, after⟩, hbody, hcall⟩ :=
            LRUCache.bind_eq_ok hcall
          cases body with
          | none =>
              cases hcall
              cases hresp
          | some body =>
              cases hcall
              cases hresp
              refine ⟨body, ?_⟩
              simp only [createResponse, hopen, Option.isSome_some,
                Option.getD_some, true_and]
              exact (if_neg hmodified).symm

/-- A call, which responds as `createResponse` does, gives back the descriptors
it opened just when it opened none, or when the answer is not 304 and the cache
holds the file. -/
theorem createResponse_returns_descriptors_iff (hc : c.Linked)
    (hcall : createResponseFds w file c fds req reqTime = .ok ended) :
    (∀ resp, ended.outcome = .ok resp → ∃ body, resp =
      createResponse { w with cacheValue := fun _ => body } req reqTime) ∧
    (ended.fds = fds ↔ w.openFile (openedPath req) = none ∨
      ∃ mtime, w.openFile (openedPath req) = some mtime ∧
        ¬ IsNotModified w req mtime ∧ c.Holds (completeUrl req) file) := by
  refine ⟨fun resp => createResponseFds_response hcall, ?_⟩
  rw [createResponseFds] at hcall
  cases hopen : w.openFile (openedPath req) with
  | none =>
      simp only [hopen, Option.isSome_none, Bool.false_eq_true, false_and,
        and_false, if_false] at hcall
      cases hcall
      simp
  | some mtime =>
      simp only [hopen, Option.isSome_some, if_true, true_and,
        Option.getD_some] at hcall
      simp only [reduceCtorEq, Option.some.injEq, exists_eq_left', false_or]
      split at hcall
      · case isTrue hmodified =>
          cases hcall
          simp [IsNotModified, hmodified,
            ne_of_openFd_subset (Finset.Subset.refl (openFd fds))]
      · case isFalse hmodified =>
          obtain ⟨⟨body, cache, after⟩, hbody, hcall⟩ :=
            LRUCache.bind_eq_ok hcall
          obtain ⟨hgrown, hholds⟩ := LRUCache.readBody_fds hc hbody
          rw [IsNotModified]
          simp only [hmodified, not_false_eq_true, true_and, ← hholds]
          cases body with
          | none =>
              cases hcall
              simp [ne_of_openFd_subset hgrown]
          | some body =>
              cases hcall
              simp [closeFd_eq_iff hgrown]

/-- A world in which every file can be opened and was last modified at the
epoch, and every date is taken to be late enough. -/
def epochWorld : World :=
  { emptyWorld with
    openFile := fun _ => some 0
    compareGMTStr := fun _ _ => true }

/-- A request for a path, without headers. -/
def plainRequest (url : Bytes) : HttpRequest :=
  { HttpRequest.init with method := .get, version := .http11, url := url }

theorem plainRequest_modified (w : World) (url : Bytes) (mtime : Int) :
    ¬ IsNotModified w (plainRequest url) mtime := by
  rintro ⟨hheader, _⟩
  apply hheader
  rw [HttpRequest.getHeader_eq _ (by decide +kernel)]
  exact readMap_empty _

/-- A file of one byte, last modified at the epoch. -/
def epochFile : File := ⟨some ⟨⟨0, 0⟩, 1⟩, some [97]⟩

/-- A cache that holds the file under a key. -/
def epochCache (k : Bytes) : LRUCache :=
  ⟨[(0, ⟨k, some [97], ⟨0, 0⟩, 1⟩)], Function.update (fun _ => none) k (some 0),
    1, 1⟩

theorem epochCache_linked (k : Bytes) : (epochCache k).Linked :=
  (LRUCache.linked_init 1).insert (by simp [LRUCache.keys, LRUCache.init]) rfl

theorem createResponse_returns_descriptors_when_held :
    ∃ ended, createResponseFds epochWorld epochFile
        (epochCache (completeUrl .init)) {0, 1, 2} .init 0 = .ok ended ∧
      ended.fds = {0, 1, 2} := by
  have hreturns : (createResponseFds epochWorld epochFile
      (epochCache (completeUrl .init)) {0, 1, 2} .init 0).toOption.isSome := by
    decide +kernel
  obtain ⟨ended, hended⟩ := Option.isSome_iff_exists.mp hreturns
  have hcall := LRUCache.toOption_eq_some hended
  refine ⟨ended, hcall, ?_⟩
  rw [(createResponse_returns_descriptors_iff (epochCache_linked _) hcall).2]
  refine Or.inr ⟨0, rfl, ?_, ?_⟩
  · rintro ⟨hheader, _⟩
    exact hheader (HttpRequest.getHeader_init (by decide +kernel))
  · refine ⟨0, _, by simp [epochCache], List.mem_cons_self, ?_,
      Or.inl ⟨rfl, rfl⟩⟩
    intro s hstat
    cases hstat
    rfl

/-- A first request for a file leaves the descriptor of the cache open, and a
conditional one its own. -/
theorem descriptors_left_open :
    (createResponseFds epochWorld epochFile (.init 1) {0, 1, 2} .init
        0).toOption.map Ended.fds = some {0, 1, 2, 4} ∧
      (createResponseFds epochWorld epochFile (.init 1) {0, 1, 2}
        (HttpRequest.init.setHeader (lit "If-Modified-Since")
          (lit "Thu, 01 Jan 1970 00:00:00 GMT")) 0).toOption.map Ended.fds =
        some {0, 1, 2, 3} := by
  decide +kernel

end Sone

end LinuxTest
