/-
The assertions of the file cache during a call of `createResponse`, for the
kinds of object that a path can lead to.  `open` succeeds on a directory, and a
read transfers at most `MAX_RW_COUNT` bytes; the cache asserts that a read
fills the buffer.
-/
import LinuxTest.HttpDescriptors

namespace LinuxTest

namespace Sone

/-! ### Objects of the file system -/

/-- The most bytes that `read` of Linux transfers in one call. -/
def MAX_RW_COUNT : Nat := 0x7ffff000

/-- What `open` for reading can find. -/
inductive FileObject where
  | regular (content : Bytes) (mtime : Timespec)
  | directory (size : Nat) (mtime : Timespec)
deriving DecidableEq

namespace FileObject

def stat : FileObject → Stat
  | regular content mtime => ⟨mtime, content.length⟩
  | directory size mtime => ⟨mtime, size⟩

/-- `::read(fd, buf, n)` on a descriptor just opened: the bytes stored, none
where it returns `-1`, as it does on a directory. -/
def read : FileObject → Nat → Option Bytes
  | regular content _, n => some (content.take (min n MAX_RW_COUNT))
  | directory _ _, _ => none

/-- What the kernel answers about the object while it does not change. -/
def file (object : FileObject) : File :=
  ⟨some object.stat, object.read object.stat.st_size⟩

/-- A regular file that one read transfers whole. -/
def ReadWhole : FileObject → Prop
  | regular content _ => content.length ≤ MAX_RW_COUNT
  | directory _ _ => False

instance (object : FileObject) : Decidable object.ReadWhole :=
  match object with
  | regular content _ =>
      inferInstanceAs (Decidable (content.length ≤ MAX_RW_COUNT))
  | directory _ _ => inferInstanceAs (Decidable False)

theorem readInFull_file (object : FileObject) :
    (object.ReadWhole ∧
        ∃ buf, LRUCache.readInFull object.file object.stat = .ok buf) ∨
      (¬ object.ReadWhole ∧
        LRUCache.readInFull object.file object.stat = .error .assert) := by
  cases object with
  | directory size mtime => exact Or.inr ⟨id, rfl⟩
  | regular content mtime =>
      have hlength : (content.take (min content.length MAX_RW_COUNT)).length =
          content.length ↔ content.length ≤ MAX_RW_COUNT := by
        rw [List.length_take]
        omega
      simp only [ReadWhole, LRUCache.readInFull, file, read, stat, hlength]
      by_cases hfits : content.length ≤ MAX_RW_COUNT
      · exact Or.inl ⟨hfits, _, if_pos hfits⟩
      · exact Or.inr ⟨hfits, if_neg hfits⟩

end FileObject

/-! ### The cache calls -/

namespace LRUCache

variable {c : LRUCache} {k : Bytes} {file : File} {s : Stat}

/-- The cache has a node for the key that is not outdated. -/
def Current (c : LRUCache) (k : Bytes) (s : Stat) : Prop :=
  ∃ it node, c.cacheMap k = some it ∧ (it, node) ∈ c.cacheList ∧
    outdated s node = false

theorem outdated_own (s : Stat) (key : Bytes) (val : Option Bytes)
    (fsize : Nat) : outdated s ⟨key, val, s.st_mtim, fsize⟩ = false := by
  simp [outdated]

/-- On a node that is not outdated the calls after `warm` return. -/
theorem readBack_returns (hc : c.Linked) (hstat : file.stat = some s)
    (hcurrent : c.Current k s) (fds : Finset Nat) :
    ∃ val next, c.getValueFds k file fds = .ok (val, next, fds) ∧
      ∃ size, next.getSize k = .ok size := by
  obtain ⟨it, node, hit, hnode, hnow⟩ := hcurrent
  refine ⟨node.val, c.front it node, ?_, node.fsize, getSize_front hit node⟩
  rw [getValueFds_found_eq hc hit hnode]
  simp [hstat, hnow]

theorem Current.unique {it : Nat} {node : CacheNode} (hc : c.Linked)
    (hit : c.cacheMap k = some it) (hnode : (it, node) ∈ c.cacheList) :
    c.Current k s ↔ outdated s node = false := by
  constructor
  · rintro ⟨it', node', hit', hnode', hnow⟩
    rw [hit] at hit'
    cases hit'
    have hsame : (it, node) = (it, node') :=
      List.inj_on_of_nodup_map hc.distinct hnode hnode' rfl
    cases hsame
    exact hnow
  · intro hnow
    exact ⟨it, node, hit, hnode, hnow⟩

/-- A key that is not there is inserted if its file can be read whole. -/
theorem setValueFds_absent (hc : c.Linked) (hcapacity : 1 ≤ c.capacity)
    (hstat : file.stat = some s) (habsent : c.cacheMap k = none)
    (fds : Finset Nat) :
    (∀ halt, readInFull file s = .error halt →
      c.setValueFds k file fds = .error halt) ∧
    ∀ buf, readInFull file s = .ok buf →
      ∃ next after, c.setValueFds k file fds = .ok (next, after) ∧
        next.Linked ∧ next.Current k s := by
  obtain ⟨room, hroom, _⟩ := hc.evictIfFull hcapacity
  have hset : c.setValueFds k file fds = (readInFull file s).map fun buf =>
      ((room.pushFront ⟨k, some buf, s.st_mtim, buf.length⟩).assign k
        room.fresh, openFd fds) := by
    rw [setValueFds, habsent]
    simp only [hroom, hstat, bind, Except.bind]
    cases readInFull file s with
    | error halt => rfl
    | ok buf => rfl
  constructor
  · intro halt hread
    rw [hset, hread]
    rfl
  · intro buf hread
    rw [hread] at hset
    refine ⟨_, _, hset, ?_, room.fresh, _, ?_, List.mem_cons_self,
      outdated_own s k (some buf) buf.length⟩
    · exact (setValue_cases (setValueFds_setValue hset).1).linked hc
    · exact Function.update_self k _ _

/-- The first calls: with a node that is not outdated they return; otherwise
they return just when the file is read in full. -/
theorem warm_returns (hc : c.Linked) (hcapacity : 1 ≤ c.capacity)
    (hstat : file.stat = some s) (fds : Finset Nat) :
    (¬ c.Current k s → ∀ halt, readInFull file s = .error halt →
      c.warm k file fds = .error halt) ∧
    (c.Current k s ∨ (∃ buf, readInFull file s = .ok buf) →
      ∃ next after, c.warm k file fds = .ok (next, after) ∧ next.Linked ∧
        next.Current k s) := by
  cases hmap : c.cacheMap k with
  | none =>
      have hnot : ¬ c.Current k s := by
        rintro ⟨it, node, hit, _⟩
        rw [hmap] at hit
        cases hit
      have hget : c.getValueFds k file fds = .ok (none, c, fds) := by
        rw [getValueFds, hmap]
      obtain ⟨hfails, hinserts⟩ :=
        setValueFds_absent hc hcapacity hstat hmap fds
      constructor
      · intro _ halt hread
        rw [warm, hget]
        exact hfails halt hread
      · rintro (hcurrent | ⟨buf, hread⟩)
        · exact absurd hcurrent hnot
        · rw [warm, hget]
          exact hinserts buf hread
  | some it =>
      obtain ⟨node, hnode, _⟩ := hc.found k it hmap
      have hget : c.getValueFds k file fds = _ :=
        getValueFds_found_eq hc hmap hnode
      simp only [hstat] at hget
      rw [Current.unique hc hmap hnode]
      cases hnow : outdated s node with
      | true =>
          rw [if_pos hnow] at hget
          constructor
          · intro _ halt hread
            rw [warm, hget, hread]
            rfl
          · rintro (hfalse | ⟨buf, hread⟩)
            · cases hfalse
            · rw [hread] at hget
              refine ⟨c.front it ⟨node.key, some buf, s.st_mtim,
                buf.length⟩, openFd fds, ?_, hc.front hnode rfl, it, _, hmap,
                List.mem_cons_self,
                outdated_own s node.key (some buf) buf.length⟩
              rw [warm, hget]
              rfl
      | false =>
          rw [if_neg (by simp [hnow])] at hget
          constructor
          · intro hfalse
            exact absurd rfl hfalse
          · intro _
            refine ⟨c.front it node, fds, ?_, hc.front hnode rfl, it, node,
              hmap, List.mem_cons_self, hnow⟩
            have hfront : (c.front it node).cacheMap k = some it := hmap
            rw [warm, hget]
            cases hval : node.val with
            | none => exact setValueFds_found hfront
            | some buf => rfl

/-- The cache calls of `createResponse` on an object end in a failed assertion
just when they have to read it and it is not read whole. -/
theorem readBody_cases (hc : c.Linked) (hcapacity : 1 ≤ c.capacity)
    (object : FileObject) (k : Bytes) (fds : Finset Nat) :
    ((c.Current k object.stat ∨ object.ReadWhole) ∧
      ∃ result, c.readBody k object.file fds = .ok result) ∨
    (¬ (c.Current k object.stat ∨ object.ReadWhole) ∧
      c.readBody k object.file fds = .error .assert) := by
  have hstat : object.file.stat = some object.stat := rfl
  obtain ⟨hfails, hreturns⟩ := warm_returns (k := k) hc hcapacity hstat fds
  have hback (hwarm : ∃ next after, c.warm k object.file fds =
      .ok (next, after) ∧ next.Linked ∧ next.Current k object.stat) :
      ∃ result, c.readBody k object.file fds = .ok result := by
    obtain ⟨warmed, after, hwarm, hlinked, hcurrent⟩ := hwarm
    obtain ⟨val, next, hget, size, hsize⟩ :=
      readBack_returns hlinked hstat hcurrent after
    refine ⟨(bodyString val size, next, after), ?_⟩
    simp only [readBody, hwarm, hget, hsize, bind, Except.bind, pure,
      Except.pure]
  rcases object.readInFull_file with ⟨hwhole, hread⟩ | ⟨hcut, hread⟩
  · exact Or.inl ⟨Or.inr hwhole, hback (hreturns (Or.inr hread))⟩
  · by_cases hcurrent : c.Current k object.stat
    · exact Or.inl ⟨Or.inl hcurrent, hback (hreturns (Or.inl hcurrent))⟩
    · refine Or.inr ⟨not_or.mpr ⟨hcurrent, hcut⟩, ?_⟩
      rw [readBody, hfails hcurrent .assert hread]
      rfl

end LRUCache

/-! ### The call -/

/-- The file system: what `open` for reading finds under a path. -/
abbrev FileSystem := Bytes → Option FileObject

/-- The world with this file system. -/
def World.on (w : World) (fs : FileSystem) : World :=
  { w with openFile := fun path =>
      (fs path).map fun object => object.stat.st_mtim.tv_sec }

/-- Where `createResponse` could open the path, the assertions of the cache hold
exactly when the answer is 304, or the cache has a node that is not outdated,
or the path leads to a regular file that one read transfers whole. -/
theorem createResponse_assertions_iff (w : World) (fs : FileSystem)
    (c : LRUCache) (hc : c.Linked) (hcapacity : 1 ≤ c.capacity)
    (fds : Finset Nat) (req : HttpRequest) (reqTime : Int)
    (object : FileObject) (hopen : fs (openedPath req) = some object) :
    createResponseFds (w.on fs) object.file c fds req reqTime ≠
        .error .assert ↔
      IsNotModified (w.on fs) req object.stat.st_mtim.tv_sec ∨
        c.Current (completeUrl req) object.stat ∨ object.ReadWhole := by
  have hopened : (w.on fs).openFile (openedPath req) =
      some object.stat.st_mtim.tv_sec := by
    simp [World.on, hopen]
  rw [createResponseFds, IsNotModified]
  simp only [hopened, Option.isSome_some, if_true, true_and,
    Option.getD_some]
  split
  · case isTrue hmodified => simp [hmodified]
  · case isFalse hmodified =>
      rw [or_iff_right hmodified]
      rcases LRUCache.readBody_cases hc hcapacity object (completeUrl req)
        (openFd fds) with ⟨hok, ⟨body, next, after⟩, hresult⟩ | ⟨hnot, hresult⟩
      · simp only [hresult, hok, iff_true]
        cases body with
        | none => simp [bind, Except.bind, pure, Except.pure]
        | some body => simp [bind, Except.bind, pure, Except.pure]
      · simp [hresult, hnot, bind, Except.bind]

/-- A file system with a directory at the root of the resources. -/
def rootDirectory : FileSystem := fun path =>
  if path = webRoot ++ lit "/" then some (.directory 4096 ⟨0, 0⟩) else none

/-- A file system with one page. -/
def onePage : FileSystem := fun path =>
  if path = webRoot ++ lit "/a" then some (.regular (lit "x") ⟨0, 0⟩) else none

theorem createResponse_assertions_page :
    onePage (openedPath (plainRequest (lit "/a"))) =
        some (.regular (lit "x") ⟨0, 0⟩) ∧
      createResponseFds (emptyWorld.on onePage)
        (FileObject.regular (lit "x") ⟨0, 0⟩).file (.init 8) {0, 1, 2}
        (plainRequest (lit "/a")) 0 ≠ .error .assert := by
  have hopen : onePage (openedPath (plainRequest (lit "/a"))) =
      some (.regular (lit "x") ⟨0, 0⟩) := by
    decide
  refine ⟨hopen, ?_⟩
  rw [createResponse_assertions_iff emptyWorld onePage (.init 8)
    (LRUCache.linked_init 8) (by decide) _ _ _ _ hopen]
  exact Or.inr (Or.inr (by decide))

/-- A request for the root directory: the read of `setValue` fails. -/
theorem directory_fails_assertion :
    rootDirectory (openedPath (plainRequest (lit "/"))) =
        some (.directory 4096 ⟨0, 0⟩) ∧
      createResponseFds (emptyWorld.on rootDirectory)
        (FileObject.directory 4096 ⟨0, 0⟩).file (.init 8) {0, 1, 2}
        (plainRequest (lit "/")) 0 = .error .assert := by
  have hopen : rootDirectory (openedPath (plainRequest (lit "/"))) =
      some (.directory 4096 ⟨0, 0⟩) := by
    decide
  have hopened : (emptyWorld.on rootDirectory).openFile
      (openedPath (plainRequest (lit "/"))) = some 0 := by
    simp [World.on, hopen, FileObject.stat]
  have hmodified := plainRequest_modified (emptyWorld.on rootDirectory)
    (lit "/") 0
  refine ⟨hopen, ?_⟩
  rcases LRUCache.readBody_cases (LRUCache.linked_init 8) (by decide)
    (.directory 4096 ⟨0, 0⟩) (completeUrl (plainRequest (lit "/")))
    (openFd {0, 1, 2}) with ⟨hok, _⟩ | ⟨_, hfails⟩
  · rcases hok with ⟨it, node, hit, _⟩ | hfalse
    · cases hit
    · cases hfalse
  · rw [IsNotModified] at hmodified
    simp only [createResponseFds, hopened, Option.isSome_some, if_true,
      true_and, Option.getD_some]
    rw [if_neg hmodified, hfails]
    rfl

end Sone

end LinuxTest
