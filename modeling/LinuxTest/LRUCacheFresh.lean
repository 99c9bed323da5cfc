/-
The file cache against files that change between its calls: what it returns is
the file as it is now.
-/
import LinuxTest.LRUCacheRuns
import LinuxTest.LRUCacheSpec

namespace LinuxTest

namespace Sone

/-- Seconds first, then nanoseconds. -/
def Timespec.Before (first last : Timespec) : Prop :=
  first.tv_sec < last.tv_sec ∨
    (first.tv_sec = last.tv_sec ∧ first.tv_nsec < last.tv_nsec)

theorem Timespec.Before.trans {first middle last : Timespec}
    (hfirst : first.Before middle) (hlast : middle.Before last) :
    first.Before last := by
  simp only [Before] at hfirst hlast ⊢
  omega

/-- A file; an absent one keeps what it last held. -/
structure FileState where
  content : Bytes
  mtime : Timespec
  present : Bool

namespace FileState

/-- What the kernel can answer about the file: its `stat`, or none, and the
first bytes of it, or none. -/
structure Answers (f : FileState) (file : File) : Prop where
  stat : ∀ s, file.stat = some s →
    f.present ∧ s = ⟨f.mtime, f.content.length⟩
  read : ∀ buf, file.read = some buf → f.present ∧ buf <+: f.content

/-- A modification leaves a later time, or else content and time as they
were. -/
def ChangesTo (old new : FileState) : Prop :=
  old.mtime.Before new.mtime ∨
    (new.mtime = old.mtime ∧ new.content = old.content)

/-- The answers about a file that can be read. -/
theorem answers_self {f : FileState} (hpresent : f.present) :
    f.Answers ⟨some ⟨f.mtime, f.content.length⟩, some f.content⟩ := by
  constructor
  · intro s hstat
    cases hstat
    exact ⟨hpresent, rfl⟩
  · intro buf hread
    cases hread
    exact ⟨hpresent, List.prefix_rfl⟩

end FileState

namespace LRUCache

/-- The cache after a call. -/
def Call.apply (c : LRUCache) : Call → Except Halt LRUCache
  | .getValue k file => (c.getValue k file).map Prod.snd
  | .setValue k file => c.setValue k file
  | .getSize k => (c.getSize k).map fun _ => c
  | .isExist _ => .ok c

/-- A cache call, or a modification of the file at a path. -/
inductive Event where
  | call (call : Call)
  | modify (path : Bytes) (file : FileState)

/-- The cache and the files, by their paths. -/
structure Served where
  cache : LRUCache
  files : Bytes → FileState

namespace Served

/-- The file that a key names: `stat` and `open` read up to a NUL. -/
def fileOf (s : Served) (k : Bytes) : FileState :=
  s.files (cString k)

/-- One event; none after a call that does not return. -/
def step (s : Served) : Event → Option Served
  | .call call => (call.apply s.cache).toOption.map fun cache =>
      { s with cache := cache }
  | .modify path file => some { s with
      files := Function.update s.files path file }

/-- Calls are answered about the files as they are, and every modification
that changes a content makes its time later. -/
def Allowed (s : Served) : Event → Prop
  | .call (.getValue k file) => (s.fileOf k).Answers file
  | .call (.setValue k file) => (s.fileOf k).Answers file
  | .call _ => True
  | .modify path file => (s.files path).ChangesTo file

/-- The node holds the version of the file that its time names: an earlier one,
or the present one. -/
structure FreshNode (f : FileState) (node : CacheNode) : Prop where
  sized : ∃ buf, node.val = some buf ∧ node.fsize = buf.length
  version : node.mtime.Before f.mtime ∨
    (node.mtime = f.mtime ∧ node.val = some f.content)

structure Fresh (s : Served) : Prop where
  linked : s.cache.Linked
  nodes : ∀ entry ∈ s.cache.cacheList,
    FreshNode (s.fileOf entry.2.key) entry.2

variable {s next : Served} {k : Bytes} {file : File}

/-! ### One node -/

theorem FreshNode.change {old new : FileState} {node : CacheNode}
    (hnode : FreshNode old node) (hchange : old.ChangesTo new) :
    FreshNode new node := by
  refine ⟨hnode.sized, ?_⟩
  rcases hnode.version with hbefore | ⟨hmtime, hval⟩
  · rcases hchange with hlater | ⟨hsame, _⟩
    · exact Or.inl (hbefore.trans hlater)
    · exact Or.inl (hsame ▸ hbefore)
  · rcases hchange with hlater | ⟨hsame, hcontent⟩
    · exact Or.inl (hmtime ▸ hlater)
    · exact Or.inr ⟨hmtime.trans hsame.symm, hcontent ▸ hval⟩

/-- A node that the two comparisons of `getValue` do not find outdated holds
the file as it is. -/
theorem FreshNode.current {f : FileState} {node : CacheNode} {st : Stat}
    (hnode : FreshNode f node) (hanswer : st = ⟨f.mtime, f.content.length⟩)
    (hcurrent : outdated st node = false) :
    node.val = some f.content ∧ node.fsize = f.content.length := by
  have hval : node.val = some f.content := by
    rcases hnode.version with hbefore | ⟨_, hval⟩
    · subst hanswer
      simp only [outdated, Bool.if_false_right, Bool.if_true_left] at hcurrent
      simp only [Timespec.Before] at hbefore
      simp at hcurrent
      omega
    · exact hval
  obtain ⟨buf, hbuf, hsize⟩ := hnode.sized
  rw [hval] at hbuf
  cases hbuf
  exact ⟨hval, hsize⟩

/-- A file read in full is a fresh node. -/
theorem freshNode_of_read {f : FileState} (hanswers : f.Answers file)
    {st : Stat} {buf : Bytes} (hstat : file.stat = some st)
    (hread : file.read = some buf) (hlength : buf.length = st.st_size)
    (key : Bytes) :
    buf = f.content ∧
      FreshNode f ⟨key, some buf, st.st_mtim, buf.length⟩ := by
  obtain ⟨_, rfl⟩ := hanswers.stat st hstat
  obtain ⟨_, hprefix⟩ := hanswers.read buf hread
  obtain rfl := hprefix.eq_of_length hlength
  exact ⟨rfl, ⟨⟨_, rfl, rfl⟩, Or.inr ⟨rfl, rfl⟩⟩⟩

/-! ### One event -/

theorem Fresh.front (hs : s.Fresh) {it : Nat} {node old : CacheNode}
    (hold : (it, old) ∈ s.cache.cacheList) (hkey : node.key = old.key)
    (hnode : FreshNode (s.fileOf node.key) node) :
    Fresh { s with cache := s.cache.front it node } := by
  refine ⟨hs.linked.front hold hkey, ?_⟩
  intro entry hentry
  rcases hs.linked.mem_front.mp hentry with rfl | ⟨hmem, _⟩
  · exact hnode
  · exact hs.nodes entry hmem

theorem Fresh.getValue (hs : s.Fresh) (hanswers : (s.fileOf k).Answers file)
    {val : Option Bytes} {cache : LRUCache}
    (hget : GetValue s.cache k file val cache) :
    Fresh { s with cache := cache } := by
  cases hget with
  | absent => exact hs
  | unknown _ hnode _ => exact hs.front hnode rfl (hs.nodes _ hnode)
  | current _ hnode _ _ => exact hs.front hnode rfl (hs.nodes _ hnode)
  | refreshed hit hnode hstat _ hread hlength =>
      obtain rfl := hs.linked.key_eq hit hnode
      exact hs.front hnode rfl
        (freshNode_of_read hanswers hstat hread hlength _).2

theorem Fresh.setValue (hs : s.Fresh) (hanswers : (s.fileOf k).Answers file)
    {cache : LRUCache} (hset : SetValue s.cache k file cache) :
    Fresh { s with cache := cache } := by
  refine ⟨hset.linked hs.linked, ?_⟩
  cases hset with
  | present => exact hs.nodes
  | inserted _ hroom hstat hread hlength =>
      intro entry hentry
      rcases List.mem_cons.mp hentry with rfl | hmem
      · exact (freshNode_of_read hanswers hstat hread hlength k).2
      · exact hs.nodes entry ((hs.linked.of_evictIfFull hroom).2 entry hmem)

theorem Fresh.modify (hs : s.Fresh) {path : Bytes} {f : FileState}
    (hchange : (s.files path).ChangesTo f) :
    Fresh { s with files := Function.update s.files path f } := by
  refine ⟨hs.linked, ?_⟩
  intro entry hentry
  have hnode := hs.nodes entry hentry
  rw [fileOf] at hnode
  change FreshNode (Function.update s.files path f (cString entry.2.key))
    entry.2
  by_cases hpath : cString entry.2.key = path
  · rw [hpath] at hnode ⊢
    rw [Function.update_self]
    exact hnode.change hchange
  · rw [Function.update_of_ne hpath]
    exact hnode

/-- Every allowed event that goes through keeps the nodes fresh. -/
theorem Fresh.step (hs : s.Fresh) {event : Event} (hallowed : s.Allowed event)
    (hstep : s.step event = some next) : next.Fresh := by
  cases event with
  | modify path f =>
      cases hstep
      exact hs.modify hallowed
  | call call =>
      rw [Served.step, Option.map_eq_some_iff] at hstep
      obtain ⟨cache, happly, rfl⟩ := hstep
      have happlied := toOption_eq_some happly
      cases call with
      | getValue k file =>
          obtain ⟨found, hget, rfl⟩ := map_eq_ok happlied
          exact hs.getValue hallowed (getValue_cases hs.linked hget)
      | setValue k file => exact hs.setValue hallowed (setValue_cases happlied)
      | getSize k =>
          obtain ⟨_, _, rfl⟩ := map_eq_ok happlied
          exact hs
      | isExist k =>
          cases happlied
          exact hs

/-! ### Runs -/

/-- A cache just made, over files in any state. -/
def init (capacity : Nat) (files : Bytes → FileState) : Served :=
  ⟨.init capacity, files⟩

theorem fresh_init (capacity : Nat) (files : Bytes → FileState) :
    (init capacity files).Fresh := by
  refine ⟨linked_init capacity, ?_⟩
  intro entry hentry
  cases hentry

/-- After any interleaving of calls with modifications, what `getValue` returns
is the present content of the file, and its length is the size kept with it. -/
theorem getValue_returns_current (capacity : Nat) (files : Bytes → FileState)
    {events : List Event}
    (hallowed : Along Served.step Allowed (init capacity files) events)
    (hrun : run Served.step (init capacity files) events = some s)
    (hanswers : (s.fileOf k).Answers file) {val : Bytes} {cache : LRUCache}
    (hget : s.cache.getValue k file = .ok (some val, cache)) :
    val = (s.fileOf k).content ∧
      cache.getSize k = .ok (s.fileOf k).content.length := by
  have hs : s.Fresh := run_invariant_along
    (fun _ _ _ hfresh hgood hstep => hfresh.step hgood hstep)
    (fresh_init capacity files) hallowed hrun
  generalize hresult : some val = result at hget
  cases getValue_cases hs.linked hget with
  | absent => cases hresult
  | unknown => cases hresult
  | current hit hnode hstat hcurrent =>
      obtain rfl := hs.linked.key_eq hit hnode
      obtain ⟨hval, hsize⟩ := (hs.nodes _ hnode).current
        (hanswers.stat _ hstat).2 hcurrent
      rw [hval] at hresult
      cases hresult
      exact ⟨rfl, by rw [getSize_front hit, hsize]⟩
  | refreshed hit hnode hstat _ hread hlength =>
      cases hresult
      obtain ⟨rfl, _⟩ :=
        freshNode_of_read hanswers hstat hread hlength k
      exact ⟨rfl, getSize_front hit _⟩

theorem getValue_returns_current_after_change :
    ∃ s cache, run Served.step
        (init 1 fun _ => ⟨[1], ⟨1, 0⟩, true⟩)
        [.call (.setValue [97] ⟨some ⟨⟨1, 0⟩, 1⟩, some [1]⟩),
          .modify [97] ⟨[2, 3], ⟨1, 5⟩, true⟩] = some s ∧
      s.cache.getValue [97] ⟨some ⟨⟨1, 5⟩, 2⟩, some [2, 3]⟩ =
        .ok (some [2, 3], cache) ∧
      [2, 3] = (s.fileOf [97]).content := by
  have hallowed : Along Served.step Allowed
      (init 1 fun _ => ⟨[1], ⟨1, 0⟩, true⟩)
      [.call (.setValue [97] ⟨some ⟨⟨1, 0⟩, 1⟩, some [1]⟩),
        .modify [97] ⟨[2, 3], ⟨1, 5⟩, true⟩] := by
    refine Along.cons (FileState.answers_self rfl) rfl
      (Along.cons ?_ rfl trivial)
    exact Or.inl (Or.inr ⟨rfl, by decide⟩)
  have hanswers : FileState.Answers ⟨[2, 3], ⟨1, 5⟩, true⟩
      ⟨some ⟨⟨1, 5⟩, 2⟩, some [2, 3]⟩ := FileState.answers_self rfl
  exact ⟨_, _, rfl, rfl,
    (getValue_returns_current (k := [97]) 1 _ hallowed rfl hanswers rfl).1⟩

end Served

end LRUCache

end Sone

end LinuxTest
