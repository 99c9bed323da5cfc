/-
Threads in `HttpServer::createResponse` that share the file cache.  A cache call
is one step, and so is the making of the string from the pointer and the size
that `getValue` and `getSize` returned; the two calls are arguments of one
constructor, so that either may come first.  Files change between the steps.
-/
import LinuxTest.LRUCacheBuffers
import LinuxTest.LRUCacheFresh

namespace LinuxTest

namespace Sone

open LRUCache

/-- Where a thread is: outside, before the first `getValue`, before `setValue`,
or at the constructor with the arguments evaluated so far. -/
inductive ReaderPc where
  | idle
  | look (k : Bytes)
  | insert (k : Bytes)
  | args (k : Bytes) (ptr : Option (Option Nat)) (size : Option Nat)

namespace ReaderPc

/-- The path that the thread asks the cache for. -/
def key : ReaderPc → Option Bytes
  | .idle => none
  | .look k => some k
  | .insert k => some k
  | .args k _ _ => some k

/-- Past the calls that see to it that the key is in the cache. -/
def Needs (k : Bytes) : ReaderPc → Prop
  | .args other _ _ => other = k
  | _ => False

/-- With an argument for the key evaluated. -/
def Uses (k : Bytes) : ReaderPc → Prop
  | .args other ptr size => other = k ∧ (ptr ≠ none ∨ size ≠ none)
  | _ => False

end ReaderPc

/-- What threads share, the contents that each path has had, and the keys and
the strings built so far, none where there was no string to build. -/
structure CacheThreads (I : Type) where
  buffers : Buffered
  files : Bytes → FileState
  versions : Bytes → List Bytes
  threads : I → ReaderPc
  built : List (Bytes × Option Bytes)

inductive ThreadEvent (I : Type) where
  | request (t : I) (k : Bytes)
  | getValue (t : I) (file : File)
  | setValue (t : I) (file : File)
  | getSize (t : I)
  | build (t : I)
  | modify (path : Bytes) (file : FileState)

/-- `std::string(ptr, size)`, if there are so many bytes at the pointer. -/
def makeString (heap : Nat → Option Bytes) : Option Nat → Nat → Option Bytes
  | none, size => if size = 0 then some [] else none
  | some p, size =>
      match heap p with
      | none => none
      | some buf => if size ≤ buf.length then some (buf.take size) else none

namespace CacheThreads

variable {I : Type}

def init (capacity : Nat) (files : Bytes → FileState) : CacheThreads I where
  buffers := ⟨.init capacity, fun _ => 0, fun _ => none, 0⟩
  files := files
  versions := fun path => [(files path).content]
  threads := fun _ => .idle
  built := []

variable [DecidableEq I]

def goTo (s : CacheThreads I) (t : I) (pc : ReaderPc) : CacheThreads I :=
  { s with threads := Function.update s.threads t pc }

/-- One step; none where the thread is elsewhere or a call does not return. -/
def step (s : CacheThreads I) : ThreadEvent I → Option (CacheThreads I)
  | .request t k =>
      match s.threads t with
      | .idle => some (s.goTo t (.look k))
      | _ => none
  | .getValue t file =>
      match s.threads t with
      | .look k => (s.buffers.getValue k file).toOption.map fun result =>
          { s.goTo t (if result.1.isNone then .insert k
              else .args k none none) with
            buffers := result.2 }
      | .args k none size => (s.buffers.getValue k file).toOption.map
          fun result => { s.goTo t (.args k (some result.1) size) with
            buffers := result.2 }
      | _ => none
  | .setValue t file =>
      match s.threads t with
      | .insert k => (s.buffers.setValue k file).toOption.map fun buffers =>
          { s.goTo t (.args k none none) with buffers := buffers }
      | _ => none
  | .getSize t =>
      match s.threads t with
      | .args k ptr none => (s.buffers.cache.getSize k).toOption.map
          fun size => s.goTo t (.args k ptr (some size))
      | _ => none
  | .build t =>
      match s.threads t with
      | .args k (some ptr) (some size) => some { s.goTo t .idle with
          built := s.built ++ [(k, makeString s.buffers.heap ptr size)] }
      | _ => none
  | .modify path file => some { s with
      files := Function.update s.files path file
      versions := Function.update s.versions path
        (file.content :: s.versions path) }

/-- Calls are answered about the files as they are. -/
def Allowed (s : CacheThreads I) : ThreadEvent I → Prop
  | .getValue t file => ∀ k, (s.threads t).key = some k →
      (s.files (cString k)).Answers file
  | .setValue t file => ∀ k, (s.threads t).key = some k →
      (s.files (cString k)).Answers file
  | _ => True

/-- No `getValue` replaces a buffer whose address or size some thread has
evaluated, the file is there at the second `getValue`, and no `setValue` gives
up a node that some thread needs. -/
def Undisturbed (s : CacheThreads I) : ThreadEvent I → Prop
  | .getValue t file => ∀ k, (s.threads t).key = some k →
      (s.buffers.cache.refreshes k file → ∀ u, ¬ (s.threads u).Uses k) ∧
      ((s.threads t).Needs k → file.stat ≠ none)
  | .setValue t _ => ∀ k entry, (s.threads t).key = some k →
      s.buffers.cache.cacheMap k = none →
      s.buffers.cache.victim = some entry →
      ∀ u, ¬ (s.threads u).Needs entry.2.key
  | _ => True

/-- Every way a step can go. -/
inductive Move (s : CacheThreads I) :
    ThreadEvent I → CacheThreads I → Prop where
  | request {t k} (hpc : s.threads t = .idle) :
      Move s (.request t k) (s.goTo t (.look k))
  | absent {t k file buffers} (hpc : s.threads t = .look k)
      (hget : s.buffers.getValue k file = .ok (none, buffers)) :
      Move s (.getValue t file)
        { s.goTo t (.insert k) with buffers := buffers }
  | present {t k file q buffers} (hpc : s.threads t = .look k)
      (hget : s.buffers.getValue k file = .ok (some q, buffers)) :
      Move s (.getValue t file)
        { s.goTo t (.args k none none) with buffers := buffers }
  | pointer {t k size file p buffers} (hpc : s.threads t = .args k none size)
      (hget : s.buffers.getValue k file = .ok (p, buffers)) :
      Move s (.getValue t file)
        { s.goTo t (.args k (some p) size) with buffers := buffers }
  | insert {t k file buffers} (hpc : s.threads t = .insert k)
      (hset : s.buffers.setValue k file = .ok buffers) :
      Move s (.setValue t file)
        { s.goTo t (.args k none none) with buffers := buffers }
  | size {t k ptr size} (hpc : s.threads t = .args k ptr none)
      (hsize : s.buffers.cache.getSize k = .ok size) :
      Move s (.getSize t) (s.goTo t (.args k ptr (some size)))
  | build {t k ptr size} (hpc : s.threads t = .args k (some ptr) (some size)) :
      Move s (.build t) { s.goTo t .idle with
        built := s.built ++ [(k, makeString s.buffers.heap ptr size)] }
  | modify {path file} : Move s (.modify path file) { s with
      files := Function.update s.files path file
      versions := Function.update s.versions path
        (file.content :: s.versions path) }

section Steps

variable {s next : CacheThreads I} {event : ThreadEvent I}

/-- The value behind a step that maps over a call. -/
theorem toOption_map_eq_some {A B : Type} {result : Except Halt A} {f : A → B}
    {value : B} (hmap : result.toOption.map f = some value) :
    ∃ a, result = .ok a ∧ f a = value := by
  rw [Option.map_eq_some_iff] at hmap
  obtain ⟨a, hresult, hvalue⟩ := hmap
  exact ⟨a, toOption_eq_some hresult, hvalue⟩

theorem step_cases (hstep : s.step event = some next) :
    Move s event next := by
  cases event <;> simp only [step] at hstep
  case request t k =>
    split at hstep
    · case h_1 hpc =>
        cases hstep
        exact Move.request hpc
    · cases hstep
  case getValue t file =>
    split at hstep
    · case h_1 k hpc =>
        obtain ⟨⟨p, buffers⟩, hget, rfl⟩ := toOption_map_eq_some hstep
        cases p with
        | none => exact Move.absent hpc hget
        | some q => exact Move.present hpc hget
    · case h_2 k size hpc =>
        obtain ⟨⟨p, buffers⟩, hget, rfl⟩ := toOption_map_eq_some hstep
        exact Move.pointer hpc hget
    · cases hstep
  case setValue t file =>
    split at hstep
    · case h_1 k hpc =>
        obtain ⟨buffers, hset, rfl⟩ := toOption_map_eq_some hstep
        exact Move.insert hpc hset
    · cases hstep
  case getSize t =>
    split at hstep
    · case h_1 k ptr hpc =>
        obtain ⟨size, hsize, rfl⟩ := toOption_map_eq_some hstep
        exact Move.size hpc hsize
    · cases hstep
  case build t =>
    split at hstep
    · case h_1 k ptr size hpc =>
        cases hstep
        exact Move.build hpc
    · cases hstep
  case modify path file =>
    cases hstep
    exact Move.modify

/-! ### The arguments of a thread -/

/-- The key has a buffer, and what is evaluated of the arguments is its address
and its length. -/
def Matches (b : Buffered) (k : Bytes) (ptr : Option (Option Nat))
    (size : Option Nat) : Prop :=
  ∃ q buf, b.Holds k q buf ∧ (∀ p, ptr = some p → p = some q) ∧
    ∀ n, size = some n → n = buf.length

variable {b after : Buffered} {k other : Bytes} {ptr : Option (Option Nat)}
  {size : Option Nat} {P : Bytes → Bytes → Prop} {file : File}

theorem matches_of_found (hb : b.Backed P) {it : Nat}
    (hit : b.cache.cacheMap k = some it) : Matches b k none none := by
  obtain ⟨buf, hholds, _⟩ := hb.holds hit
  exact ⟨_, buf, hholds, nofun, nofun⟩

theorem Matches.found (hmatches : Matches b k ptr size) :
    ∃ it, b.cache.cacheMap k = some it := by
  obtain ⟨_, _, ⟨⟨it, _, hit, _⟩, _⟩, _⟩ := hmatches
  exact ⟨it, hit⟩

/-- The arguments of the other threads after a `getValue`. -/
theorem Matches.getValue {p : Option Nat}
    (hmatches : Matches b other ptr size) (hget : b.Gets k file p after)
    (hb : b.Backed P) (hafter : after.Backed P)
    (hquiet : b.cache.refreshes k file →
      ¬ (ReaderPc.args other ptr size).Uses k) :
    Matches after other ptr size := by
  by_cases hloses : b.cache.refreshes k file ∧ other = k
  · obtain ⟨hrefreshes, rfl⟩ := hloses
    have hnone : ptr = none ∧ size = none := by
      have hfree := hquiet hrefreshes
      simp only [ReaderPc.Uses, true_and, not_or, not_not] at hfree
      exact hfree
    obtain ⟨it, hit⟩ := hmatches.found
    rw [hnone.1, hnone.2]
    exact matches_of_found hafter (hget.cacheMap_eq ▸ hit)
  · obtain ⟨q, buf, hholds, hptr, hsize⟩ := hmatches
    have hkeeps := hget.keeps hb hholds fun hrefreshes hsame =>
      hloses ⟨hrefreshes, hsame⟩
    exact ⟨q, buf, hkeeps, hptr, hsize⟩

/-- The arguments of a thread after its own second `getValue`. -/
theorem Matches.pointer {p : Option Nat} (hmatches : Matches b k none size)
    (hget : b.Gets k file p after) (hb : b.Backed P) (hafter : after.Backed P)
    (hquiet : b.cache.refreshes k file →
      ¬ (ReaderPc.args k none size).Uses k)
    (hstat : file.stat ≠ none) : Matches after k (some p) size := by
  obtain ⟨it, hit⟩ := hmatches.found
  obtain ⟨q, rfl⟩ := hget.exists_pointer hb hit hstat
  obtain ⟨buf, hholds, _⟩ := hget.holds hafter
  obtain ⟨r, bytes, hother, _, hsize⟩ := hmatches.getValue hget hb hafter hquiet
  obtain ⟨rfl, rfl⟩ := hholds.unique hother
  refine ⟨q, buf, hholds, ?_, hsize⟩
  intro p hp
  cases hp
  rfl

/-- The arguments of a thread after its `getSize`. -/
theorem Matches.getSize {n : Nat} (hmatches : Matches b k ptr none)
    (hlinked : b.cache.Linked) (hget : b.cache.getSize k = .ok n) :
    Matches b k ptr (some n) := by
  obtain ⟨q, buf, hholds, hptr, _⟩ := hmatches
  rw [hholds.getSize hlinked] at hget
  cases hget
  refine ⟨q, buf, hholds, hptr, ?_⟩
  intro n hn
  cases hn
  rfl

/-- The string is the buffer. -/
theorem Matches.makeString {p : Option Nat} {n : Nat}
    (hmatches : Matches b k (some p) (some n)) (hb : b.Backed P) :
    ∃ buf, makeString b.heap p n = some buf ∧ P k buf := by
  obtain ⟨q, buf, hholds, hptr, hsize⟩ := hmatches
  refine ⟨buf, ?_, hb.content hholds⟩
  rw [hptr p rfl, hsize n rfl]
  simp only [Sone.makeString, hholds.live, le_refl, ↓reduceIte,
    List.take_length]

/-! ### Runs -/

/-- The buffers hold versions of their files, every thread has the address and
the length of such a buffer, and so had those that built a string. -/
structure Steady (s : CacheThreads I) : Prop where
  backed : s.buffers.Backed fun k buf => buf ∈ s.versions (cString k)
  current : ∀ path, (s.files path).content ∈ s.versions path
  threads : ∀ t k ptr size, s.threads t = .args k ptr size →
    Matches s.buffers k ptr size
  built : ∀ body ∈ s.built, ∃ content ∈ s.versions (cString body.1),
    body.2 = some content

omit [DecidableEq I] in
/-- What a call reads in full is a version. -/
theorem Steady.version_of_read (hs : s.Steady)
    (hanswers : (s.files (cString k)).Answers file) {st : Stat} {buf : Bytes}
    (hstat : file.stat = some st) (hread : file.read = some buf)
    (hlength : buf.length = st.st_size) : buf ∈ s.versions (cString k) := by
  obtain ⟨rfl, _⟩ :=
    Served.freshNode_of_read hanswers hstat hread hlength k
  exact hs.current (cString k)

/-- A thread moves and the buffers change, in a way that suits the thread and
the others. -/
theorem Steady.goTo (hs : s.Steady) {t : I} {pc : ReaderPc}
    {buffers : Buffered}
    (hbacked : buffers.Backed fun k buf => buf ∈ s.versions (cString k))
    (hself : ∀ k ptr size, pc = .args k ptr size → Matches buffers k ptr size)
    (hothers : ∀ u k ptr size, s.threads u = .args k ptr size →
      Matches buffers k ptr size) :
    Steady { s.goTo t pc with buffers := buffers } := by
  refine ⟨hbacked, hs.current, ?_, hs.built⟩
  intro u k ptr size hpc
  by_cases hu : u = t
  · subst hu
    exact hself k ptr size ((Function.update_self ..).symm.trans hpc)
  · exact hothers u k ptr size ((Function.update_of_ne hu ..).symm.trans hpc)

omit [DecidableEq I] in
/-- The buffers and the threads after a `getValue` of some thread. -/
theorem Steady.getValue (hs : s.Steady) {p : Option Nat} {buffers : Buffered}
    (hget : s.buffers.getValue k file = .ok (p, buffers))
    (hanswers : (s.files (cString k)).Answers file)
    (hfree : s.buffers.cache.refreshes k file → ∀ u, ¬ (s.threads u).Uses k) :
    s.buffers.Gets k file p buffers ∧
      (buffers.Backed fun k buf => buf ∈ s.versions (cString k)) ∧
      ∀ u k ptr size, s.threads u = .args k ptr size →
        Matches buffers k ptr size := by
  have hgets := Buffered.getValue_cases hs.backed.linked hget
  have hbacked := hgets.backed hs.backed fun st buf hstat hread hlength =>
    hs.version_of_read hanswers hstat hread hlength
  refine ⟨hgets, hbacked, ?_⟩
  intro u other ptr size hpc
  refine (hs.threads u other ptr size hpc).getValue hgets hs.backed hbacked ?_
  intro hrefreshes
  rw [← hpc]
  exact hfree hrefreshes u

theorem Steady.insert (hs : s.Steady) {t : I} {buffers : Buffered}
    (hset : s.buffers.setValue k file = .ok buffers)
    (hanswers : (s.files (cString k)).Answers file)
    (hfree : ∀ entry, s.buffers.cache.cacheMap k = none →
      s.buffers.cache.victim = some entry →
      ∀ u, ¬ (s.threads u).Needs entry.2.key) :
    Steady { s.goTo t (.args k none none) with buffers := buffers } := by
  have hsets := Buffered.setValue_cases hset
  have hbacked := hsets.backed hs.backed fun st buf hstat hread hlength =>
    hs.version_of_read hanswers hstat hread hlength
  refine hs.goTo hbacked ?_ ?_
  · intro other ptr size hpc
    cases hpc
    obtain ⟨it, hit⟩ := hsets.found
    exact matches_of_found hbacked hit
  · intro u other ptr size hpc
    obtain ⟨q, buf, hholds, hptr, hsize⟩ := hs.threads u other ptr size hpc
    refine ⟨q, buf, hsets.keeps hs.backed hholds ?_, hptr, hsize⟩
    intro entry habsent hvictim hsame
    have hneeds := hfree entry habsent hvictim u
    rw [hpc] at hneeds
    exact hneeds hsame

omit [DecidableEq I] in
theorem Steady.modify (hs : s.Steady) (path : Bytes) (f : FileState) :
    Steady { s with
      files := Function.update s.files path f
      versions := Function.update s.versions path
        (f.content :: s.versions path) } := by
  have hgrows (other content : Bytes) (hold : content ∈ s.versions other) :
      content ∈ Function.update s.versions path
        (f.content :: s.versions path) other := by
    by_cases hother : other = path
    · subst hother
      rw [Function.update_self]
      exact List.mem_cons_of_mem _ hold
    · rw [Function.update_of_ne hother]
      exact hold
  refine ⟨hs.backed.mono fun k buf => hgrows (cString k) buf, ?_,
    hs.threads, ?_⟩
  · intro other
    by_cases hother : other = path
    · subst hother
      change (Function.update s.files other f other).content ∈
        Function.update s.versions other (f.content :: s.versions other) other
      rw [Function.update_self, Function.update_self]
      exact List.mem_cons_self
    · change (Function.update s.files path f other).content ∈ _
      rw [Function.update_of_ne hother]
      exact hgrows other _ (hs.current other)
  · intro body hbody
    obtain ⟨content, hcontent, heq⟩ := hs.built body hbody
    exact ⟨content, hgrows _ _ hcontent, heq⟩

theorem Steady.move (hs : s.Steady) (hallowed : s.Allowed event)
    (hquiet : s.Undisturbed event) (hmove : Move s event next) :
    next.Steady := by
  cases hmove with
  | request _ => exact hs.goTo hs.backed nofun hs.threads
  | @absent t k file buffers hpc hget =>
      have hkey : (s.threads t).key = some k := by rw [hpc]; rfl
      obtain ⟨_, hbacked, hothers⟩ :=
        hs.getValue hget (hallowed k hkey) (hquiet k hkey).1
      exact hs.goTo hbacked nofun hothers
  | @present t k file q buffers hpc hget =>
      have hkey : (s.threads t).key = some k := by rw [hpc]; rfl
      obtain ⟨hgets, hbacked, hothers⟩ :=
        hs.getValue hget (hallowed k hkey) (hquiet k hkey).1
      refine hs.goTo hbacked ?_ hothers
      intro other ptr size hargs
      cases hargs
      obtain ⟨buf, hholds, _⟩ := hgets.holds hbacked
      exact ⟨q, buf, hholds, nofun, nofun⟩
  | @pointer t k size file p buffers hpc hget =>
      have hkey : (s.threads t).key = some k := by rw [hpc]; rfl
      obtain ⟨hfree, hstat⟩ := hquiet k hkey
      obtain ⟨hgets, hbacked, hothers⟩ :=
        hs.getValue hget (hallowed k hkey) hfree
      refine hs.goTo hbacked ?_ hothers
      intro other ptr count hargs
      cases hargs
      refine (hs.threads t k none size hpc).pointer hgets hs.backed hbacked
        ?_ (hstat (by rw [hpc]; rfl))
      intro hrefreshes
      rw [← hpc]
      exact hfree hrefreshes t
  | @insert t k file buffers hpc hset =>
      have hkey : (s.threads t).key = some k := by rw [hpc]; rfl
      exact hs.insert hset (hallowed k hkey) fun entry => hquiet k entry hkey
  | @size t k ptr n hpc hsize =>
      refine hs.goTo hs.backed ?_ hs.threads
      intro other ptr count hargs
      cases hargs
      exact (hs.threads t k _ none hpc).getSize hs.backed.linked hsize
  | @build t k ptr n hpc =>
      have hidle : (s.goTo t .idle).Steady :=
        hs.goTo hs.backed nofun hs.threads
      refine ⟨hidle.backed, hidle.current, hidle.threads, ?_⟩
      intro body hbody
      rcases List.mem_append.mp hbody with hold | hnew
      · exact hs.built body hold
      · rw [List.mem_singleton.mp hnew]
        obtain ⟨buf, hstring, hversion⟩ :=
          (hs.threads t k _ _ hpc).makeString hs.backed
        exact ⟨buf, hversion, hstring⟩
  | modify => exact hs.modify _ _

omit [DecidableEq I] in
theorem steady_init (capacity : Nat) (files : Bytes → FileState) :
    (init capacity files : CacheThreads I).Steady := by
  refine ⟨⟨linked_init capacity, nofun, nofun, nofun⟩, ?_, nofun, nofun⟩
  intro path
  exact List.mem_singleton.mpr rfl

/-- In every run whose calls are undisturbed, every string built is the content
of a version of the file, and a thread that has both arguments has the address
of the buffer that the cache holds for its key, and the length of it. -/
theorem bodies_are_versions (capacity : Nat) (files : Bytes → FileState)
    {events : List (ThreadEvent I)}
    (hallowed : Along step Allowed (init capacity files) events)
    (hquiet : Along step Undisturbed (init capacity files) events)
    (hrun : run step (init capacity files) events = some s) :
    (∀ body ∈ s.built, ∃ content ∈ s.versions (cString body.1),
      body.2 = some content) ∧
    ∀ t k ptr size, s.threads t = .args k (some ptr) (some size) →
      ∃ p buf, ptr = some p ∧ s.buffers.Holds k p buf ∧ size = buf.length := by
  have hs : s.Steady := run_invariant_along
    (fun _ _ _ hsteady hgood hstep =>
      hsteady.move hgood.1 hgood.2 (step_cases hstep))
    (steady_init capacity files) (hallowed.and hquiet) hrun
  refine ⟨hs.built, ?_⟩
  intro t k ptr size hpc
  obtain ⟨p, buf, hholds, hptr, hsize⟩ := hs.threads t k _ _ hpc
  exact ⟨p, buf, hptr ptr rfl, hholds, hsize size rfl⟩

end Steps

/-- A file with the one byte 1, and the kernel's answers about it. -/
def shortFile : FileState :=
  ⟨[1], ⟨1, 0⟩, true⟩

def shortPage : File :=
  ⟨some ⟨⟨1, 0⟩, 1⟩, some [1]⟩

/-- The file with the bytes 2 and 3, later. -/
def longFile : FileState :=
  ⟨[2, 3], ⟨2, 0⟩, true⟩

def longPage : File :=
  ⟨some ⟨⟨2, 0⟩, 2⟩, some [2, 3]⟩

theorem shortFile_answers : shortFile.Answers shortPage :=
  FileState.answers_self rfl

theorem longFile_answers : longFile.Answers longPage :=
  FileState.answers_self rfl

/-- One thread of two serves the file. -/
def serveAlone : List (ThreadEvent Bool) :=
  [.request false [97], .getValue false shortPage, .setValue false shortPage,
    .getSize false, .getValue false shortPage, .build false]

theorem bodies_are_versions_serveAlone :
    ∃ s, run step (init 1 fun _ => shortFile) serveAlone = some s ∧
      s.built = [([97], some [1])] ∧
      ∀ body ∈ s.built, ∃ content ∈ s.versions (cString body.1),
        body.2 = some content := by
  have hallowed : Along step Allowed (init 1 fun _ => shortFile)
      serveAlone := by
    refine Along.cons trivial rfl (Along.cons ?_ rfl (Along.cons ?_ rfl
      (Along.cons trivial rfl (Along.cons ?_ rfl (Along.cons trivial rfl
        trivial)))))
    · intro k _
      exact shortFile_answers
    · intro k _
      exact shortFile_answers
    · intro k _
      exact shortFile_answers
  have hquiet : Along step Undisturbed (init 1 fun _ => shortFile)
      serveAlone := by
    refine Along.cons trivial rfl (Along.cons ?_ rfl (Along.cons ?_ rfl
      (Along.cons trivial rfl (Along.cons ?_ rfl (Along.cons trivial rfl
        trivial)))))
    · intro k hk
      cases hk
      exact ⟨nofun, nofun⟩
    · intro k entry hk _ hvictim
      cases hvictim
    · intro k hk
      cases hk
      exact ⟨nofun, nofun⟩
  exact ⟨_, rfl, rfl, (bodies_are_versions 1 _ hallowed hquiet rfl).1⟩

/-- The size is evaluated before the other thread refreshes the entry, the
pointer after it. -/
def sizeBeforeRefresh : List (ThreadEvent Bool) :=
  [.request false [97], .getValue false shortPage, .setValue false shortPage,
    .getSize false, .modify [97] longFile, .request true [97],
    .getValue true longPage, .getValue false longPage, .build false]

/-- Both are evaluated before the refresh. -/
def buildAfterRefresh : List (ThreadEvent Bool) :=
  [.request false [97], .getValue false shortPage, .setValue false shortPage,
    .getValue false shortPage, .getSize false, .modify [97] longFile,
    .request true [97], .getValue true longPage, .build false]

/-- A string that is no version of the file, and one from a buffer that was
deleted. -/
theorem refresh_spoils_bodies :
    (Along step Allowed (init 1 fun _ => shortFile) sizeBeforeRefresh ∧
      ∃ s, run step (init 1 fun _ => shortFile) sizeBeforeRefresh = some s ∧
        s.built = [([97], some [2])] ∧ s.versions [97] = [[2, 3], [1]]) ∧
    (Along step Allowed (init 1 fun _ => shortFile) buildAfterRefresh ∧
      ∃ s, run step (init 1 fun _ => shortFile) buildAfterRefresh = some s ∧
        s.built = [([97], none)]) := by
  refine ⟨⟨?_, _, rfl, rfl, rfl⟩, ⟨?_, _, rfl, rfl⟩⟩
  · refine Along.cons trivial rfl (Along.cons (fun _ _ => shortFile_answers)
      rfl (Along.cons (fun _ _ => shortFile_answers) rfl (Along.cons trivial
        rfl (Along.cons trivial rfl (Along.cons trivial rfl ?_)))))
    refine Along.cons ?_ rfl (Along.cons ?_ rfl (Along.cons trivial rfl
      trivial))
    · intro k hk
      cases hk
      exact longFile_answers
    · intro k hk
      cases hk
      exact longFile_answers
  · refine Along.cons trivial rfl (Along.cons (fun _ _ => shortFile_answers)
      rfl (Along.cons (fun _ _ => shortFile_answers) rfl (Along.cons
        (fun _ _ => shortFile_answers) rfl (Along.cons trivial rfl ?_))))
    refine Along.cons trivial rfl (Along.cons trivial rfl (Along.cons ?_ rfl
      (Along.cons trivial rfl trivial)))
    intro k hk
    cases hk
    exact longFile_answers

end CacheThreads

end Sone

end LinuxTest
