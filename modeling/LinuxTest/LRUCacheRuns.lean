/-
Runs of calls on the file cache against the history of touches.
-/
import LinuxTest.LRUCacheSpec

namespace LinuxTest

namespace Sone

namespace LRUCache

/-- A call, with what the kernel answers about the file during it. -/
inductive Call where
  | getValue (k : Bytes) (file : File)
  | setValue (k : Bytes) (file : File)
  | getSize (k : Bytes)
  | isExist (k : Bytes)

/-- `setValue` is called only for files that can be read in full. -/
def Call.Allowed : Call → Prop
  | .setValue _ file => Readable file
  | _ => True

/-- A `getValue` whose file can not be read in full. -/
def Call.Unreadable : Call → Prop
  | .getValue _ file => ¬ Readable file
  | _ => False

/-- A cache with its history of touches, the latest first: a `getValue` that
finds the key, or a `setValue` that inserts it. -/
structure Session where
  cache : LRUCache
  touches : List Bytes

def Session.init (capacity : Nat) : Session :=
  ⟨.init capacity, []⟩

def Session.call (s : Session) : Call → Except Halt Session
  | .getValue k file => do
      let result ← s.cache.getValue k file
      return ⟨result.2, if (s.cache.cacheMap k).isSome then k :: s.touches
        else s.touches⟩
  | .setValue k file => do
      let cache ← s.cache.setValue k file
      return ⟨cache, if (s.cache.cacheMap k).isSome then s.touches
        else k :: s.touches⟩
  | .getSize k => do
      let _ ← s.cache.getSize k
      return s
  | .isExist _ => return s

/-- A call in a process, which a failed `assert` ends: no session is left and
no later call is made.  Stuck where an iterator has no node. -/
def step : Option Session → Call → Option (Option Session)
  | none, _ => some none
  | some s, call => match s.call call with
    | .ok next => some (some next)
    | .error .assert => some none
    | .error .dangling => none

/-- The key that goes is the least recently touched of those in the cache. -/
def Session.EvictsOldest (s : Session) : Prop :=
  ∀ k file next, k ∉ s.cache.keys →
    s.cache.cacheList.length = s.cache.capacity →
    s.cache.setValue k file = .ok next →
    ∃ oldest ∈ s.cache.keys, next.keys = k :: s.cache.keys.erase oldest ∧
      ∀ other ∈ s.cache.keys, other ≠ oldest →
        s.touches.idxOf other < s.touches.idxOf oldest

/-- What the cache is for. -/
structure Session.Correct (capacity : Nat) (s : Session) : Prop where
  capacity_eq : s.cache.capacity = capacity
  mapped : ∀ k, (s.cache.cacheMap k).isSome ↔ k ∈ s.cache.keys
  once : s.cache.keys.Nodup
  nodes : (s.cache.cacheList.map Prod.fst).Nodup
  own : ∀ entry ∈ s.cache.cacheList,
    s.cache.cacheMap entry.2.key = some entry.1
  recent : s.cache.keys = (recency s.touches).take capacity
  evicts : s.EvictsOldest
  bounded : s.cache.cacheList.length ≤ capacity

/-- What a run keeps. -/
structure Session.Sound (capacity : Nat) (s : Session) : Prop where
  capacity_eq : s.cache.capacity = capacity
  linked : s.cache.Linked
  recent : s.cache.keys = (recency s.touches).take capacity

variable {s : Session} {capacity : Nat} {k : Bytes} {file : File}

theorem Session.sound_init (capacity : Nat) :
    (Session.init capacity).Sound capacity :=
  ⟨rfl, linked_init capacity, by simp [init, keys, LRUCache.init, recency]⟩

/-- A `setValue` that returns after inserting has read its file in full. -/
theorem readable_of_setValue {c next : LRUCache} (hk : k ∉ c.keys)
    (hc : c.Linked) (hset : c.setValue k file = .ok next) :
    Readable file := by
  cases setValue_cases hset with
  | present hit =>
      rw [(hc.none_iff k).mpr hk] at hit
      cases hit
  | inserted _ _ hstat hread hlength => exact ⟨_, _, hstat, hread, hlength⟩

theorem Session.Sound.evictsOldest (hs : s.Sound capacity)
    (hcapacity : 1 ≤ capacity) : s.EvictsOldest := by
  intro k file next hk hfull hset
  have hlength : s.cache.keys.length = s.cache.cacheList.length :=
    List.length_map _
  have hfile := readable_of_setValue hk hs.linked hset
  obtain ⟨next', hset', _, _, hkeys⟩ :=
    setValue_new hs.linked (hs.capacity_eq ▸ hcapacity) hk hfile
  rw [hset] at hset'
  cases hset'
  have hne : s.cache.keys ≠ [] := by
    intro hnil
    rw [hnil, List.length_nil] at hlength
    have := hs.capacity_eq
    omega
  have hsplit := List.dropLast_append_getLast hne
  have hnodup := hs.linked.nodup_keys
  have hlastNew : s.cache.keys.getLast hne ∉ s.cache.keys.dropLast := by
    rw [← hsplit] at hnodup
    intro hmem
    exact (List.nodup_append.mp hnodup).2.2 _ hmem _ List.mem_cons_self rfl
  have horder : s.cache.keys.Pairwise fun first last =>
      s.touches.idxOf first < s.touches.idxOf last := by
    rw [hs.recent]
    exact (recency_pairwise_idxOf s.touches).sublist (List.take_sublist _ _)
  refine ⟨s.cache.keys.getLast hne, List.getLast_mem hne, ?_, ?_⟩
  · have herase : s.cache.keys.erase (s.cache.keys.getLast hne) =
        s.cache.keys.dropLast := by
      nth_rewrite 1 [← hsplit]
      rw [List.erase_append_right _ hlastNew, List.erase_cons_head,
        List.append_nil]
    rw [hkeys, kept, hlength, hfull, if_pos rfl, herase]
  · intro other hother hne'
    rw [← hsplit] at hother horder
    rcases List.mem_append.mp hother with hfront | hlast
    · exact (List.pairwise_append.mp horder).2.2 other hfront _
        List.mem_cons_self
    · exact absurd (List.mem_singleton.mp hlast) hne'

theorem Session.Sound.correct (hs : s.Sound capacity)
    (hcapacity : 1 ≤ capacity) : s.Correct capacity := by
  refine ⟨hs.capacity_eq, hs.linked.isSome_iff, hs.linked.nodup_keys,
    hs.linked.distinct, hs.linked.own, hs.recent,
    hs.evictsOldest hcapacity, ?_⟩
  have hlength : s.cache.keys.length = s.cache.cacheList.length :=
    List.length_map _
  rw [← hlength, hs.recent]
  exact List.length_take_le capacity _

/-- The keys that stay leave room for one more. -/
theorem Session.Sound.kept_eq (hs : s.Sound (capacity + 1)) :
    s.cache.kept = (recency s.touches).take capacity := by
  have hlength := congrArg List.length hs.recent
  rw [List.length_take] at hlength
  rw [kept, hs.capacity_eq]
  split
  · case isTrue hfull =>
      rw [List.dropLast_eq_take, ← hfull, Nat.add_sub_cancel, hs.recent,
        List.take_take, Nat.min_eq_left (Nat.le_succ capacity)]
  · case isFalse hroom =>
      rw [hs.recent, List.take_of_length_le (by omega),
        List.take_of_length_le (by omega)]

theorem Session.Sound.getValue (hs : s.Sound capacity) (k : Bytes)
    (file : File) :
    (s.call (.getValue k file) = .error .assert ∧ ¬ Readable file) ∨
      ∃ next, s.call (.getValue k file) = .ok next ∧
        next.Sound capacity := by
  cases hit : s.cache.cacheMap k with
  | none =>
      refine Or.inr ⟨s, ?_, hs⟩
      simp only [Session.call, LRUCache.getValue, hit]
      rfl
  | some it =>
      have hsome : (s.cache.cacheMap k).isSome := by rw [hit]; rfl
      have hmem : k ∈ (recency s.touches).take capacity := by
        rw [← hs.recent]
        exact (hs.linked.isSome_iff k).mp hsome
      rcases getValue_found hs.linked hit file with
        ⟨hget, hshort⟩ | ⟨val, next, hget, hlinked, hcapacity, hkeys⟩
      · refine Or.inl ⟨?_, hshort⟩
        simp only [Session.call, hget]
        rfl
      · refine Or.inr ⟨⟨next, k :: s.touches⟩, ?_, ?_, hlinked, ?_⟩
        · simp only [Session.call, hget, hsome, ↓reduceIte]
          rfl
        · exact hcapacity.trans hs.capacity_eq
        · change next.keys = _
          rw [take_recency_of_mem hmem, hkeys, hs.recent]

theorem Session.Sound.setValue (hs : s.Sound capacity)
    (hcapacity : 1 ≤ capacity) (k : Bytes) (hfile : Readable file) :
    ∃ next, s.call (.setValue k file) = .ok next ∧
      next.Sound capacity := by
  by_cases hmem : k ∈ s.cache.keys
  · have hsome := (hs.linked.isSome_iff k).mpr hmem
    obtain ⟨it, hit⟩ := Option.isSome_iff_exists.mp hsome
    refine ⟨s, ?_, hs⟩
    simp only [Session.call, LRUCache.setValue, hit]
    rfl
  · have hnone := (hs.linked.none_iff k).mpr hmem
    obtain ⟨next, hset, hlinked, hsame, hkeys⟩ :=
      setValue_new hs.linked (hs.capacity_eq ▸ hcapacity) hmem hfile
    refine ⟨⟨next, k :: s.touches⟩, ?_, hsame.trans hs.capacity_eq,
      hlinked, ?_⟩
    · simp only [Session.call, hset, hnone]
      rfl
    · obtain ⟨bound, rfl⟩ : ∃ bound, capacity = bound + 1 :=
        ⟨capacity - 1, (Nat.sub_add_cancel hcapacity).symm⟩
      change next.keys = _
      rw [hs.recent] at hmem
      rw [take_recency_of_not_mem hmem, hkeys, hs.kept_eq]

/-- One call: it goes on in step with the history, unless it ends the process
over a file that changed under `getValue`. -/
theorem Session.Sound.call (hs : s.Sound capacity)
    (hcapacity : 1 ≤ capacity) {call : Call} (hallowed : call.Allowed) :
    (s.call call = .error .assert ∧ call.Unreadable) ∨
      ∃ next, s.call call = .ok next ∧ next.Sound capacity := by
  cases call with
  | getValue k file => exact hs.getValue k file
  | setValue k file => exact Or.inr (hs.setValue hcapacity k hallowed)
  | getSize k =>
      refine Or.inr ⟨s, ?_, hs⟩
      cases hit : s.cache.cacheMap k with
      | none =>
          simp only [Session.call, LRUCache.getSize, hit]
          rfl
      | some it =>
          obtain ⟨node, hderef⟩ := hs.linked.deref_eq hit
          simp only [Session.call, LRUCache.getSize, hit, hderef]
          rfl
  | isExist k => exact Or.inr ⟨s, rfl, hs⟩

/-- A process whose session, while there is one, is in step. -/
def Kept (capacity : Nat) (process : Option Session) : Prop :=
  ∀ s, process = some s → s.Sound capacity

theorem Kept.step {process : Option Session} (hkept : Kept capacity process)
    (hcapacity : 1 ≤ capacity) {call : Call} (hallowed : call.Allowed) :
    ∃ next, step process call = some next ∧ Kept capacity next ∧
      (next = none → process = none ∨ call.Unreadable) := by
  cases process with
  | none => exact ⟨none, rfl, hkept, fun _ => Or.inl rfl⟩
  | some s =>
      rcases (hkept s rfl).call hcapacity hallowed with
        ⟨hcall, hshort⟩ | ⟨next, hcall, hnext⟩
      · refine ⟨none, by simp only [LRUCache.step, hcall], ?_, ?_⟩
        · intro s hs
          cases hs
        · exact fun _ => Or.inr hshort
      · refine ⟨some next, by simp only [LRUCache.step, hcall], ?_, ?_⟩
        · intro s hs
          cases hs
          exact hnext
        · intro hnone
          cases hnone

/-- Only a `getValue` ends the process. -/
theorem unreadable_of_ended {calls : List Call} {process : Option Session}
    (hkept : Kept capacity process) (hcapacity : 1 ≤ capacity)
    (hallowed : ∀ call ∈ calls, call.Allowed) (hrunning : process ≠ none)
    (hended : run step process calls = some none) :
    ∃ call ∈ calls, call.Unreadable := by
  induction calls generalizing process with
  | nil =>
      rw [run_nil] at hended
      exact absurd (Option.some.inj hended) hrunning
  | cons call rest ih =>
      obtain ⟨next, hnext, hkeptNext, hends⟩ :=
        hkept.step hcapacity (hallowed call List.mem_cons_self)
      rw [run_cons, hnext, Option.bind_some] at hended
      by_cases hnone : next = none
      · rcases hends hnone with hstopped | hshort
        · exact absurd hstopped hrunning
        · exact ⟨call, List.mem_cons_self, hshort⟩
      · have hrest : ∀ call ∈ rest, call.Allowed := fun other hother =>
          hallowed other (List.mem_cons_of_mem call hother)
        obtain ⟨other, hother, hshort⟩ := ih hkeptNext hrest hnone hended
        exact ⟨other, List.mem_cons_of_mem call hother, hshort⟩

/-- In every run, at every state, the cache holds the `capacity` most recently
touched keys in that order, each with its own node.  No call follows an
iterator without a node, and the process ends only at a `getValue` whose file
can not be read in full. -/
theorem lruCache_holds_most_recent (capacity : Nat)
    (hcapacity : 1 ≤ capacity) (calls : List Call)
    (hallowed : ∀ call ∈ calls, call.Allowed) :
    Always step (fun process => ∀ s, process = some s → s.Correct capacity)
        (some (Session.init capacity)) calls ∧
      (run step (some (Session.init capacity)) calls = some none →
        ∃ call ∈ calls, call.Unreadable) := by
  have hinit : Kept capacity (some (Session.init capacity)) := by
    intro s hs
    cases hs
    exact Session.sound_init capacity
  constructor
  · have halong : Along step (fun _ call => call.Allowed)
        (some (Session.init capacity)) calls :=
      Along.of_forall fun call hcall _ => hallowed call hcall
    have hkept : Always step (Kept capacity)
        (some (Session.init capacity)) calls := by
      apply Always.of_along _ hinit halong
      intro process call hkept hcall
      obtain ⟨next, hnext, hkeptNext, _⟩ := hkept.step hcapacity hcall
      exact ⟨next, hnext, hkeptNext⟩
    apply hkept.mono
    intro process hprocess s hs
    exact (hprocess s hs).correct hcapacity
  · exact unreadable_of_ended hinit hcapacity hallowed (by simp)

/-- A file of one byte. -/
def onePage : File :=
  ⟨some ⟨⟨0, 0⟩, 1⟩, some [10]⟩

/-- Two keys through a cache of one. -/
def twoPages : List Call :=
  [.setValue (lit "a") onePage, .setValue (lit "b") onePage,
    .getValue (lit "b") onePage]

theorem twoPages_allowed : ∀ call ∈ twoPages, call.Allowed := by
  have hpage : Readable onePage := ⟨_, _, rfl, rfl, rfl⟩
  intro call hcall
  simp only [twoPages, List.mem_cons, List.not_mem_nil, or_false] at hcall
  rcases hcall with rfl | rfl | rfl
  · exact hpage
  · exact hpage
  · trivial

theorem lruCache_holds_most_recent_twoPages :
    (∀ call ∈ twoPages, call.Allowed) ∧
    Always step (fun process => ∀ s, process = some s → s.Correct 1)
        (some (Session.init 1)) twoPages ∧
      (run step (some (Session.init 1)) twoPages = some none →
        ∃ call ∈ twoPages, call.Unreadable) :=
  ⟨twoPages_allowed,
    lruCache_holds_most_recent 1 (le_refl 1) twoPages twoPages_allowed⟩

end LRUCache

end Sone

end LinuxTest
