/-
The counted `STAT` of `pthread/main.c`, which one thread holds and the other
releases, `times` times each.  The last release frees it; one that finds the
count at zero returns with the lock taken.  The count is an `int`, which fewer
than `2 ^ 31` calls do not leave.
-/
import Mathlib.Data.List.Infix
import Mathlib.Logic.Function.Basic
import LinuxTest.Runs

namespace LinuxTest

namespace HeldStat

inductive Thread where
  /-- The thread that `main` starts: `hold_stat` over and over. -/
  | proc
  /-- `main` itself: `release_stat` over and over. -/
  | main
deriving DecidableEq

/-- The `STAT` and its two threads. -/
structure Process where
  count : Nat
  lock : Option Thread
  freed : Bool
  /-- Which threads are in a call, past its `pthread_mutex_lock`. -/
  inside : Thread → Bool
  /-- The calls that are left. -/
  calls : Thread → Nat
  /-- The calls that are over, by their threads. -/
  ended : List Thread

namespace Process

def start (times : Nat) : Process where
  count := 0
  lock := none
  freed := false
  inside := fun _ => false
  calls := fun _ => times
  ended := []

/-- A call returns. -/
def leave (s : Process) (t : Thread) : Process :=
  { s with
    inside := Function.update s.inside t false
    calls := Function.update s.calls t (s.calls t - 1)
    ended := s.ended ++ [t] }

/-- `hold_stat` from the lock on. -/
def hold_stat (s : Process) : Process :=
  { s.leave .proc with count := s.count + 1, lock := none }

/-- `release_stat` from the lock on. -/
def release_stat (s : Process) : Process :=
  if s.count = 0 then s.leave .main
  else if s.count - 1 = 0 then
    { s.leave .main with count := s.count - 1, lock := none, freed := true }
  else
    { s.leave .main with count := s.count - 1, lock := none }

def body (s : Process) : Thread → Process
  | .proc => s.hold_stat
  | .main => s.release_stat

/-- A thread takes its next step: it locks or ends a call.  There is none where
it waits for the lock, has no call left, or would follow the pointer to the
freed `STAT`. -/
def step (s : Process) (t : Thread) : Option Process :=
  if s.freed then none
  else if s.inside t then some (s.body t)
  else if 0 < s.calls t ∧ s.lock = none then
    some { s with lock := some t, inside := Function.update s.inside t true }
  else none

variable {times : Nat} {s next : Process} {t : Thread} {w p : List Thread}

/-- More calls hold than release. -/
def Held (w : List Thread) : Prop :=
  w.count .main < w.count .proc

instance (w : List Thread) : Decidable (Held w) :=
  inferInstanceAs (Decidable (_ < _))

/-- Nothing has gone wrong, and the `STAT` is there. -/
structure Sound (s : Process) : Prop where
  freed : s.freed = false
  count : s.count + s.ended.count .main = s.ended.count .proc
  held : ∀ p, p <+: s.ended → p ≠ [] → Held p
  locked : ∀ t, s.lock = some t ↔ s.inside t = true

/-- The lock was left taken, by a release that came first of all. -/
structure Jammed (s : Process) : Prop where
  freed : s.freed = false
  ended : s.ended = [.main]
  lock : s.lock ≠ none
  outside : ∀ t, s.inside t = false

/-- The `STAT` is freed, by the first release that lets go of all. -/
structure Freed (s : Process) : Prop where
  freed : s.freed = true
  even : s.ended.count .main = s.ended.count .proc
  held : ∀ p, p <+: s.ended → p ≠ [] → p ≠ s.ended → Held p

/-- Each thread has made the calls that are not left. -/
structure Counted (times : Nat) (s : Process) : Prop where
  total : ∀ t, s.calls t + s.ended.count t = times
  busy : ∀ t, s.inside t = true → 0 < s.calls t

theorem sound_start (times : Nat) : (start times).Sound where
  freed := rfl
  count := rfl
  held := fun _ hp hne => absurd (List.prefix_nil.mp hp) hne
  locked := fun _ => iff_of_false (fun h => nomatch h) Bool.false_ne_true

theorem counted_start (times : Nat) : Counted times (start times) where
  total _ := rfl
  busy _ h := nomatch h

/-! ### One step -/

theorem step_cases (hstep : s.step t = some next) :
    s.freed = false ∧
      ((s.inside t = true ∧ next = s.body t) ∨
        (s.inside t = false ∧ 0 < s.calls t ∧ s.lock = none ∧
          next = { s with
            lock := some t
            inside := Function.update s.inside t true })) := by
  rw [step] at hstep
  split at hstep
  · cases hstep
  · case isFalse hfreed =>
      refine ⟨Bool.eq_false_iff.mpr hfreed, ?_⟩
      split at hstep
      · case isTrue hinside =>
          cases hstep
          exact Or.inl ⟨hinside, rfl⟩
      · case isFalse hinside =>
          split at hstep
          · case isTrue hlock =>
              cases hstep
              exact Or.inr ⟨Bool.eq_false_iff.mpr hinside, hlock.1, hlock.2,
                rfl⟩
          · cases hstep

theorem release_cases (s : Process) :
    (s.count = 0 ∧ s.release_stat = s.leave .main) ∨
      (s.count = 1 ∧ s.release_stat =
        { s.leave .main with count := 0, lock := none, freed := true }) ∨
      (2 ≤ s.count ∧ s.release_stat =
        { s.leave .main with count := s.count - 1, lock := none }) := by
  rw [release_stat]
  by_cases hzero : s.count = 0
  · exact Or.inl ⟨hzero, if_pos hzero⟩
  rw [if_neg hzero]
  by_cases hone : s.count = 1
  · refine Or.inr (Or.inl ⟨hone, ?_⟩)
    rw [hone]
    rfl
  · exact Or.inr (Or.inr ⟨by omega, if_neg (by omega)⟩)

/-- Every call comes to its end. -/
theorem body_leave (s : Process) (t : Thread) :
    (s.body t).inside = (s.leave t).inside ∧
      (s.body t).calls = (s.leave t).calls ∧
      (s.body t).ended = s.ended ++ [t] := by
  cases t with
  | proc => exact ⟨rfl, rfl, rfl⟩
  | main =>
      change s.release_stat.inside = _ ∧ s.release_stat.calls = _ ∧
        s.release_stat.ended = _
      obtain ⟨-, heq⟩ | ⟨-, heq⟩ | ⟨-, heq⟩ := release_cases s
      · rw [heq]
        exact ⟨rfl, rfl, rfl⟩
      · rw [heq]
        exact ⟨rfl, rfl, rfl⟩
      · rw [heq]
        exact ⟨rfl, rfl, rfl⟩

theorem count_concat (w : List Thread) (t u : Thread) :
    (w ++ [t]).count u = w.count u + if t = u then 1 else 0 := by
  rw [List.count_append, List.count_singleton]
  congr 1
  by_cases h : t = u <;> simp [h]

theorem Counted.step (hs : s.Counted times) (hstep : s.step t = some next) :
    next.Counted times := by
  obtain ⟨-, ⟨hinside, rfl⟩ | ⟨-, hcalls, -, rfl⟩⟩ := step_cases hstep
  · obtain ⟨hin, hcalls, hended⟩ := body_leave s t
    have hbusy := hs.busy t hinside
    constructor
    · intro u
      have htotal := hs.total u
      rw [hcalls, hended, count_concat]
      change Function.update s.calls t (s.calls t - 1) u + _ = times
      by_cases hu : u = t
      · subst hu
        rw [Function.update_self, if_pos rfl]
        omega
      · rw [Function.update_of_ne hu, if_neg (Ne.symm hu)]
        exact htotal
    · intro u hu
      rw [hin] at hu
      rw [hcalls]
      change Function.update s.inside t false u = true at hu
      change 0 < Function.update s.calls t (s.calls t - 1) u
      by_cases hut : u = t
      · rw [hut, Function.update_self] at hu
        cases hu
      · rw [Function.update_of_ne hut] at hu ⊢
        exact hs.busy u hu
  · refine ⟨hs.total, fun u hu => ?_⟩
    by_cases hut : u = t
    · exact hut ▸ hcalls
    · change Function.update s.inside t true u = true at hu
      rw [Function.update_of_ne hut] at hu
      exact hs.busy u hu

/-- What a run has come to. -/
def Known (s : Process) : Prop :=
  s.Sound ∨ s.Jammed ∨ s.Freed

theorem Sound.leave (hs : s.Sound) (hinside : s.inside t = true) (u : Thread) :
    (s.leave t).inside u = false := by
  change Function.update s.inside t false u = false
  by_cases hu : u = t
  · rw [hu, Function.update_self]
  · rw [Function.update_of_ne hu, Bool.eq_false_iff]
    intro hother
    have hsame := ((hs.locked u).mpr hother).symm.trans
      ((hs.locked t).mpr hinside)
    exact hu (Option.some.inj hsame)

/-- A call that leaves the count above zero. -/
theorem Sound.concat {count : Nat} (hs : s.Sound) (hinside : s.inside t = true)
    (hcount : count + (s.ended ++ [t]).count .main =
      (s.ended ++ [t]).count .proc) (hpos : 0 < count) :
    Sound { s.leave t with count := count, lock := none } where
  freed := hs.freed
  count := hcount
  held := by
    intro p hp hne
    rcases List.prefix_concat_iff.mp hp with rfl | hp
    · rw [Held]
      omega
    · exact hs.held p hp hne
  locked := by
    intro u
    refine iff_of_false (fun h => nomatch h) ?_
    rw [hs.leave hinside u]
    exact Bool.false_ne_true

theorem Sound.step (hs : s.Sound) (hstep : s.step t = some next) :
    next.Known := by
  have hcount := hs.count
  obtain ⟨-, ⟨hinside, rfl⟩ | ⟨-, -, hlock, rfl⟩⟩ := step_cases hstep
  · cases t with
    | proc =>
        refine Or.inl (hs.concat hinside ?_ (Nat.succ_pos _))
        rw [count_concat, count_concat, if_neg (by decide), if_pos rfl]
        omega
    | main =>
        change s.release_stat.Known
        obtain ⟨hzero, heq⟩ | ⟨hone, heq⟩ | ⟨hmore, heq⟩ := release_cases s
        · -- No call has held before, so that this one is the first.
          have hnil : s.ended = [] := by
            by_contra hne
            have hheld := hs.held s.ended (List.prefix_refl _) hne
            rw [Held] at hheld
            omega
          rw [heq]
          refine Or.inr (Or.inl ⟨hs.freed, ?_, ?_, hs.leave hinside⟩)
          · change s.ended ++ [Thread.main] = [Thread.main]
            rw [hnil]
            rfl
          · change s.lock ≠ none
            rw [(hs.locked .main).mpr hinside]
            exact Option.some_ne_none _
        · rw [heq]
          refine Or.inr (Or.inr ⟨rfl, ?_, fun p hp hne hproper => ?_⟩)
          · change (s.ended ++ [Thread.main]).count .main =
              (s.ended ++ [Thread.main]).count .proc
            rw [count_concat, count_concat, if_pos rfl, if_neg (by decide)]
            omega
          · exact hs.held p
              ((List.prefix_concat_iff.mp hp).resolve_left hproper) hne
        · rw [heq]
          refine Or.inl (hs.concat hinside ?_ (by omega))
          rw [count_concat, count_concat, if_pos rfl, if_neg (by decide)]
          omega
  · refine Or.inl ⟨hs.freed, hcount, hs.held, fun u => ?_⟩
    change some t = some u ↔ Function.update s.inside t true u = true
    by_cases hu : u = t
    · rw [hu, Function.update_self]
      exact iff_of_true rfl rfl
    · rw [Function.update_of_ne hu, ← hs.locked u, hlock]
      exact iff_of_false (fun h => hu (Option.some.inj h).symm)
        (fun h => nomatch h)

theorem Jammed.stuck (hs : s.Jammed) (t : Thread) : s.step t = none := by
  rw [step, hs.freed, if_neg Bool.false_ne_true, hs.outside t,
    if_neg Bool.false_ne_true, if_neg fun h => hs.lock h.2]

theorem Freed.stuck (hs : s.Freed) (t : Thread) : s.step t = none := by
  rw [step, hs.freed, if_pos rfl]

theorem step_lock (hfreed : s.freed = false) (hout : s.inside t = false)
    (hcalls : 0 < s.calls t) (hlock : s.lock = none) :
    s.step t = some { s with
      lock := some t
      inside := Function.update s.inside t true } := by
  rw [step, hfreed, if_neg Bool.false_ne_true, hout,
    if_neg Bool.false_ne_true, if_pos ⟨hcalls, hlock⟩]

theorem step_body (hfreed : s.freed = false) (hinside : s.inside t = true) :
    s.step t = some (s.body t) := by
  rw [step, hfreed, if_neg Bool.false_ne_true, hinside, if_pos rfl]

/-- Where all is well, a thread that has a call left can go on, or the other one
is in a call. -/
theorem Sound.exists_step (hs : s.Sound) (hcalls : 0 < s.calls t) :
    ∃ u next, s.step u = some next := by
  cases hlock : s.lock with
  | none =>
      have hout : s.inside t = false := by
        rw [Bool.eq_false_iff, ne_eq, ← hs.locked t, hlock]
        exact fun h => nomatch h
      exact ⟨t, _, step_lock hs.freed hout hcalls hlock⟩
  | some u => exact ⟨u, _, step_body hs.freed ((hs.locked u).mp hlock)⟩

/-- What a run keeps. -/
def Kept (times : Nat) (s : Process) : Prop :=
  s.Known ∧ s.Counted times

theorem kept_run {labels : List Thread}
    (hrun : run step (start times) labels = some s) : s.Kept times := by
  have hstart : (start times).Kept times :=
    ⟨Or.inl (sound_start times), counted_start times⟩
  refine run_invariant ?_ hstart hrun
  rintro s t next ⟨hs, hcounted⟩ hstep
  refine ⟨?_, hcounted.step hstep⟩
  rcases hs with hs | hs | hs
  · exact hs.step hstep
  · rw [hs.stuck] at hstep
    cases hstep
  · rw [hs.stuck] at hstep
    cases hstep

/-! ### Which orders end well -/

/-- A whole call, with no other in between. -/
theorem Sound.call (hs : s.Sound) (hcounted : s.Counted times)
    (hlock : s.lock = none) (hcalls : 0 < s.calls t) :
    ∃ next, run Process.step s [t, t] = some next ∧ next.Kept times ∧
      next.ended = s.ended ++ [t] ∧ (next.Sound → next.lock = none) := by
  have hout : ∀ u, s.inside u = false := by
    intro u
    rw [Bool.eq_false_iff, ne_eq, ← hs.locked u, hlock]
    exact fun h => nomatch h
  have hfirst := step_lock hs.freed (hout t) hcalls hlock
  let mid : Process :=
    { s with lock := some t, inside := Function.update s.inside t true }
  have hinside : mid.inside t = true := Function.update_self _ _ _
  have hsecond : mid.step t = some (mid.body t) := step_body hs.freed hinside
  have hmid : mid.Kept times := ⟨hs.step hfirst, hcounted.step hfirst⟩
  have hsound : mid.Sound := by
    rcases hmid.1 with h | h | h
    · exact h
    · rw [h.outside t] at hinside
      cases hinside
    · have hfreed : mid.freed = false := hs.freed
      rw [h.freed] at hfreed
      cases hfreed
  obtain ⟨hin, -, hended⟩ := body_leave mid t
  refine ⟨mid.body t, ?_, ⟨hsound.step hsecond, hmid.2.step hsecond⟩, hended,
    fun hnext => ?_⟩
  · rw [run_cons, hfirst, Option.bind_some, run_cons, hsecond]
    rfl
  · cases hl : (mid.body t).lock with
    | none => rfl
    | some u =>
        have hu := (hnext.locked u).mp hl
        rw [hin, hsound.leave hinside u] at hu
        cases hu

/-- `w` has every call once, and no release but the last lets go of all. -/
def EndsWell (times : Nat) (w : List Thread) : Prop :=
  (∀ t, w.count t = times) ∧ ∀ n < w.length, 0 < n → Held (w.take n)

theorem EndsWell.held (hw : EndsWell times w) (hp : p <+: w) (hne : p ≠ [])
    (hproper : p ≠ w) : Held p := by
  have hlt : p.length < w.length :=
    lt_of_le_of_ne hp.length_le fun heq => hproper (hp.eq_of_length heq)
  rw [List.prefix_iff_eq_take.mp hp]
  exact hw.2 p.length hlt (List.length_pos_iff.mpr hne)

/-- Up to every point of such an order there is a run of whole calls. -/
theorem exists_run_prefix (hw : EndsWell times w) (p : List Thread)
    (hp : p <+: w) (hproper : p ≠ w) :
    ∃ labels s, run step (start times) labels = some s ∧ s.Sound ∧
      s.Counted times ∧ s.lock = none ∧ s.ended = p := by
  induction p using List.reverseRecOn with
  | nil =>
      exact ⟨[], start times, rfl, sound_start times, counted_start times, rfl,
        rfl⟩
  | append_singleton q t ih =>
      have hq : q <+: w := (List.prefix_append q [t]).trans hp
      have hlt : q ≠ w := by
        rintro rfl
        have hlength := hp.length_le
        rw [List.length_append, List.length_singleton] at hlength
        omega
      obtain ⟨labels, s, hrun, hs, hcounted, hlock, hended⟩ := ih hq hlt
      have hcalls : 0 < s.calls t := by
        have htotal := hcounted.total t
        have hle := hp.sublist.count_le t
        rw [count_concat, if_pos rfl, hw.1 t] at hle
        rw [hended] at htotal
        omega
      obtain ⟨next, hnext, ⟨hknown, hcounted'⟩, hended', hfree⟩ :=
        hs.call hcounted hlock hcalls
      rw [hended] at hended'
      have hheld := hw.held hp (by simp) hproper
      have hsound : next.Sound := by
        rcases hknown with h | h | h
        · exact h
        · rw [← hended', h.ended, Held] at hheld
          exact absurd hheld (by decide)
        · have heven := h.even
          rw [hended'] at heven
          exact absurd heven (Nat.ne_of_lt hheld)
      refine ⟨labels ++ [t, t], next, ?_, hsound, hcounted', hfree hsound,
        hended'⟩
      rw [run_append, hrun]
      exact hnext

theorem freed_of_done (htimes : 0 < times) (hs : s.Kept times)
    (hdone : ∀ t, s.calls t = 0) : s.Freed := by
  have hended : ∀ t, s.ended.count t = times := by
    intro t
    have htotal := hs.2.total t
    rw [hdone t] at htotal
    omega
  rcases hs.1 with h | h | h
  · have hne : s.ended ≠ [] := by
      intro hnil
      have hzero := hended .main
      rw [hnil, List.count_nil] at hzero
      omega
    have hheld := h.held s.ended (List.prefix_refl _) hne
    rw [Held, hended, hended] at hheld
    omega
  · have hnone := hended .proc
    rw [h.ended] at hnone
    change 0 = times at hnone
    omega
  · exact h

/-- A run in which both threads have made all their calls has freed the `STAT`.
The orders in which they can come to that are exactly those where more calls
hold than release after every call but the last. A run that can go no further
before has freed the `STAT` too early, or began with a release, which keeps the
lock for good. -/
theorem held_stat_ends (htimes : 0 < times) :
    (∀ labels s, run step (start times) labels = some s →
      (∀ t, s.calls t = 0) → s.freed = true) ∧
    (∀ w, (∃ labels s, run step (start times) labels = some s ∧
      s.ended = w ∧ ∀ t, s.calls t = 0) ↔ EndsWell times w) ∧
    ∀ labels s, run step (start times) labels = some s →
      (∀ t, s.step t = none) → s.freed = true ∨ s.ended = [.main] := by
  refine ⟨fun labels s hrun hdone => ?_, fun w => ⟨?_, fun hw => ?_⟩,
    fun labels s hrun hstuck => ?_⟩
  · exact (freed_of_done htimes (kept_run hrun) hdone).freed
  · rintro ⟨labels, s, hrun, rfl, hdone⟩
    have hkept := kept_run hrun
    refine ⟨fun t => ?_, fun n hn hpos => ?_⟩
    · have htotal := hkept.2.total t
      rw [hdone t] at htotal
      omega
    · have hlength : (s.ended.take n).length = n := by
        rw [List.length_take]
        omega
      refine (freed_of_done htimes hkept hdone).held _ (List.take_prefix n _)
        (fun hnil => ?_) fun heq => ?_
      · rw [hnil, List.length_nil] at hlength
        omega
      · rw [heq] at hlength
        omega
  · obtain rfl | ⟨q, t, rfl⟩ := List.eq_nil_or_concat' w
    · have hzero := hw.1 .main
      rw [List.count_nil] at hzero
      omega
    obtain ⟨labels, s, hrun, hs, hcounted, hlock, hended⟩ :=
      exists_run_prefix hw q (List.prefix_append q [t]) (by simp)
    have hcalls : 0 < s.calls t := by
      have htotal := hcounted.total t
      have hall := hw.1 t
      rw [count_concat, if_pos rfl] at hall
      rw [hended] at htotal
      omega
    obtain ⟨next, hnext, hkept, hended', -⟩ := hs.call hcounted hlock hcalls
    rw [hended] at hended'
    refine ⟨labels ++ [t, t], next, ?_, hended', fun u => ?_⟩
    · rw [run_append, hrun]
      exact hnext
    · have htotal := hkept.2.total u
      rw [hended', hw.1 u] at htotal
      omega
  · have hkept := kept_run hrun
    rcases hkept.1 with h | h | h
    · have hdone : ∀ t, s.calls t = 0 := by
        intro t
        by_contra hleft
        obtain ⟨u, next, hnext⟩ := h.exists_step (Nat.pos_of_ne_zero hleft)
        rw [hstuck u] at hnext
        cases hnext
      exact Or.inl (freed_of_done htimes hkept hdone).freed
    · exact Or.inr h.ended
    · exact Or.inl h.freed

/-- Two calls each, the releases behind. -/
theorem held_stat_ends_two : ∃ labels s,
    run step (start 2) labels = some s ∧
      s.ended = [.proc, .proc, .main, .main] ∧ ∀ t, s.calls t = 0 := by
  refine ((held_stat_ends (Nat.succ_pos 1)).2.1
    [.proc, .proc, .main, .main]).mpr ⟨fun t => ?_, by decide⟩
  cases t <;> rfl

end Process

end HeldStat

end LinuxTest
