/-
The index a timer keeps of its slot, which `handleRead` relies on to put off
the expiry of a kept-alive connection.
-/
import LinuxTest.TimerHeapRuns

namespace LinuxTest

namespace Sone

universe u

variable {T : Type u}

namespace TimerHeap

/-- What `handleRead` does to the timer of its connection, once it has the lock
and the timer has not fired: `setExpire`, then `down(getIndex())`. -/
def refresh [DecidableEq T] (heap : TimerHeap T) (timer : T) (time : Int) :
    Option (TimerHeap T) :=
  if 0 ≤ heap.index timer then
    down { heap with expire := Function.update heap.expire timer time }
      (heap.index timer).toNat
  else some heap

/-- A call on the heap, or a refresh of a live timer. -/
inductive Use (T : Type u) where
  | push (timer : T)
  | pop
  | refresh (timer : T) (time : Int)

def Ledger.use [DecidableEq T] (s : Ledger T) : Use T → Option (Ledger T)
  | .push timer => s.step (.push timer)
  | .pop => s.step .pop
  | .refresh timer time => (s.heap.refresh timer time).map fun heap =>
      { s with heap := heap }

/-- Each timer is pushed once and while there is room, and only a live timer is
refreshed, to a later time. -/
def Ledger.Permits (s : Ledger T) : Use T → Prop
  | .push timer => timer ∉ s.pushed ∧ s.live.length + 1 ≤ s.heap.capacity
  | .pop => True
  | .refresh timer time => timer ∈ s.live ∧ s.heap.expire timer ≤ time

/-- Every live timer knows its slot, the expiries are in heap order, and behind
a top timer that has not expired no timer has. -/
structure Ledger.Indexed (s : Ledger T) : Prop where
  index : ∀ timer ∈ s.live, ∃ i < s.heap.nums,
    s.heap.index timer = i ∧ s.heap.slots i = some timer
  order : ∀ i, 1 ≤ i → i < s.heap.nums →
    ∃ parent timer, s.heap.slots ((i - 1) / 2) = some parent ∧
      s.heap.slots i = some timer ∧
      s.heap.expire parent ≤ s.heap.expire timer
  top : ∀ cur timer, s.heap.topTimer = some (some timer) →
    cur < s.heap.expire timer → ∀ other ∈ s.live,
      cur < s.heap.expire other

/-- The step moves no timer that stays: a push finds its parent in order and
counts in an `int`, a pop leaves nothing, a refresh finds its children in
order. -/
def Ledger.Still (s : Ledger T) : Use T → Prop
  | .push timer => s.heap.nums < 2 ^ 31 ∧
      ∀ parent, 0 < s.heap.nums →
        s.heap.slots ((s.heap.nums - 1) / 2) = some parent →
        s.heap.expire parent ≤ s.heap.expire timer
  | .pop => s.heap.nums ≤ 1
  | .refresh timer time => ∀ i child, 1 ≤ i → i < s.heap.nums →
      s.heap.slots ((i - 1) / 2) = some timer →
      s.heap.slots i = some child → time ≤ s.heap.expire child

/-- What a run keeps. -/
structure Ledger.Settled (capacity : Nat) (s : Ledger T) : Prop where
  sound : s.Sound capacity
  nodup : s.live.Nodup
  known : ∀ timer ∈ s.live, timer ∈ s.pushed
  index : ∀ timer ∈ s.live, ∃ i < s.heap.nums,
    s.heap.index timer = i ∧ s.heap.slots i = some timer

variable {capacity : Nat} {s next : Ledger T}

theorem Ledger.settled_init (capacity : Nat) (expire : T → Int) :
    (Ledger.init capacity expire).Settled capacity := by
  refine ⟨init_sound capacity expire, List.nodup_nil, ?_, ?_⟩
  · intro timer htimer
    cases htimer
  · intro timer htimer
    cases htimer

theorem Ledger.Settled.indexed (hs : s.Settled capacity) : s.Indexed := by
  have hcorrect := hs.sound.correct
  refine ⟨hs.index, hcorrect.order, ?_⟩
  intro cur timer htop hcur other hother
  rcases hcorrect.top with ⟨_, hnone⟩ | ⟨least, _, hleast, hle⟩
  · rw [htop] at hnone
    cases hnone
  · rw [htop] at hleast
    cases hleast
    exact lt_of_lt_of_le hcur (hle other hother)

theorem Ledger.Sound.mem_live (hs : s.Sound capacity) {timer : T} {i : Nat}
    (hi : i < s.heap.nums) (hslot : s.heap.slots i = some timer) :
    timer ∈ s.live := by
  have hmem := hs.holds.mem_iff.mp (mem_contents.mpr ⟨i, hi, hslot⟩)
  simpa using hmem

theorem Ledger.Sound.slots_nodup (hs : s.Sound capacity)
    (hnodup : s.live.Nodup) : (contents s.heap.slots s.heap.nums).Nodup :=
  hs.holds.nodup_iff.mpr (hnodup.map (Option.some_injective T))

/-- A timer that stands in a slot has that slot as its index. -/
theorem Ledger.Settled.index_eq (hs : s.Settled capacity) {timer : T}
    {i : Nat} (hi : i < s.heap.nums) (hslot : s.heap.slots i = some timer) :
    s.heap.index timer = i := by
  obtain ⟨j, hj, hindex, hother⟩ :=
    hs.index timer (hs.sound.mem_live hi hslot)
  rw [hindex, contents_inj (hs.sound.slots_nodup hs.nodup) hi hj
    (hslot.trans hother.symm)]

theorem Ledger.Settled.ne_of_not_pushed (hs : s.Settled capacity) {timer : T}
    (hnew : timer ∉ s.pushed) : ∀ other ∈ s.live, other ≠ timer := by
  rintro other hother rfl
  exact hnew (hs.known other hother)

section Steps

variable [DecidableEq T] {timer : T} {time : Int}

/-- The timer is stored behind the others, and knows it. -/
def Ledger.afterPush (s : Ledger T) (timer : T) : Ledger T :=
  ⟨{ s.heap with
    nums := s.heap.nums + 1
    slots := s.heap.pushed timer
    index := Function.update s.heap.index timer s.heap.nums },
    timer :: s.pushed, timer :: s.live⟩

/-- The last timer is gone. -/
def Ledger.afterPop (s : Ledger T) (top : T) : Ledger T :=
  ⟨{ s.heap with
    nums := s.heap.nums - 1
    slots := s.heap.popped
    index := Function.update s.heap.index top (-2) },
    s.pushed, s.live.erase top⟩

def Ledger.afterRefresh (s : Ledger T) (timer : T) (time : Int) : Ledger T :=
  { s with heap := { s.heap with
    expire := Function.update s.heap.expire timer time } }

/-- A push that finds its parent in order leaves every slot as it was. -/
theorem Ledger.Settled.push (hs : s.Settled capacity)
    (hpermits : s.Permits (.push timer)) (hstill : s.Still (.push timer)) :
    s.use (.push timer) = some (s.afterPush timer) ∧
      (s.afterPush timer).Settled capacity := by
  obtain ⟨hnew, hroom⟩ := hpermits
  obtain ⟨hint, hparent⟩ := hstill
  have hnums := hs.sound.nums_eq
  have hfits : s.heap.nums + 1 ≤ s.heap.capacity := by omega
  have hfresh := hs.ne_of_not_pushed hnew
  obtain ⟨slots, place, hrun, hsift⟩ :=
    pushTimer_sifts_of_lt hs.sound.filled hfits hint timer
  have horder : 0 < s.heap.nums →
      s.heap.rank (s.heap.pushed timer ((s.heap.nums - 1) / 2)) ≤
        s.heap.rank (s.heap.pushed timer s.heap.nums) := by
    intro hpos
    obtain ⟨parent, hslot, _, _⟩ :=
      hs.sound.filled.timerAt (i := (s.heap.nums - 1) / 2) (by omega)
    rw [pushed_of_lt _ _ (by omega), pushed_last, hslot]
    exact hparent parent hpos hslot
  obtain ⟨rfl, rfl⟩ := hsift.eq_of_le horder
  obtain ⟨next, hnext, hsound⟩ :=
    push_sound_of_lt hs.sound timer (hs.sound.capacity_eq ▸ hroom) hint
  rw [step, hrun] at hnext
  cases hnext
  refine ⟨by rw [use, step, hrun]; rfl, hsound,
    List.nodup_cons.mpr ⟨fun hmem => hfresh timer hmem rfl, hs.nodup⟩,
    ?_, ?_⟩
  · intro other hother
    rcases List.mem_cons.mp hother with rfl | hold
    · exact List.mem_cons_self
    · exact List.mem_cons_of_mem timer (hs.known other hold)
  · intro other hother
    rcases List.mem_cons.mp hother with rfl | hold
    · refine ⟨s.heap.nums, Nat.lt_succ_self _, ?_, pushed_last s.heap other⟩
      exact Function.update_self _ _ _
    · obtain ⟨i, hi, hindex, hslot⟩ := hs.index other hold
      refine ⟨i, Nat.lt_succ_of_lt hi, ?_, ?_⟩
      · change Function.update s.heap.index timer _ other = _
        rw [Function.update_of_ne (hfresh other hold), hindex]
      · change s.heap.pushed timer i = _
        rw [pushed_of_lt _ _ hi, hslot]

/-- A push that moves a timer leaves it, or the pushed one, with a wrong
index. -/
theorem Ledger.Settled.push_moves (hs : s.Settled capacity)
    (hpermits : s.Permits (.push timer)) (hmoves : ¬ s.Still (.push timer))
    (hnext : s.use (.push timer) = some next) : ¬ next.Indexed := by
  obtain ⟨hnew, hroom⟩ := hpermits
  have hnums := hs.sound.nums_eq
  have hfits : s.heap.nums + 1 ≤ s.heap.capacity := by omega
  have hfresh := hs.ne_of_not_pushed hnew
  obtain ⟨slots, place, hrun, hsift⟩ :=
    pushTimer_sifts hs.sound.filled hfits timer
  rw [use, step, hrun] at hnext
  cases hnext
  intro hindexed
  obtain ⟨i, hi, hindex, hslot⟩ := hindexed.index timer List.mem_cons_self
  have hplace : place = i := by
    rw [← hindex]
    exact (Function.update_self timer place s.heap.index).symm
  change slots i = some timer at hslot
  rcases hsift with ⟨hneg, hcount, _⟩ | ⟨h, p, hcount, hle, hp, hsift⟩
  · omega
  · have hpi : p = i := by omega
    have hplaced := hsift.placed.1
    rw [hpi, hslot] at hplaced
    rcases Nat.lt_or_eq_of_le hle with hless | heq
    · -- `int h` has lost the count, and the sift moved another timer.
      rw [pushed_of_lt _ _ hless] at hplaced
      exact hfresh timer (hs.sound.mem_live hless hplaced.symm) rfl
    · subst heq
      apply hmoves
      refine ⟨by have := asInt_lt s.heap.nums; omega, ?_⟩
      intro parent hpos hparent
      by_contra hgreater
      have hup : (s.heap.nums - 1) / 2 < s.heap.nums := by omega
      have hparentLive := hs.sound.mem_live hup hparent
      have hmoved : slots s.heap.nums = some parent := by
        rw [hsift.moved hpos, pushed_of_lt _ _ hup, hparent]
        rw [pushed_of_lt _ _ hup, pushed_last, hparent]
        exact not_le.mp hgreater
      obtain ⟨j, hj, hparentIndex, hparentSlot⟩ :=
        hindexed.index parent (List.mem_cons_of_mem timer hparentLive)
      change Function.update s.heap.index timer place parent = j
        at hparentIndex
      rw [Function.update_of_ne (hfresh parent hparentLive),
        hs.index_eq hup hparent] at hparentIndex
      have hnodup : (contents slots (s.heap.nums + 1)).Nodup := by
        rw [(hsift.perm (Nat.lt_succ_self _)).nodup_iff, contents_pushed,
          List.nodup_append_comm]
        refine List.nodup_cons.mpr ⟨?_, hs.sound.slots_nodup hs.nodup⟩
        intro hmem
        obtain ⟨k, hk, hslot⟩ := mem_contents.mp hmem
        exact hfresh timer (hs.sound.mem_live hk hslot) rfl
      have hsame := contents_inj hnodup hj (Nat.lt_succ_self _)
        (hparentSlot.trans hmoved.symm)
      omega

theorem Ledger.Settled.pop_last (hs : s.Settled capacity)
    (hone : s.heap.nums = 1) {top : T} (htop : s.heap.slots 0 = some top) :
    s.use .pop = some (s.afterPop top) ∧ (s.afterPop top).Settled capacity := by
  have hnums := hs.sound.nums_eq
  obtain ⟨next, hnext, hsound⟩ := pop_sound hs.sound
  rcases pop_eq hs.sound with ⟨hzero, _⟩ |
    ⟨other, slots, hzero, hother, hstep, hsift⟩
  · omega
  · rw [htop] at hother
    cases hother
    obtain rfl : slots = s.heap.popped := by
      refine hsift.eq_of_le fun i hpos hi => ?_
      omega
    rw [hstep] at hnext
    cases hnext
    have hempty : s.live.erase top = [] := by
      have hmem := hs.sound.mem_live (Nat.pos_of_ne_zero hzero) htop
      apply List.length_eq_zero_iff.mp
      rw [List.length_erase_of_mem hmem]
      omega
    refine ⟨hstep, hsound, hs.nodup.erase top, ?_, ?_⟩
    · intro timer htimer
      exact hs.known timer (List.mem_of_mem_erase htimer)
    · intro timer htimer
      change timer ∈ s.live.erase top at htimer
      rw [hempty] at htimer
      cases htimer

theorem Ledger.Settled.pop (hs : s.Settled capacity)
    (hstill : s.Still .pop) :
    ∃ next, s.use .pop = some next ∧ next.Settled capacity := by
  rcases pop_eq hs.sound with ⟨_, hstep⟩ | ⟨top, _, hzero, htop, _⟩
  · exact ⟨s, hstep, hs⟩
  · have hmost : s.heap.nums ≤ 1 := hstill
    exact ⟨_, hs.pop_last (by omega) htop⟩

/-- The last timer comes to stand elsewhere and does not know. -/
theorem Ledger.Settled.pop_moves (hs : s.Settled capacity)
    (hmoves : ¬ s.Still .pop) (hnext : s.use .pop = some next) :
    ¬ next.Indexed := by
  have htwo : 1 < s.heap.nums := not_le.mp hmoves
  rcases pop_eq hs.sound with ⟨hzero, _⟩ | ⟨top, slots, _, htop, hstep, _⟩
  · omega
  · rw [use, hstep] at hnext
    cases hnext
    obtain ⟨last, hlast, _, _⟩ :=
      hs.sound.filled.timerAt (i := s.heap.nums - 1) (by omega)
    have hne : last ≠ top := by
      rintro rfl
      have := contents_inj (hs.sound.slots_nodup hs.nodup)
        (i := s.heap.nums - 1) (j := 0) (by omega) (by omega)
        (hlast.trans htop.symm)
      omega
    have hlive := hs.sound.mem_live (i := s.heap.nums - 1) (by omega) hlast
    intro hindexed
    obtain ⟨j, hj, hindex, _⟩ :=
      hindexed.index last ((List.mem_erase_of_ne hne).mpr hlive)
    change Function.update s.heap.index top (-2) last = j at hindex
    rw [Function.update_of_ne hne, hs.index_eq (by omega) hlast] at hindex
    change j < s.heap.nums - 1 at hj
    omega

/-- `refresh` lets what stands at the index of the timer sink. -/
theorem refresh_sifts {heap : TimerHeap T} (hfilled : heap.Filled)
    (time : Int) {i : Nat} (hindex : heap.index timer = i) :
    ∃ slots, heap.refresh timer time = some { heap with
        expire := Function.update heap.expire timer time
        slots := slots } ∧
      SiftsDown (rank { heap with
          expire := Function.update heap.expire timer time })
        heap.nums heap.slots i slots := by
  obtain ⟨slots, hrun, hsift⟩ := @down_sifts T { heap with
    expire := Function.update heap.expire timer time }
    ⟨hfilled.nums_le, hfilled.isSome⟩ i
  refine ⟨slots, ?_, hsift⟩
  rw [refresh, hindex, if_pos (by omega), Int.toNat_natCast]
  exact hrun

theorem Filled.refresh {heap : TimerHeap T} (hfilled : heap.Filled)
    (timer : T) (time : Int) :
    ∃ next, heap.refresh timer time = some next ∧ next.Filled := by
  by_cases hindex : 0 ≤ heap.index timer
  · obtain ⟨i, hi⟩ := Int.eq_ofNat_of_zero_le hindex
    obtain ⟨slots, hrun, hsift⟩ := refresh_sifts hfilled time hi
    refine ⟨_, hrun, hfilled.of_mem hfilled.nums_le ?_⟩
    intro slot hslot
    exact hsift.perm.mem_iff.mp hslot
  · exact ⟨heap, by rw [TimerHeap.refresh, if_neg hindex], hfilled⟩

theorem Ledger.Settled.refresh_sifts (hs : s.Settled capacity)
    (time : Int) (hlive : timer ∈ s.live) :
    ∃ i slots, i < s.heap.nums ∧ s.heap.slots i = some timer ∧
      s.use (.refresh timer time) = some { s with heap := { s.heap with
        expire := Function.update s.heap.expire timer time
        slots := slots } } ∧
      SiftsDown (rank { s.heap with
          expire := Function.update s.heap.expire timer time })
        s.heap.nums s.heap.slots i slots := by
  obtain ⟨i, hi, hindex, hslot⟩ := hs.index timer hlive
  obtain ⟨slots, hrun, hsift⟩ :=
    TimerHeap.refresh_sifts hs.sound.filled time hindex
  refine ⟨i, slots, hi, hslot, ?_, hsift⟩
  rw [use, hrun]
  rfl

/-- The new expiry counts in the slot of the timer only. -/
theorem Ledger.Settled.rank_refreshed (hs : s.Settled capacity) (time : Int)
    {i j : Nat} (hi : i < s.heap.nums) (hj : j < s.heap.nums)
    (hslot : s.heap.slots i = some timer) :
    rank { s.heap with
        expire := Function.update s.heap.expire timer time }
      (s.heap.slots j) = if j = i then time else s.heap.key j := by
  obtain ⟨other, hother, _, hkey⟩ := hs.sound.filled.timerAt hj
  rw [hother, hkey]
  change Function.update s.heap.expire timer time other = _
  by_cases hji : j = i
  · subst hji
    rw [hslot] at hother
    cases hother
    rw [Function.update_self, if_pos rfl]
  · rw [if_neg hji, Function.update_of_ne]
    rintro rfl
    exact hji (contents_inj (hs.sound.slots_nodup hs.nodup) hj hi
      (hother.trans hslot.symm))

theorem Ledger.Settled.refresh (hs : s.Settled capacity)
    (hpermits : s.Permits (.refresh timer time))
    (hstill : s.Still (.refresh timer time)) :
    s.use (.refresh timer time) = some (s.afterRefresh timer time) ∧
      (s.afterRefresh timer time).Settled capacity := by
  obtain ⟨hlive, hlater⟩ := hpermits
  obtain ⟨i, slots, hi, hslot, huse, hsift⟩ :=
    hs.refresh_sifts time hlive
  have hkeyTimer : s.heap.key i = s.heap.expire timer := by
    simp [key, hslot]
  have hchildren : ∀ j, 1 ≤ j → j < s.heap.nums → (j - 1) / 2 = i →
      time ≤ s.heap.key j := by
    intro j hpos hj hparent
    obtain ⟨child, hchild, _, hkey⟩ := hs.sound.filled.timerAt hj
    rw [hkey]
    exact hstill j child hpos hj (hparent ▸ hslot) hchild
  have hstay : slots = s.heap.slots := by
    apply hsift.eq_of_le
    intro j hpos hj hparent
    rw [hs.rank_refreshed time hi hi hslot, hs.rank_refreshed time hi hj hslot,
      if_pos rfl, if_neg (by omega)]
    exact hchildren j hpos hj hparent
  subst hstay
  refine ⟨huse, ⟨hs.sound.capacity_eq, ?_, ?_, hs.sound.holds⟩, hs.nodup,
    hs.known, hs.index⟩
  · exact ⟨hs.sound.filled.nums_le, hs.sound.filled.isSome⟩
  · intro j hpos hj
    change rank _ (s.heap.slots ((j - 1) / 2)) ≤ rank _ (s.heap.slots j)
    have hup : (j - 1) / 2 < s.heap.nums := lt_of_le_of_lt (by omega) hj
    have horder := hs.sound.order j hpos hj
    have hbefore := hs.rank_refreshed time hi hup hslot
    have hafter := hs.rank_refreshed time hi hj hslot
    by_cases hparent : (j - 1) / 2 = i
    · have hne : j ≠ i := by omega
      rw [if_pos hparent] at hbefore
      rw [if_neg hne] at hafter
      exact hbefore.trans_le ((hchildren j hpos hj hparent).trans_eq
        hafter.symm)
    · rw [if_neg hparent] at hbefore
      by_cases hji : j = i
      · rw [if_pos hji] at hafter
        rw [hji, hkeyTimer, ← hji] at horder
        exact hbefore.trans_le ((horder.trans hlater).trans_eq hafter.symm)
      · rw [if_neg hji] at hafter
        exact hbefore.trans_le (horder.trans_eq hafter.symm)

/-- A child comes to stand in the slot of the refreshed timer and does not
know. -/
theorem Ledger.Settled.refresh_moves (hs : s.Settled capacity)
    (hpermits : s.Permits (.refresh timer time))
    (hmoves : ¬ s.Still (.refresh timer time))
    (hnext : s.use (.refresh timer time) = some next) : ¬ next.Indexed := by
  obtain ⟨i, slots, hi, hslot, huse, hsift⟩ :=
    hs.refresh_sifts time hpermits.1
  rw [huse] at hnext
  cases hnext
  have hnodup := hs.sound.slots_nodup hs.nodup
  obtain ⟨j, child, hpos, hj, hparent, hchild, hless⟩ :
      ∃ j child, 1 ≤ j ∧ j < s.heap.nums ∧
        s.heap.slots ((j - 1) / 2) = some timer ∧
        s.heap.slots j = some child ∧ s.heap.expire child < time := by
    simpa [Still] using hmoves
  have hup : (j - 1) / 2 = i :=
    contents_inj hnodup (by omega) hi (hparent.trans hslot.symm)
  have hrank : rank { s.heap with
        expire := Function.update s.heap.expire timer time }
      (s.heap.slots j) < rank { s.heap with
        expire := Function.update s.heap.expire timer time }
      (s.heap.slots i) := by
    rw [hs.rank_refreshed time hi hi hslot, hs.rank_refreshed time hi hj hslot,
      if_pos rfl, if_neg (by omega), key, hchild]
    exact hless
  obtain ⟨below, hbelowPos, hbelow, hbelowParent, hmoved⟩ :=
    hsift.moved hpos hj hup hrank
  obtain ⟨other, hother, _, _⟩ := hs.sound.filled.timerAt hbelow
  intro hindexed
  obtain ⟨k, hk, hindex, hstands⟩ :=
    hindexed.index other (hs.sound.mem_live hbelow hother)
  change s.heap.index other = k at hindex
  rw [hs.index_eq hbelow hother] at hindex
  have hnext : (contents slots s.heap.nums).Nodup :=
    hsift.perm.nodup_iff.mpr hnodup
  have hsame := contents_inj hnext hk hi
    (hstands.trans (hother.symm.trans hmoved.symm))
  omega

theorem Ledger.Settled.use_of_still (hs : s.Settled capacity) {u : Use T}
    (hpermits : s.Permits u) (hstill : s.Still u) :
    ∃ next, s.use u = some next ∧ next.Settled capacity := by
  cases u with
  | push timer => exact ⟨_, hs.push hpermits hstill⟩
  | pop => exact hs.pop hstill
  | refresh timer time => exact ⟨_, hs.refresh hpermits hstill⟩

theorem Ledger.Settled.not_indexed (hs : s.Settled capacity) {u : Use T}
    (hpermits : s.Permits u) (hmoves : ¬ s.Still u)
    (hnext : s.use u = some next) : ¬ next.Indexed := by
  cases u with
  | push timer => exact hs.push_moves hpermits hmoves hnext
  | pop => exact hs.pop_moves hmoves hnext
  | refresh timer time => exact hs.refresh_moves hpermits hmoves hnext

theorem Ledger.Settled.always_iff (hs : s.Settled capacity)
    {uses : List (Use T)} (hpermits : Along Ledger.use Ledger.Permits s uses) :
    Always Ledger.use Ledger.Indexed s uses ↔
      Along Ledger.use Ledger.Still s uses := by
  induction uses generalizing s with
  | nil => exact ⟨fun _ => trivial, fun _ => hs.indexed⟩
  | cons u rest ih =>
      constructor
      · rintro ⟨_, next, hnext, hrest⟩
        by_cases hstill : s.Still u
        · refine ⟨hstill, ?_⟩
          intro other hother
          obtain ⟨next', hnext', hsettled⟩ :=
            hs.use_of_still hpermits.1 hstill
          rw [hnext] at hnext' hother
          cases hnext'
          cases hother
          exact (ih hsettled (hpermits.2 next hnext)).mp hrest
        · exact absurd hrest.head (hs.not_indexed hpermits.1 hstill hnext)
      · rintro ⟨hstill, hrest⟩
        obtain ⟨next, hnext, hsettled⟩ := hs.use_of_still hpermits.1 hstill
        exact ⟨hs.indexed, next, hnext,
          (ih hsettled (hpermits.2 next hnext)).mpr (hrest next hnext)⟩

/-- Every live timer knows its slot in all states of a run exactly when no step
of the run moves a timer that stays. -/
theorem timer_index_kept_iff (capacity : Nat) (expire : T → Int)
    (uses : List (Use T))
    (hpermits : Along Ledger.use Ledger.Permits
      (Ledger.init capacity expire) uses) :
    Always Ledger.use Ledger.Indexed (Ledger.init capacity expire) uses ↔
      Along Ledger.use Ledger.Still (Ledger.init capacity expire) uses :=
  (Ledger.settled_init capacity expire).always_iff hpermits

end Steps

/-- A connection that is put off once and dropped, then two more, the first of
which is put off as well. -/
theorem timer_index_kept_one :
    Always Ledger.use Ledger.Indexed (Ledger.init 2 ownNumber)
      [.push 1, .refresh 1 2, .pop, .push 3, .push 4, .refresh 3 4] := by
  let s₀ : Ledger Nat := Ledger.init 2 ownNumber
  let s₁ := s₀.afterPush 1
  let s₂ := s₁.afterRefresh 1 2
  let s₃ := s₂.afterPop 1
  let s₄ := s₃.afterPush 3
  let s₅ := s₄.afterPush 4
  have hs₀ : s₀.Settled 2 := Ledger.settled_init 2 ownNumber
  have hpermits₁ : s₀.Permits (.push 1) := ⟨by decide, by decide⟩
  have hstill₁ : s₀.Still (.push 1) :=
    ⟨by decide, fun _ hpos => absurd hpos (by decide)⟩
  obtain ⟨hnext₁, hs₁⟩ := hs₀.push hpermits₁ hstill₁
  have hpermits₂ : s₁.Permits (.refresh 1 2) := ⟨by decide, by decide⟩
  have hstill₂ : s₁.Still (.refresh 1 2) := fun i _ hpos hi =>
    absurd (lt_of_lt_of_le hi hpos) (Nat.lt_irrefl i)
  obtain ⟨hnext₂, hs₂⟩ := hs₁.refresh hpermits₂ hstill₂
  have hstill₃ : s₂.Still .pop := le_refl 1
  have htop₃ : s₂.heap.slots 0 = some 1 := rfl
  obtain ⟨hnext₃, hs₃⟩ := hs₂.pop_last rfl htop₃
  have hpermits₄ : s₃.Permits (.push 3) := ⟨by decide, by decide⟩
  have hstill₄ : s₃.Still (.push 3) :=
    ⟨by decide, fun _ hpos => absurd hpos (by decide)⟩
  obtain ⟨hnext₄, hs₄⟩ := hs₃.push hpermits₄ hstill₄
  have hpermits₅ : s₄.Permits (.push 4) := ⟨by decide, by decide⟩
  have hstill₅ : s₄.Still (.push 4) := by
    refine ⟨by decide, fun parent _ hparent => ?_⟩
    have hfirst : (s₄.heap.nums - 1) / 2 = 0 := by decide
    have htop : s₄.heap.slots 0 = some 3 := rfl
    rw [hfirst] at hparent
    obtain rfl : 3 = parent := Option.some.inj (htop.symm.trans hparent)
    decide
  obtain ⟨hnext₅, hs₅⟩ := hs₄.push hpermits₅ hstill₅
  have hpermits₆ : s₅.Permits (.refresh 3 4) := ⟨by decide, by decide⟩
  have hstill₆ : s₅.Still (.refresh 3 4) := by
    intro i child hpos hi _ hchild
    obtain rfl : i = 1 := by
      change i < 2 at hi
      omega
    have hlast : s₅.heap.slots 1 = some 4 := rfl
    obtain rfl : 4 = child := Option.some.inj (hlast.symm.trans hchild)
    decide
  refine (timer_index_kept_iff 2 ownNumber _ ?_).mpr ?_
  · exact .cons hpermits₁ hnext₁ (.cons hpermits₂ hnext₂
      (.cons trivial hnext₃ (.cons hpermits₄ hnext₄
        (.cons hpermits₅ hnext₅ ⟨hpermits₆, fun _ _ => trivial⟩))))
  · exact .cons hstill₁ hnext₁ (.cons hstill₂ hnext₂
      (.cons hstill₃ hnext₃ (.cons hstill₄ hnext₄
        (.cons hstill₅ hnext₅ ⟨hstill₆, fun _ _ => trivial⟩))))

/-- Two timers, the second to expire first. -/
def earlier (timer : Bool) : Int :=
  if timer then 1 else 2

theorem use_push_first :
    (Ledger.init 2 earlier).use (.push false) = some
      ⟨⟨Function.update (fun _ => none) 0 (some false), 2, 1, earlier,
        Function.update (fun _ => -1) false 0⟩, [false], [false]⟩ := by
  have hcount : asInt 0 = 0 := by decide
  simp [Ledger.use, Ledger.step, Ledger.init, init, pushTimer, siftUp, hcount]

/-- The second push exchanges the two, and the first still takes itself to be on
top. -/
theorem timer_index_lost :
    Along Ledger.use Ledger.Permits (Ledger.init 2 earlier)
        [.push false, .push true] ∧
      ¬ Always Ledger.use Ledger.Indexed (Ledger.init 2 earlier)
        [.push false, .push true] := by
  have hpermits : Along Ledger.use Ledger.Permits (Ledger.init 2 earlier)
      [.push false, .push true] := by
    apply Along.cons ⟨by simp [Ledger.init], by decide⟩ use_push_first
    exact ⟨⟨by simp, by decide⟩, fun _ _ => trivial⟩
  refine ⟨hpermits, ?_⟩
  rw [(Ledger.settled_init 2 earlier).always_iff hpermits]
  intro hstill
  have hparent := (hstill.2 _ use_push_first).1.2 false (by decide) rfl
  exact absurd hparent (by decide)

end TimerHeap

end Sone

end LinuxTest
