/-
`readn` and `writen` of `common.c`, which call `read` or `write` until `n`
bytes have gone through.  The results of the calls are the kernel's choice.

`readn` asks for all `n` bytes again after a short read, and `writen` starts
from a total that nothing has set.
-/
import LinuxTest.MachineInt
import LinuxTest.Memory

namespace LinuxTest

namespace Common

/-! ### The program -/

/-- What the kernel makes of one call: it is interrupted (`EINTR`), it fails
otherwise, or it moves as many bytes as are there, at most those asked for and
those an `ssize_t` can count. -/
inductive Kernel where
  | eintr
  | fail
  | count (c : Nat)

def moved (c asked : Nat) : Nat :=
  min c (min asked (2 ^ 63 - 1))

/-- Conversion of a `size_t` to a 64-bit `ssize_t`. -/
def asSsize (value : Nat) : Int :=
  if value < 2 ^ 63 then value else (value : Int) - 2 ^ 64

/-- One call: where in `buf` it starts, the bytes it asks for, and those that
it moves. -/
structure Call where
  offset : Nat
  asked : Nat
  moved : Nat

/-- The calls made, and the value returned; `none` while a call lasts. -/
structure Trace where
  calls : List Call
  returned : Option Int

def Trace.after (trace : Trace) (call : Call) : Trace :=
  { trace with calls := call :: trace.calls }

/-- `while(tot < n)`, with `buf` moved on by `pos`: the loop of both functions,
which differ in how much they ask for and in what they return at 0. -/
def transferLoop (asked : Nat → Nat) (onZero : Nat → Int) (n : Nat) :
    List Kernel → Nat → Nat → Trace
  | [], tot, pos =>
      if tot < n then ⟨[⟨pos, asked tot, 0⟩], none⟩
      else ⟨[], some (asSsize tot)⟩
  | result :: rest, tot, pos =>
      if tot < n then
        match result with
        | .eintr =>
            (transferLoop asked onZero n rest tot pos).after
              ⟨pos, asked tot, 0⟩
        | .fail => ⟨[⟨pos, asked tot, 0⟩], some (-1)⟩
        | .count c =>
            if moved c (asked tot) = 0 then
              ⟨[⟨pos, asked tot, 0⟩], some (onZero tot)⟩
            else
              (transferLoop asked onZero n rest
                ((tot + moved c (asked tot)) % 2 ^ 64)
                (pos + moved c (asked tot))).after
                  ⟨pos, asked tot, moved c (asked tot)⟩
      else ⟨[], some (asSsize tot)⟩

/-- `readn`, which calls `read(fd, buf, n)`. -/
def readn (n : Nat) (results : List Kernel) : Trace :=
  transferLoop (fun _ => n) (fun _ => 0) n results 0 0

/-- The loop of `writen`, which calls `write(fd, buf, n - totWritten)`. -/
def writeLoop (n : Nat) : List Kernel → Nat → Nat → Trace :=
  transferLoop (fun tot => n - tot) asSsize n

/-- `writen`, whose `totWritten` starts with whatever it finds. -/
def writen (totWritten n : Nat) (results : List Kernel) : Trace :=
  writeLoop n results totWritten 0

/-- The memory at `buf` after the calls of `readn`, from byte `first` of
the stream on. -/
def store (stream : Int → UInt8) : Nat → List Call → (Int → UInt8) →
    Int → UInt8
  | _, [], mem => mem
  | first, call :: rest, mem =>
      store stream (first + call.moved) rest
        (overwrite mem call.offset (cells stream first call.moved))

/-- The bytes of `buf` that the calls of `writen` have got accepted. -/
def accepted (buf : Int → UInt8) (calls : List Call) : List UInt8 :=
  calls.flatMap fun call => cells buf call.offset call.moved

/-! ### What the functions are for -/

/-- No call of `readn` goes beyond the buffer, and when `n` is returned the
next `n` bytes of the stream are there, and nothing else has changed. -/
def ReadsFull (n : Nat) (results : List Kernel) (stream mem : Int → UInt8) :
    Prop :=
  (∀ call ∈ (readn n results).calls, call.offset + call.asked ≤ n) ∧
  ((readn n results).returned = some (n : Int) →
    store stream 0 (readn n results).calls mem =
      overwrite mem 0 (cells stream 0 n))

/-- When `writen` returns `n`, the `n` bytes have been accepted. -/
def WritesFull (totWritten n : Nat) (results : List Kernel)
    (buf : Int → UInt8) : Prop :=
  (writen totWritten n results).returned = some (n : Int) →
    accepted buf (writen totWritten n results).calls = cells buf 0 n

/-- Apart from interruptions, the first result is a short count. -/
def ShortFirst (n : Nat) : List Kernel → Prop
  | [] => False
  | .eintr :: rest => ShortFirst n rest
  | .fail :: _ => False
  | .count c :: _ => 0 < moved c n ∧ moved c n < n

/-- The kernel moves `m` bytes in all before it fails or reports none. -/
def Moves : List Kernel → Nat → Prop
  | [], m => m = 0
  | .eintr :: rest, m => Moves rest m
  | .fail :: _, m => m = 0
  | .count c :: rest, m =>
      m = 0 ∨ (0 < moved c m ∧ Moves rest (m - moved c m))

theorem moves_zero (results : List Kernel) : Moves results 0 := by
  induction results with
  | nil => rfl
  | cons result rest ih =>
      cases result with
      | eintr => exact ih
      | fail => rfl
      | count c => exact Or.inl rfl

/-! ### One call at a time -/

theorem moved_le (c asked : Nat) : moved c asked ≤ asked :=
  (Nat.min_le_right _ _).trans (Nat.min_le_left _ _)

theorem moved_lt (c asked : Nat) : moved c asked < 2 ^ 63 := by
  have hle : moved c asked ≤ 2 ^ 63 - 1 :=
    (Nat.min_le_right _ _).trans (Nat.min_le_right _ _)
  omega

/-- Only `n` itself is returned as `n`, and only where it fits. -/
theorem asSsize_eq_iff {value n : Nat} (hvalue : value < 2 ^ 64) :
    asSsize value = n ↔ value = n ∧ n < 2 ^ 63 := by
  rw [asSsize]
  split <;> omega

section Loop

variable {asked : Nat → Nat} {onZero : Nat → Int} {n tot pos : Nat}
  {results rest : List Kernel}

theorem transferLoop_done (hdone : n ≤ tot) :
    transferLoop asked onZero n results tot pos =
      ⟨[], some (asSsize tot)⟩ := by
  cases results with
  | nil => rw [transferLoop, if_neg (by omega)]
  | cons result rest =>
      cases result <;> rw [transferLoop, if_neg (by omega)]

theorem transferLoop_eintr (hmore : tot < n) :
    transferLoop asked onZero n (.eintr :: rest) tot pos =
      (transferLoop asked onZero n rest tot pos).after
        ⟨pos, asked tot, 0⟩ := by
  rw [transferLoop, if_pos hmore]

theorem transferLoop_zero {c : Nat} (hmore : tot < n)
    (hzero : moved c (asked tot) = 0) :
    transferLoop asked onZero n (.count c :: rest) tot pos =
      ⟨[⟨pos, asked tot, 0⟩], some (onZero tot)⟩ := by
  rw [transferLoop, if_pos hmore]
  exact if_pos hzero

theorem transferLoop_count {c : Nat} (hmore : tot < n)
    (hsome : moved c (asked tot) ≠ 0) :
    transferLoop asked onZero n (.count c :: rest) tot pos =
      (transferLoop asked onZero n rest
        ((tot + moved c (asked tot)) % 2 ^ 64)
        (pos + moved c (asked tot))).after
          ⟨pos, asked tot, moved c (asked tot)⟩ := by
  rw [transferLoop, if_pos hmore]
  exact if_neg hsome

/-- While bytes are wanted, the next call is made whatever comes of it. -/
theorem exists_call (hmore : tot < n) :
    ∃ call ∈ (transferLoop asked onZero n results tot pos).calls,
      call.offset = pos ∧ call.asked = asked tot := by
  have hcase : ∃ k tail, (transferLoop asked onZero n results tot pos).calls =
      ⟨pos, asked tot, k⟩ :: tail := by
    cases results with
    | nil => exact ⟨0, [], by rw [transferLoop, if_pos hmore]⟩
    | cons result rest =>
        cases result with
        | eintr => exact ⟨0, _, by rw [transferLoop_eintr hmore]; rfl⟩
        | fail => exact ⟨0, [], by rw [transferLoop, if_pos hmore]⟩
        | count c =>
            by_cases hzero : moved c (asked tot) = 0
            · exact ⟨0, [], by rw [transferLoop_zero hmore hzero]⟩
            · exact ⟨_, _, by rw [transferLoop_count hmore hzero]; rfl⟩
  obtain ⟨k, tail, hcalls⟩ := hcase
  exact ⟨_, by rw [hcalls]; exact List.mem_cons_self, rfl, rfl⟩

end Loop

/-! ### `readn` -/

section Readn

variable {n : Nat} {results : List Kernel} {stream mem : Int → UInt8}

/-- The only call so far, and not one that is known to have moved all. -/
theorem readsFull_of_not_returned {returned : Option Int}
    (htrace : readn n results = ⟨[⟨0, n, 0⟩], returned⟩)
    (hreturned : returned ≠ some (n : Int)) :
    ReadsFull n results stream mem := by
  rw [ReadsFull, htrace]
  refine ⟨?_, fun hsome => absurd hsome hreturned⟩
  intro call hcall
  rw [List.mem_singleton.mp hcall]
  change 0 + n ≤ n
  omega

theorem readsFull_eintr (hmore : 0 < n) :
    ReadsFull n (.eintr :: results) stream mem ↔
      ReadsFull n results stream mem := by
  have htrace : readn n (.eintr :: results) =
      (readn n results).after ⟨0, n, 0⟩ := transferLoop_eintr hmore
  have hstore : store stream 0 (⟨0, n, 0⟩ :: (readn n results).calls) mem =
      store stream 0 (readn n results).calls mem := by
    rw [store, cells_nil, overwrite_nil]
    rfl
  rw [ReadsFull, htrace, Trace.after, hstore, List.forall_mem_cons]
  change (0 + n ≤ n ∧ _) ∧ _ ↔ _
  rw [ReadsFull, Nat.zero_add, and_iff_right (le_refl n)]

/-- A read of all `n` bytes is the last one. -/
theorem readsFull_whole {c : Nat} (hmore : 0 < n) (hall : moved c n = n) :
    ReadsFull n (.count c :: results) stream mem := by
  have hlt := moved_lt c n
  have htrace : readn n (.count c :: results) =
      ⟨[⟨0, n, n⟩], some (asSsize n)⟩ := by
    have hcount := @transferLoop_count (fun _ => n) (fun _ => 0) n 0 0 results
      c hmore (by omega)
    have hmod : (0 + n) % 2 ^ 64 = n := by omega
    rw [hall, hmod, transferLoop_done (le_refl n)] at hcount
    exact hcount
  rw [ReadsFull, htrace]
  refine ⟨?_, fun _ => rfl⟩
  intro call hcall
  rw [List.mem_singleton.mp hcall]
  change 0 + n ≤ n
  omega

/-- After a short read the next call asks for too much. -/
theorem not_readsFull_of_short {c : Nat} (hsome : 0 < moved c n)
    (hshort : moved c n < n) :
    ¬ ReadsFull n (.count c :: results) stream mem := by
  rintro ⟨hcalls, _⟩
  have hlt := moved_lt c n
  have htrace : readn n (.count c :: results) = _ :=
    transferLoop_count (by omega) (by omega)
  have hmod : (0 + moved c n) % 2 ^ 64 = moved c n := by omega
  rw [hmod] at htrace
  obtain ⟨call, hcall, hoffset, hasked⟩ :=
    @exists_call (fun _ => n) (fun _ => 0) n (moved c n) (0 + moved c n)
      results hshort
  have hbound := hcalls call (by
    rw [htrace]
    exact List.mem_cons_of_mem _ hcall)
  rw [hoffset, hasked] at hbound
  omega

theorem readsFull_iff (n : Nat) (results : List Kernel)
    (stream mem : Int → UInt8) :
    ReadsFull n results stream mem ↔ ¬ ShortFirst n results := by
  by_cases hmore : 0 < n
  · induction results with
    | nil =>
        have htrace : readn n [] = ⟨[⟨0, n, 0⟩], none⟩ := if_pos hmore
        refine iff_of_true (readsFull_of_not_returned htrace ?_) id
        intro hsome
        cases hsome
    | cons result rest ih =>
        cases result with
        | eintr =>
            rw [readsFull_eintr hmore, ih]
            rfl
        | fail =>
            have htrace : readn n (.fail :: rest) =
                ⟨[⟨0, n, 0⟩], some (-1)⟩ := if_pos hmore
            refine iff_of_true (readsFull_of_not_returned htrace ?_) id
            intro hsome
            have hneg := Option.some.inj hsome
            omega
        | count c =>
            have hle := moved_le c n
            by_cases hzero : moved c n = 0
            · refine iff_of_true (readsFull_of_not_returned
                (transferLoop_zero hmore hzero) ?_) ?_
              · intro hsome
                have hneg := Option.some.inj hsome
                omega
              · rintro ⟨hpos, _⟩
                omega
            · by_cases hall : moved c n = n
              · refine iff_of_true (readsFull_whole hmore hall) ?_
                rintro ⟨_, hshort⟩
                omega
              · refine iff_of_false (not_readsFull_of_short ?_ ?_) ?_
                · omega
                · omega
                · exact fun hnot => hnot ⟨by omega, by omega⟩
  · have htrace : readn n results = ⟨[], some (asSsize 0)⟩ :=
      transferLoop_done (by omega)
    have hn : n = 0 := by omega
    refine iff_of_true ?_ ?_
    · rw [ReadsFull, htrace, hn]
      exact ⟨fun _ hcall => absurd hcall List.not_mem_nil,
        fun _ => (overwrite_nil mem 0).symm⟩
    · induction results with
      | nil => exact id
      | cons result rest ih =>
          cases result with
          | eintr => exact ih (transferLoop_done (by omega))
          | fail => exact id
          | count c =>
              rintro ⟨_, hshort⟩
              omega

end Readn

/-! ### `writen` -/

section Writen

variable {n tot pos : Nat} {results : List Kernel} {buf : Int → UInt8}

/-- The loop returns `n` when the kernel moves the bytes that are missing, and
these bytes are then the next ones of `buf`. -/
def WritesRest (n : Nat) (results : List Kernel) (buf : Int → UInt8)
    (tot pos : Nat) : Prop :=
  ((writeLoop n results tot pos).returned = some (n : Int) ↔
    Moves results (n - tot)) ∧
  (Moves results (n - tot) →
    accepted buf (writeLoop n results tot pos).calls = cells buf pos (n - tot))

theorem accepted_cons (call : Call) (calls : List Call) :
    accepted buf (call :: calls) =
      cells buf call.offset call.moved ++ accepted buf calls := rfl

/-- The loop stops with something missing. -/
theorem writesRest_of_not_moves {value : Option Int}
    (hreturned : (writeLoop n results tot pos).returned = value)
    (hvalue : value ≠ some (n : Int)) (hmoves : ¬ Moves results (n - tot)) :
    WritesRest n results buf tot pos := by
  refine ⟨iff_of_false ?_ hmoves, fun h => absurd h hmoves⟩
  rw [hreturned]
  exact hvalue

theorem writesRest_done (hn : n < 2 ^ 63) : WritesRest n results buf n pos := by
  have htrace : writeLoop n results n pos = ⟨[], some (asSsize n)⟩ :=
    transferLoop_done (le_refl n)
  have hreturned : asSsize n = n :=
    (asSsize_eq_iff (by omega)).mpr ⟨rfl, hn⟩
  rw [WritesRest, htrace, hreturned, Nat.sub_self]
  exact ⟨iff_of_true rfl (moves_zero results), fun _ => rfl⟩

theorem writesRest_eintr (hmore : tot < n)
    (hrest : WritesRest n results buf tot pos) :
    WritesRest n (.eintr :: results) buf tot pos := by
  have htrace : writeLoop n (.eintr :: results) tot pos =
      (writeLoop n results tot pos).after ⟨pos, n - tot, 0⟩ :=
    transferLoop_eintr hmore
  rw [WritesRest, htrace, Trace.after, accepted_cons, cells_nil,
    List.nil_append]
  exact hrest

theorem writesRest_count {c : Nat} (hn : n < 2 ^ 63) (hmore : tot < n)
    (hsome : moved c (n - tot) ≠ 0)
    (hrest : WritesRest n results buf (tot + moved c (n - tot))
      (pos + moved c (n - tot))) :
    WritesRest n (.count c :: results) buf tot pos := by
  have hle := moved_le c (n - tot)
  have htrace : writeLoop n (.count c :: results) tot pos = _ :=
    transferLoop_count hmore hsome
  have hmod : (tot + moved c (n - tot)) % 2 ^ 64 =
      tot + moved c (n - tot) := by
    omega
  have hmoves : Moves (.count c :: results) (n - tot) ↔
      Moves results (n - (tot + moved c (n - tot))) := by
    rw [Moves, Nat.sub_add_eq]
    constructor
    · rintro (hzero | ⟨_, hmoves⟩)
      · omega
      · exact hmoves
    · exact fun hmoves => Or.inr ⟨by omega, hmoves⟩
  have hsplit : moved c (n - tot) + (n - (tot + moved c (n - tot))) =
      n - tot := by
    omega
  have hcells := cells_add buf pos (moved c (n - tot))
    (n - (tot + moved c (n - tot)))
  rw [hsplit, ← Int.natCast_add] at hcells
  rw [hmod] at htrace
  rw [WritesRest, hmoves, htrace]
  refine ⟨hrest.1, fun hdone => ?_⟩
  rw [Trace.after, accepted_cons, hcells, ← hrest.2 hdone]
  rfl

theorem writesRest (hn : n < 2 ^ 63) (htot : tot ≤ n) :
    WritesRest n results buf tot pos := by
  induction results generalizing tot pos with
  | nil =>
      rcases Nat.lt_or_eq_of_le htot with hmore | rfl
      · have htrace : writeLoop n [] tot pos = ⟨[⟨pos, n - tot, 0⟩], none⟩ :=
          if_pos hmore
        refine writesRest_of_not_moves (congrArg Trace.returned htrace) ?_ ?_
        · simp
        · change ¬ n - tot = 0
          omega
      · exact writesRest_done hn
  | cons result rest ih =>
      rcases Nat.lt_or_eq_of_le htot with hmore | rfl
      · cases result with
        | eintr => exact writesRest_eintr hmore (ih htot)
        | fail =>
            have htrace : writeLoop n (.fail :: rest) tot pos =
                ⟨[⟨pos, n - tot, 0⟩], some (-1)⟩ := if_pos hmore
            refine writesRest_of_not_moves (congrArg Trace.returned htrace)
              ?_ ?_
            · intro hsome
              have hneg := Option.some.inj hsome
              omega
            · change ¬ n - tot = 0
              omega
        | count c =>
            have hle := moved_le c (n - tot)
            by_cases hzero : moved c (n - tot) = 0
            · have htrace : writeLoop n (.count c :: rest) tot pos =
                  ⟨[⟨pos, n - tot, 0⟩], some (asSsize tot)⟩ :=
                transferLoop_zero hmore hzero
              refine writesRest_of_not_moves (congrArg Trace.returned htrace)
                ?_ ?_
              · intro hsome
                have hsame := (asSsize_eq_iff (by omega)).mp
                  (Option.some.inj hsome)
                omega
              · rw [Moves]
                omega
            · exact writesRest_count hn hmore hzero (ih (by omega))
      · exact writesRest_done hn

/-- An `n` that no `ssize_t` holds is never returned. -/
theorem writeLoop_returned_ne (hn : 2 ^ 63 ≤ n) (htot : tot < 2 ^ 64) :
    (writeLoop n results tot pos).returned ≠ some (n : Int) := by
  have hsize (tot : Nat) (htot : tot < 2 ^ 64) :
      some (asSsize tot) ≠ some (n : Int) := by
    intro hsome
    have hsame := (asSsize_eq_iff htot).mp (Option.some.inj hsome)
    omega
  induction results generalizing tot pos with
  | nil =>
      rw [writeLoop, transferLoop]
      split
      · simp
      · exact hsize tot htot
  | cons result rest ih =>
      by_cases hmore : tot < n
      · cases result with
        | eintr =>
            have htrace : writeLoop n (.eintr :: rest) tot pos = _ :=
              transferLoop_eintr hmore
            rw [htrace]
            exact ih htot
        | fail =>
            have htrace : writeLoop n (.fail :: rest) tot pos =
                ⟨[⟨pos, n - tot, 0⟩], some (-1)⟩ := if_pos hmore
            rw [htrace]
            intro hsome
            have hneg := Option.some.inj hsome
            omega
        | count c =>
            by_cases hzero : moved c (n - tot) = 0
            · have htrace : writeLoop n (.count c :: rest) tot pos = _ :=
                transferLoop_zero hmore hzero
              rw [htrace]
              exact hsize tot htot
            · have htrace : writeLoop n (.count c :: rest) tot pos = _ :=
                transferLoop_count hmore hzero
              rw [htrace]
              exact ih (Nat.mod_lt _ (by decide))
      · have htrace : writeLoop n (result :: rest) tot pos = _ :=
          transferLoop_done (by omega)
        rw [htrace]
        exact hsize tot htot

theorem writesFull_iff {totWritten : Nat} (hn : n < 2 ^ 64)
    (htot : totWritten < 2 ^ 64) :
    WritesFull totWritten n results buf ↔
      totWritten = 0 ∨ n < totWritten ∨ 2 ^ 63 ≤ n ∨
        ¬ Moves results (n - totWritten) := by
  by_cases hlarge : 2 ^ 63 ≤ n
  · refine iff_of_true ?_ (Or.inr (Or.inr (Or.inl hlarge)))
    exact fun hreturned =>
      absurd hreturned (writeLoop_returned_ne hlarge htot)
  by_cases habove : n < totWritten
  · refine iff_of_true ?_ (Or.inr (Or.inl habove))
    have htrace : writen totWritten n results = _ :=
      transferLoop_done (by omega)
    intro hreturned
    rw [htrace] at hreturned
    have hsame := (asSsize_eq_iff htot).mp (Option.some.inj hreturned)
    omega
  obtain ⟨hreturned, haccepted⟩ : WritesRest n results buf totWritten 0 :=
    writesRest (by omega) (by omega)
  by_cases hmoves : Moves results (n - totWritten)
  · have hfull : WritesFull totWritten n results buf ↔
        cells buf 0 (n - totWritten) = cells buf 0 n := by
      have hcalls : accepted buf (writen totWritten n results).calls =
          cells buf 0 (n - totWritten) := haccepted hmoves
      rw [WritesFull, hcalls]
      exact imp_iff_right (hreturned.mpr hmoves)
    rw [hfull]
    constructor
    · intro hsame
      have hlength := congrArg List.length hsame
      rw [cells_length, cells_length] at hlength
      omega
    · rintro (hzero | hrest)
      · rw [hzero, Nat.sub_zero]
      · rcases hrest with hlt | hle | hnot
        · exact absurd hlt habove
        · exact absurd hle hlarge
        · exact absurd hmoves hnot
  · refine iff_of_true ?_ (Or.inr (Or.inr (Or.inr hmoves)))
    exact fun hdone => absurd (hreturned.mp hdone) hmoves

end Writen

/-- When the two functions do what they are for: `readn` as long as the first
bytes do not come in part, and `writen` when its total happens to be zero, or
when it does not return `n` at all. -/
theorem full_transfers_iff {totWritten n : Nat} (hn : n < 2 ^ 64)
    (htot : totWritten < 2 ^ 64) (results : List Kernel)
    (stream mem buf : Int → UInt8) :
    (ReadsFull n results stream mem ↔ ¬ ShortFirst n results) ∧
    (WritesFull totWritten n results buf ↔
      totWritten = 0 ∨ n < totWritten ∨ 2 ^ 63 ≤ n ∨
        ¬ Moves results (n - totWritten)) :=
  ⟨readsFull_iff n results stream mem, writesFull_iff hn htot⟩

/-- Four bytes that are read two at a time: the second call may store up to
offset 6.  A total that starts at 4 lets `writen` return 4 with no call. -/
theorem not_full_transfers :
    ¬ ReadsFull 4 [.count 2, .count 2] (fun _ => 0) (fun _ => 0) ∧
    ¬ WritesFull 4 4 [] (fun _ => 0) := by
  constructor
  · rintro ⟨hcalls, _⟩
    have hbound := hcalls ⟨2, 4, 2⟩ (List.mem_cons_of_mem _ List.mem_cons_self)
    change 2 + 4 ≤ 4 at hbound
    omega
  · intro hwrites
    have hlength := congrArg List.length (hwrites rfl)
    rw [cells_length] at hlength
    cases hlength

/-- Interrupted once, four bytes are read in one go, and written in two. -/
theorem full_transfers_four :
    ReadsFull 4 [.eintr, .count 4] (fun _ => 0) (fun _ => 0) ∧
    WritesFull 0 4 [.count 2, .count 2] (fun _ => 0) := by
  have hiff (results : List Kernel) := @full_transfers_iff 0 4 (by decide)
    (Nat.two_pow_pos 64) results (fun _ => 0) (fun _ => 0) (fun _ => 0)
  constructor
  · refine (hiff _).1.mpr ?_
    rintro ⟨_, hshort⟩
    exact absurd hshort (by decide)
  · exact (hiff _).2.mpr (Or.inl rfl)

end Common

end LinuxTest
