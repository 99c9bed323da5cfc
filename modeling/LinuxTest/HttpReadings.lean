/-
What `HttpConnection::handleRead` reads.  A connection only ever reads into its
`input_buffer`, and takes from it: as long as the bytes find room it is the
byte queue of its header, and the first that do not are written behind its
block.
-/
import LinuxTest.HttpBufferParser

namespace LinuxTest

namespace Sone

/-- One call of `readv` on the socket: the unspecified bytes of a block that
`read` may ask for, and what the kernel did. -/
structure Reading where
  junk : Int → UInt8
  result : Option Bytes

/-- What the kernel and the allocator allow. -/
def Reading.Possible (r : Reading) (b : Buffer) : Prop :=
  (Buffer.Op.read r.junk r.result).Possible b

instance (r : Reading) (b : Buffer) : Decidable (r.Possible b) :=
  inferInstanceAs (Decidable ((Buffer.Op.read r.junk r.result).Possible b))

instance (b : Buffer) (len : Nat) : Decidable (b.RoomFor len) :=
  inferInstanceAs (Decidable (_ ∧ (_ ∨ _ ∧ _ ∨ _ ∧ _)))

/-- The bytes that the call delivers, if any, find room. -/
def Reading.Fits (r : Reading) (b : Buffer) : Prop :=
  ∀ bytes, r.result = some bytes → b.RoomFor bytes.length

/-- `readv` delivers these bytes. -/
def Reading.of (bytes : Bytes) : Reading := ⟨fun _ => 0, some bytes⟩

theorem Reading.possible_iff {r : Reading} {bytes : Bytes}
    (hresult : r.result = some bytes) (b : Buffer) :
    r.Possible b ↔ asSize b.writeLen + 65536 < 2 ^ 63 ∧
      bytes.length ≤ asSize b.writeLen + 65536 ∧
      bytes.length ≤ Buffer.maxTransfer ∧
      b.capacity + 2 * bytes.length < 2 ^ 63 := by
  rw [Possible, hresult]
  exact Iff.rfl

namespace HttpInput

/-- `input_buffer.read(fd)`; `none` where it writes outside its block. -/
def read (c : HttpInput) (r : Reading) : Option (HttpInput × Int) :=
  (c.buffer.read r.junk r.result).map fun result =>
    ({ c with buffer := result.1 }, result.2)

/-- `HttpConnection::handleRead` from its `read` on, up to the answer.  An end
of the stream and an error leave the connection as it is. -/
def handleRead (c : HttpInput) (r : Reading) : Option (HttpInput × Reply) :=
  (c.read r).map fun result =>
    if result.2 > 0 then parseMessage result.1 else (result.1, .wait)

end HttpInput

/-! ### A buffer that is only read into -/

namespace Buffer

variable {b : Buffer}

/-- The buffer has its first block for as long as its data lies in the vector:
only a read that leaves `high` behind the vector asks for another. -/
structure ReadInto (b : Buffer) : Prop where
  valid : b.Valid
  block : b.high ≤ b.size → b.capacity = b.size

theorem init_readInto : init.ReadInto :=
  ⟨init_valid, fun _ => rfl⟩

theorem Advanced.readInto {next : Buffer} {q : Bytes}
    (hnext : Advanced b next q) (hb : b.ReadInto) : next.ReadInto := by
  refine ⟨hnext.valid, ?_⟩
  rw [hnext.high_eq, hnext.size_eq, hnext.capacity_eq]
  exact hb.block

/-- Bytes for the writable part are stored in the block that there is. -/
theorem read_inPlace {next : Buffer} {junk : Int → UInt8} {bytes : Bytes}
    {count : Int} (hfit : (bytes.length : Int) ≤ b.writeLen)
    (hread : b.read junk (some bytes) = some (next, count)) :
    next.capacity = b.capacity := by
  rw [read] at hread
  obtain ⟨stored, hstored, hrest⟩ := Option.bind_eq_some_iff.mp hread
  rw [if_pos hfit] at hrest
  cases hrest
  exact (copyTo_frame hstored).2.2

theorem ReadInto.read (hb : b.ReadInto) {junk : Int → UInt8} {bytes : Bytes}
    (hpossible : (Op.read junk (some bytes)).Possible b)
    (hroom : b.RoomFor bytes.length) :
    ∃ next, b.read junk (some bytes) = some (next, (bytes.length : Int)) ∧
      b.Extends next bytes ∧ next.ReadInto := by
  obtain ⟨next, hnext, hextends⟩ :=
    read_extends hb.valid junk hpossible.1 hpossible.2.2.2 hroom
  refine ⟨next, hnext, hextends, hextends.valid hb.valid hroom.1, ?_⟩
  intro hinside
  have hwrite := hb.valid.writeLen_eq
  have hsize := hb.valid.size_eq
  rw [hextends.high_eq, hextends.size_eq] at hinside
  rw [read_inPlace (by omega) hnext, hextends.size_eq]
  exact hb.block (by omega)

/-- Behind a full vector `append` compacts when the free part is long enough,
leaves `high` where it was and writes behind the block. -/
theorem append_eq_none_of_full (hb : b.Valid) (junk : Int → UInt8)
    {buf : Bytes} (hfull : b.high = b.size) (hblock : b.capacity = b.size)
    (hsome : 0 < buf.length) (hfree : (buf.length : Int) ≤ b.low) :
    b.append junk buf = none := by
  have hlow := hb.low_nonneg
  have hle := hb.low_le_high
  have hlen := hb.dataLen_eq
  have hsize := hb.size_eq
  have hwrite : asSize b.writeLen = 0 := by
    rw [hb.writeLen_eq, show 4096 - b.high = 0 by omega]
    rfl
  have hfreeLen := asSize_of_nonneg b.freeLen
    (by rw [hb.freeLen_eq]; omega) (by rw [hb.freeLen_eq]; omega)
  have hroom : ¬ asSize b.freeLen < buf.length := by
    have hfreeEq := hb.freeLen_eq
    omega
  rw [append, if_neg (by omega), if_neg (by omega), if_neg hroom, copyTo,
    if_pos (Or.inr ⟨le_refl 0, by omega⟩), Option.bind_some]
  have hbehind : ¬ (buf = [] ∨ (0 ≤ b.high - 0 ∧
      b.high - 0 + buf.length ≤ b.capacity)) := by
    rintro (rfl | hin)
    · exact absurd hsome (lt_irrefl 0)
    · omega
  exact Option.map_eq_none_iff.mpr (if_neg hbehind)

/-- What does not find room is more than the writable part and no more than the
free one. -/
theorem ReadInto.read_eq_none (hb : b.ReadInto) {junk : Int → UInt8}
    {bytes : Bytes} (hpossible : (Op.read junk (some bytes)).Possible b)
    (hroom : ¬ b.RoomFor bytes.length) :
    b.read junk (some bytes) = none := by
  have hvalid := hb.valid
  have hlow := hvalid.low_nonneg
  have hle := hvalid.low_le_high
  have hsize := hvalid.size_eq
  have hcount := hpossible.2.1
  have hwriteLen := hvalid.writeLen_eq
  obtain ⟨hhigh, hwrite⟩ : b.high ≤ b.size ∧
      (asSize b.writeLen : Int) = b.size - b.high := by
    rcases hvalid.asSize_writeLen with hin | ⟨_, hbig⟩
    · exact hin
    · have hoffer := hpossible.1
      omega
  have hcap := hb.block hhigh
  obtain ⟨hmore, hfree⟩ : (b.size : Int) < b.high + bytes.length ∧
      (bytes.length : Int) ≤ b.low + b.size - b.high := by
    rw [RoomFor] at hroom
    omega
  let first := bytes.take (asSize b.writeLen)
  have hfirst : first.length = asSize b.writeLen :=
    List.length_take_of_le (by omega)
  have hrest : (bytes.drop (asSize b.writeLen)).length =
      bytes.length - asSize b.writeLen := List.length_drop
  obtain ⟨stored, hstored, hextends⟩ := copyTail_extends first hlow hle
    (by omega) (by omega)
  obtain ⟨copied, hcopied, rfl⟩ := Option.map_eq_some_iff.mp hstored
  obtain ⟨hhighEq, hsizeEq, hcapEq⟩ := copyTo_frame hcopied
  have hfull : asInt (copied.high + first.length) = asInt copied.size := by
    rw [hhighEq, hsizeEq]
    congr 1
    omega
  have hstoredValid := hextends.valid hvalid (by omega)
  have hrestPos : 0 < (bytes.drop (asSize b.writeLen)).length := by omega
  have hnone := append_eq_none_of_full hstoredValid junk
    (by rw [hextends.high_eq, hextends.size_eq]; omega)
    (by change copied.capacity = copied.size; omega) hrestPos
    (by rw [hextends.low_eq]; omega)
  rw [Buffer.read]
  rw [show b.copyTo b.high (bytes.take (asSize b.writeLen)) = some copied
    from hcopied, Option.bind_some, if_neg (by omega), ← hfull, hnone]
  rfl

end Buffer

/-! ### One reading -/

theorem Reading.exists_bytes (r : Reading) (hnot : r.result.getD [] ≠ []) :
    ∃ bytes, r.result = some bytes ∧ bytes ≠ [] := by
  cases hcase : r.result with
  | none => exact absurd (by rw [hcase]; rfl) hnot
  | some bytes => exact ⟨bytes, rfl, by simpa [hcase] using hnot⟩

namespace HttpInput

variable {c next : HttpInput} {r : Reading} {bytes : Bytes} {reply : Reply}

/-- What found room stands behind the data, for `onMessage` to see. -/
theorem read_of_fits (hc : c.buffer.ReadInto)
    (hpossible : r.Possible c.buffer) (hresult : r.result = some bytes)
    (hroom : c.buffer.RoomFor bytes.length) :
    ∃ filled, c.read r = some (filled, (bytes.length : Int)) ∧
      filled.buffer.ReadInto ∧ filled.view = c.view.deliver bytes := by
  rw [Reading.Possible, hresult] at hpossible
  obtain ⟨buffer, hread, hextends, hbuffer⟩ := hc.read hpossible hroom
  refine ⟨{ c with buffer := buffer }, ?_, hbuffer, ?_⟩
  · rw [read, hresult, hread]
    rfl
  · rw [view, hextends.data_eq]
    rfl

theorem parseMessage_view (hc : c.buffer.ReadInto) :
    (parseMessage c).1.buffer.ReadInto ∧
      (parseMessage c).1.view = (Sone.parseMessage c.view).1 ∧
      (parseMessage c).2 = (Sone.parseMessage c.view).2 := by
  have hagrees := parseMessage_agrees hc.valid
  exact ⟨hagrees.advanced.readInto hc, hagrees.view_eq, hagrees.value_eq⟩

/-- A reading that found room is a chunk delivered to the byte queue. -/
theorem handleRead_of_fits (hc : c.buffer.ReadInto)
    (hpossible : r.Possible c.buffer) (hresult : r.result = some bytes)
    (hsome : bytes ≠ []) (hroom : c.buffer.RoomFor bytes.length) :
    ∃ next, c.handleRead r =
        some (next, (Sone.parseMessage (c.view.deliver bytes)).2) ∧
      next.buffer.ReadInto ∧
      next.view = (Sone.parseMessage (c.view.deliver bytes)).1 := by
  obtain ⟨filled, hread, hfilled, hview⟩ :=
    read_of_fits hc hpossible hresult hroom
  obtain ⟨hkept, hnext, hreply⟩ := parseMessage_view hfilled
  have hcount : (bytes.length : Int) > 0 := by
    have hpos := List.length_pos_iff.mpr hsome
    omega
  refine ⟨(parseMessage filled).1, ?_, hkept, hview ▸ hnext⟩
  rw [handleRead, hread, Option.map_some, if_pos hcount, ← hview, ← hreply]

/-- An error, and the end of the stream. -/
theorem read_of_nothing (hc : c.buffer.ReadInto)
    (hpossible : r.Possible c.buffer) (hresult : r.result.getD [] = []) :
    ∃ filled n, c.read r = some (filled, n) ∧ ¬ n > 0 ∧
      filled.buffer.ReadInto ∧ filled.view = c.view := by
  cases hcase : r.result with
  | none =>
      refine ⟨c, -1, ?_, by decide, hc, rfl⟩
      rw [read, hcase]
      rfl
  | some bytes =>
      obtain rfl : bytes = [] := by rw [hcase] at hresult; exact hresult
      have hroom : c.buffer.RoomFor ([] : Bytes).length := by
        have hlt := hc.valid.high_lt
        have hcap := hc.valid.high_le_capacity
        simp only [Buffer.RoomFor, List.length_nil]
        omega
      obtain ⟨filled, hread, hfilled, hview⟩ :=
        read_of_fits hc hpossible hcase hroom
      exact ⟨filled, 0, hread, by decide, hfilled,
        by rw [hview, HttpConn.deliver_nil]⟩

theorem handleRead_of_nothing (hc : c.buffer.ReadInto)
    (hpossible : r.Possible c.buffer) (hresult : r.result.getD [] = []) :
    ∃ next, c.handleRead r = some (next, .wait) ∧
      next.buffer.ReadInto ∧ next.view = c.view := by
  obtain ⟨filled, n, hread, hn, hfilled, hview⟩ :=
    read_of_nothing hc hpossible hresult
  exact ⟨filled, by rw [handleRead, hread, Option.map_some, if_neg hn],
    hfilled, hview⟩

theorem handleRead_eq_none (hc : c.buffer.ReadInto)
    (hpossible : r.Possible c.buffer) (hfull : ¬ r.Fits c.buffer) :
    c.handleRead r = none := by
  rw [Reading.Fits] at hfull
  push Not at hfull
  obtain ⟨bytes, hresult, hroom⟩ := hfull
  rw [Reading.Possible, hresult] at hpossible
  rw [handleRead, read, hresult, hc.read_eq_none hpossible hroom]
  rfl

/-- How a reading that went through ends. -/
theorem handleRead_cases (hc : c.buffer.ReadInto)
    (hpossible : r.Possible c.buffer)
    (hread : c.handleRead r = some (next, reply)) :
    r.Fits c.buffer ∧ next.buffer.ReadInto ∧
      ((r.result.getD [] = [] ∧ next.view = c.view ∧ reply = .wait) ∨
        ∃ bytes, r.result = some bytes ∧ bytes ≠ [] ∧
          Sone.parseMessage (c.view.deliver bytes) = (next.view, reply)) := by
  have hfits : r.Fits c.buffer := by
    by_contra hfull
    rw [handleRead_eq_none hc hpossible hfull] at hread
    cases hread
  by_cases hnothing : r.result.getD [] = []
  · obtain ⟨other, hother, hkept, hview⟩ :=
      handleRead_of_nothing hc hpossible hnothing
    rw [hread] at hother
    cases hother
    exact ⟨hfits, hkept, Or.inl ⟨hnothing, hview, rfl⟩⟩
  · obtain ⟨bytes, hresult, hsome⟩ := r.exists_bytes hnothing
    obtain ⟨other, hother, hkept, hview⟩ := handleRead_of_fits hc hpossible
      hresult hsome (hfits bytes hresult)
    rw [hread] at hother
    cases hother
    exact ⟨hfits, hkept, Or.inr ⟨bytes, hresult, hsome, by rw [hview]⟩⟩

/-! ### Runs -/

/-- A reading whose answer was no exception. -/
def step (c : HttpInput) (r : Reading) : Option HttpInput :=
  match c.handleRead r with
  | some (_, .raise _) => none
  | some (next, _) => some next
  | none => none

theorem step_eq_some (hstep : c.step r = some next) :
    ∃ reply, c.handleRead r = some (next, reply) := by
  rw [step] at hstep
  split at hstep
  · cases hstep
  · rename_i next' reply _ hread
    cases hstep
    exact ⟨reply, hread⟩
  · cases hstep

/-- Every reading of the run is one that the kernel and the allocator allow. -/
def PossibleRun (c : HttpInput) (readings : List Reading) : Prop :=
  Along step (fun c r => r.Possible c.buffer) c readings

theorem step_readInto (hc : c.buffer.ReadInto)
    (hpossible : r.Possible c.buffer) (hstep : c.step r = some next) :
    next.buffer.ReadInto := by
  obtain ⟨reply, hread⟩ := step_eq_some hstep
  exact (handleRead_cases hc hpossible hread).2.1

/-- A connection after readings that have all gone through. -/
structure Reached (readings : List Reading) (c : HttpInput) : Prop where
  possible : PossibleRun .init readings
  run_eq : run step .init readings = some c

theorem Reached.readInto {readings : List Reading}
    (hc : Reached readings c) : c.buffer.ReadInto := by
  have hkept : ∀ (state : HttpInput) (r : Reading) (next : HttpInput),
      state.buffer.ReadInto → r.Possible state.buffer →
      step state r = some next → next.buffer.ReadInto :=
    fun _ _ _ hstate hpossible => step_readInto hstate hpossible
  exact run_invariant_along hkept Buffer.init_readInto hc.possible hc.run_eq

end HttpInput

end Sone

end LinuxTest
