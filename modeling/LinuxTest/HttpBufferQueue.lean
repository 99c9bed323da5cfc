/-
`Buffer` against the byte queue its header documents.  A run keeps a ledger of
the bytes that arrived and of how many were consumed; the buffer is a queue
while its visible data is what arrived less what was consumed.
-/
import LinuxTest.HttpBuffer

namespace LinuxTest

namespace Sone

namespace Buffer

/-- The cursors lie in order inside the allocation and fit an `int`. -/
structure Valid (b : Buffer) : Prop where
  low_nonneg : 0 ≤ b.low
  low_le_high : b.low ≤ b.high
  high_le_capacity : b.high ≤ b.capacity
  high_lt : b.high < 2 ^ 31
  size_eq : b.size = 4096

theorem init_valid : init.Valid := by
  constructor <;> decide

theorem data_length (b : Buffer) : b.data.length = b.dataLen.toNat := by
  simp [data]

theorem Valid.dataLen_eq {b : Buffer} (hb : b.Valid) :
    (b.data.length : Int) = b.high - b.low := by
  have := hb.low_le_high
  rw [data_length, dataLen]
  omega

theorem Valid.writeLen_eq {b : Buffer} (hb : b.Valid) :
    b.writeLen = 4096 - b.high := by
  have := hb.low_nonneg
  have := hb.low_le_high
  have := hb.high_lt
  rw [writeLen, hb.size_eq]
  exact asInt_of_range (by omega) (by omega)

theorem Valid.freeLen_eq {b : Buffer} (hb : b.Valid) :
    b.freeLen = b.low + 4096 - b.high := by
  have := hb.low_nonneg
  have := hb.low_le_high
  have := hb.high_lt
  rw [freeLen, hb.size_eq]
  exact asInt_of_range (by omega) (by omega)

/-- A non-negative writable part is offered to the kernel as it is; once
`high` has passed the vector's size the offer is huge. -/
theorem Valid.asSize_writeLen {b : Buffer} (hb : b.Valid) :
    (b.high ≤ b.size ∧ (asSize b.writeLen : Int) = b.size - b.high) ∨
      (b.size < b.high ∧ (2 : Int) ^ 63 ≤ asSize b.writeLen) := by
  have hlow := hb.low_nonneg
  have hle := hb.low_le_high
  have hlt := hb.high_lt
  have hsize := hb.size_eq
  rw [hb.writeLen_eq]
  by_cases hhigh : b.high ≤ 4096
  · left
    rw [asSize_of_nonneg _ (by omega) (by omega)]
    omega
  · right
    rw [asSize_of_neg _ (by omega) (by omega)]
    omega

/-- `b'` is `b` with `buf` added behind its data. -/
structure Extends (b b' : Buffer) (buf : List UInt8) : Prop where
  data_eq : b'.data = b.data ++ buf
  low_eq : b'.low = b.low
  high_eq : b'.high = b.high + buf.length
  size_eq : b'.size = b.size
  high_le_capacity : b'.high ≤ b'.capacity
  top_le : b'.top ≤ max b.top b'.high

theorem Extends.valid {b b' : Buffer} {buf : List UInt8} (hb : b.Valid)
    (hlt : b.high + buf.length < 2 ^ 31) (hext : Extends b b' buf) :
    b'.Valid := by
  have := hb.low_le_high
  refine ⟨?_, ?_, hext.high_le_capacity, ?_, ?_⟩
  · exact hext.low_eq ▸ hb.low_nonneg
  · rw [hext.low_eq, hext.high_eq]
    omega
  · rw [hext.high_eq]
    exact hlt
  · exact hext.size_eq.trans hb.size_eq

theorem copyTo_frame {b b' : Buffer} {pos : Int} {values : List UInt8}
    (hcopy : b.copyTo pos values = some b') :
    b'.high = b.high ∧ b'.size = b.size ∧ b'.capacity = b.capacity := by
  rw [copyTo] at hcopy
  split at hcopy
  · cases hcopy
    exact ⟨rfl, rfl, rfl⟩
  · cases hcopy

theorem copyTail_extends {b : Buffer} (buf : List UInt8)
    (hlow : 0 ≤ b.low) (hle : b.low ≤ b.high)
    (hcap : b.high + buf.length ≤ b.capacity)
    (hlt : b.high + buf.length < 2 ^ 31) :
    ∃ b', b.copyTail buf = some b' ∧ Extends b b' buf := by
  have hfits : buf = [] ∨ (0 ≤ b.high ∧ b.high + buf.length ≤ b.capacity) :=
    Or.inr ⟨by omega, hcap⟩
  have hhigh : asInt (b.high + buf.length) = b.high + buf.length :=
    asInt_of_lt _ (by omega) hlt
  rw [copyTail, copyTo, if_pos hfits]
  refine ⟨_, rfl, ?_, rfl, hhigh, rfl, ?_, ?_⟩
  · have hend : b.low + (b.high - b.low).toNat = b.high := by omega
    have hcount : (asInt (b.high + buf.length) - b.low).toNat =
        (b.high - b.low).toNat + buf.length := by omega
    have hcells := cells_overwrite_append b.mem b.low
      (b.high - b.low).toNat buf
    rw [hend] at hcells
    simpa only [data, dataLen, hcount] using hcells
  · simpa only [hhigh] using hcap
  · simp only [hhigh]
    split <;> omega

theorem reserve_keeps {b : Buffer} (junk : Int → UInt8) (hlow : 0 ≤ b.low)
    (hsize : b.high ≤ b.size) {n : Nat} (hn : n < 2 ^ 63) :
    ∃ b', b.reserve junk n = some b' ∧ b'.data = b.data ∧ b'.low = b.low ∧
      b'.high = b.high ∧ b'.size = b.size ∧ b'.top = b.top ∧
      n ≤ b'.capacity := by
  by_cases hle : n ≤ b.capacity
  · exact ⟨b, by rw [reserve, dif_pos hle], rfl, rfl, rfl, rfl, rfl, hle⟩
  · rw [reserve, dif_neg hle, if_pos hn]
    refine ⟨_, rfl, ?_, rfl, rfl, rfl, rfl, Nat.le_refl n⟩
    apply cells_congr
    intro i hi hlt
    have hin : 0 ≤ i ∧ i < b.size := by
      simp only [dataLen] at hi hlt
      omega
    simp only [if_pos hin]

theorem growTo_eq {b : Buffer} {len : Nat}
    (hgrow : b.capacity + 2 * len < 2 ^ 63) :
    b.growTo len = b.capacity + 2 * len := by
  have hinner : asSize (len * 2) = len * 2 := by
    have := asSize_natCast (n := len * 2) (by omega)
    simpa using this
  rw [growTo, hinner]
  have := asSize_natCast (n := b.capacity + len * 2) (by omega)
  rw [Int.natCast_add] at this
  omega

/-- The growing step of `append` and of `read(fd, len)`: from a buffer whose
data still lies in the vector nothing is lost, and `len` more bytes fit. -/
theorem grow_keeps {b : Buffer} (hb : b.Valid) (junk : Int → UInt8)
    {len : Nat} (hsize : b.high ≤ b.size)
    (hgrow : b.capacity + 2 * len < 2 ^ 63) :
    ∃ b', b.reserve junk (b.growTo len) = some b' ∧ b'.data = b.data ∧
      b'.low = b.low ∧ b'.high = b.high ∧ b'.size = b.size ∧
      b'.top = b.top ∧ b'.high + len ≤ b'.capacity := by
  rw [growTo_eq hgrow]
  obtain ⟨b', hreserve, hdata, hlow, hhigh, hsizeEq, htop, hcap⟩ :=
    reserve_keeps junk hb.low_nonneg hsize hgrow
  have := b.size_le
  exact ⟨b', hreserve, hdata, hlow, hhigh, hsizeEq, htop, by omega⟩

/-- Growing first and storing then extends the buffer all the same. -/
theorem Extends.of_grown {b b1 b' : Buffer} {buf : List UInt8}
    (hdata : b1.data = b.data) (hlow : b1.low = b.low)
    (hhigh : b1.high = b.high) (hsize : b1.size = b.size)
    (htop : b1.top = b.top) (hext : Extends b1 b' buf) :
    Extends b b' buf := by
  refine ⟨?_, ?_, ?_, ?_, hext.high_le_capacity, ?_⟩
  · rw [hext.data_eq, hdata]
  · rw [hext.low_eq, hlow]
  · rw [hext.high_eq, hhigh]
  · rw [hext.size_eq, hsize]
  · exact htop ▸ hext.top_le

theorem Extends.trans {b b1 b2 : Buffer} {first last : List UInt8}
    (hfirst : Extends b b1 first) (hlast : Extends b1 b2 last) :
    Extends b b2 (first ++ last) := by
  refine ⟨?_, ?_, ?_, ?_, hlast.high_le_capacity, ?_⟩
  · rw [hlast.data_eq, hfirst.data_eq, List.append_assoc]
  · rw [hlast.low_eq, hfirst.low_eq]
  · rw [hlast.high_eq, hfirst.high_eq, List.length_append, Int.natCast_add,
      Int.add_assoc]
  · rw [hlast.size_eq, hfirst.size_eq]
  · have := hfirst.top_le
    have := hlast.top_le
    have := hlast.high_eq
    omega

/-- There is room for `len` more bytes: in the vector behind `high`; or, the
free bytes being too few, in a larger block; or, `high` having left the
vector, in the rest of the allocation. -/
def RoomFor (b : Buffer) (len : Nat) : Prop :=
  b.high + len < 2 ^ 31 ∧
    (b.high + len ≤ b.size ∨
      (b.high ≤ b.size ∧ b.low + b.size - b.high < len) ∨
      (b.size < b.high ∧ b.high + len ≤ b.capacity))

theorem append_extends {b : Buffer} (hb : b.Valid) (junk : Int → UInt8)
    (buf : List UInt8) (hgrow : b.capacity + 2 * buf.length < 2 ^ 63)
    (hroom : buf = [] ∨ b.RoomFor buf.length) :
    ∃ b', b.append junk buf = some b' ∧ Extends b b' buf := by
  rw [append]
  by_cases hzero : buf.length = 0
  · obtain rfl := List.length_eq_zero_iff.mp hzero
    exact ⟨b, by simp, by simp, rfl, by simp, rfl, hb.high_le_capacity,
      by omega⟩
  have hroom : b.RoomFor buf.length := by
    refine hroom.resolve_left ?_
    rintro rfl
    exact hzero rfl
  obtain ⟨hlt, hcases⟩ := hroom
  have hcap := b.size_le
  rw [if_neg hzero]
  rcases hcases with hin | ⟨hsize, hfree⟩ | ⟨hout, hin⟩
  · -- in place: the writable part is what the comparison sees
    have hle : buf.length ≤ asSize b.writeLen := by
      rcases hb.asSize_writeLen with ⟨_, heq⟩ | ⟨_, hbig⟩ <;> omega
    rw [if_pos hle]
    exact copyTail_extends _ hb.low_nonneg hb.low_le_high (by omega) hlt
  · have hnot : ¬ buf.length ≤ asSize b.writeLen := by
      have := hb.low_nonneg
      rcases hb.asSize_writeLen with ⟨_, heq⟩ | ⟨hbad, _⟩ <;> omega
    have hfreeLen : asSize b.freeLen < buf.length := by
      have := hb.low_nonneg
      have hsizeEq := hb.size_eq
      have heq := hb.freeLen_eq
      have := asSize_of_nonneg b.freeLen (by omega) (by omega)
      omega
    rw [if_neg hnot, if_pos hfreeLen]
    obtain ⟨b1, hreserve, hdata, hlow, hhigh, hsizeEq, htop, hfits⟩ :=
      grow_keeps hb junk hsize hgrow
    obtain ⟨b', hcopy, hext⟩ := copyTail_extends (b := b1) buf
      (hlow ▸ hb.low_nonneg) (by rw [hlow, hhigh]; exact hb.low_le_high)
      hfits (hhigh ▸ hlt)
    exact ⟨b', by rw [hreserve]; exact hcopy,
      Extends.of_grown hdata hlow hhigh hsizeEq htop hext⟩
  · -- `high` beyond the vector: the negative room reads as a huge one
    have hle : buf.length ≤ asSize b.writeLen := by
      rcases hb.asSize_writeLen with ⟨hbad, _⟩ | ⟨_, hbig⟩ <;> omega
    rw [if_pos hle]
    exact copyTail_extends _ hb.low_nonneg hb.low_le_high hin hlt

/-- A successful `readv`, spilled into `extrabuf` or not. -/
theorem read_extends {b : Buffer} (hb : b.Valid) (junk : Int → UInt8)
    {bytes : List UInt8} (hoffer : asSize b.writeLen + 65536 < 2 ^ 63)
    (hgrow : b.capacity + 2 * bytes.length < 2 ^ 63)
    (hroom : b.RoomFor bytes.length) :
    ∃ b', b.read junk (some bytes) = some (b', (bytes.length : Int)) ∧
      Extends b b' bytes := by
  obtain ⟨hsize, hwrite⟩ : b.high ≤ b.size ∧
      (asSize b.writeLen : Int) = b.size - b.high := by
    rcases hb.asSize_writeLen with hin | ⟨_, hbig⟩
    · exact hin
    · omega
  have hcap := b.size_le
  have hwriteLen := hb.writeLen_eq
  have hsizeEq := hb.size_eq
  let first := bytes.take (asSize b.writeLen)
  have hfirst : b.high + first.length ≤ b.size := by
    have hle : first.length ≤ asSize b.writeLen := List.length_take_le _ _
    omega
  obtain ⟨c, hc, hcExt⟩ := copyTail_extends first hb.low_nonneg
    hb.low_le_high (by omega) (by omega)
  obtain ⟨c0, hc0, rfl⟩ := Option.map_eq_some_iff.mp hc
  obtain ⟨hhigh0, hsize0, hcap0⟩ := copyTo_frame hc0
  rw [read]
  rw [show b.copyTo b.high (bytes.take (asSize b.writeLen)) = some c0
    from hc0, Option.bind_some]
  by_cases hfit : (bytes.length : Int) ≤ b.writeLen
  · have hall : first = bytes := List.take_of_length_le (by omega)
    rw [if_pos hfit]
    rw [hall] at hcExt
    exact ⟨_, rfl, hcExt⟩
  · -- the rest waits in `extrabuf` and is appended behind the full vector
    have hlen : first.length = asSize b.writeLen :=
      List.length_take_of_le (by omega)
    have hfull : asInt (c0.high + first.length) = asInt c0.size := by
      rw [hhigh0, hsize0]
      congr 1
      omega
    rw [if_neg hfit, ← hfull]
    have hcValid := hcExt.valid hb (by omega)
    have hdrop : (bytes.drop (asSize b.writeLen)).length =
        bytes.length - asSize b.writeLen := List.length_drop
    obtain ⟨hlt, hcases⟩ := hroom
    obtain ⟨b', hb', hext⟩ := append_extends hcValid junk
      (bytes.drop (asSize b.writeLen))
      (by show c0.capacity + _ < _; omega) (by
        right
        have hhigh := hcExt.high_eq
        have hlow := hcExt.low_eq
        have hsz := hcExt.size_eq
        refine ⟨by omega, Or.inr (Or.inl ⟨by omega, ?_⟩)⟩
        rcases hcases with hin | ⟨_, hfree⟩ | ⟨hout, _⟩ <;> omega)
    refine ⟨b', by rw [hb']; rfl, ?_⟩
    have := hcExt.trans hext
    rwa [List.take_append_drop] at this

/-- A `read` that returned `count` bytes had room for them: the data lay in
the vector, or the bytes end inside the allocation. -/
def RoomForRead (b : Buffer) (count : Nat) : Prop :=
  b.high + count < 2 ^ 31 ∧
    (b.high ≤ b.size ∨ b.high + count ≤ b.capacity)

theorem readLen_extends {b : Buffer} (hb : b.Valid) (junk : Int → UInt8)
    {len : Nat} (hgrow : b.capacity + 2 * len < 2 ^ 63)
    {bytes : List UInt8} (hle : bytes.length ≤ len)
    (hroom : b.RoomForRead bytes.length) :
    ∃ b', b.readLen junk len (some bytes) =
        some (b', (bytes.length : Int)) ∧ Extends b b' bytes := by
  obtain ⟨hlt, hcases⟩ := hroom
  have hcap := b.size_le
  rw [readLen]
  by_cases hgrows : asSize b.writeLen < len
  · have hsize : b.high ≤ b.size := by
      rcases hb.asSize_writeLen with ⟨hsize, _⟩ | ⟨_, hbig⟩
      · exact hsize
      · omega
    obtain ⟨b1, hreserve, hdata, hlow, hhigh, hsizeEq, htop, hfits⟩ :=
      grow_keeps hb junk hsize hgrow
    obtain ⟨b', hcopy, hext⟩ := copyTail_extends (b := b1) bytes
      (hlow ▸ hb.low_nonneg) (by rw [hlow, hhigh]; exact hb.low_le_high)
      (by omega) (hhigh ▸ hlt)
    exact ⟨b', by rw [if_pos hgrows, hreserve]; simp [hcopy],
      Extends.of_grown hdata hlow hhigh hsizeEq htop hext⟩
  · have hin : b.high + bytes.length ≤ b.capacity := by
      rcases hb.asSize_writeLen with ⟨hsize, heq⟩ | ⟨hout, _⟩
      · omega
      · rcases hcases with hin | hin <;> omega
    obtain ⟨b', hcopy, hext⟩ :=
      copyTail_extends _ hb.low_nonneg hb.low_le_high hin hlt
    exact ⟨b', by rw [if_neg hgrows]; simp [hcopy], hext⟩

/-- `moveLow` on a valid buffer, away from the `size_t` wrap-around. -/
theorem moveLow_eq {b : Buffer} (hb : b.Valid) {n : Nat}
    (hn : n + b.low < 2 ^ 64) :
    b.moveLow n = if (n : Int) ≤ b.high - b.low
      then ({ b with low := b.low + n }, true) else (b, false) := by
  have hlow := hb.low_nonneg
  have hle := hb.low_le_high
  have hlt := hb.high_lt
  have hsum := asSize_of_nonneg (n + b.low) (by omega) hn
  have hhigh := asSize_of_nonneg b.high (by omega) (by omega)
  rw [moveLow]
  by_cases hfit : (n : Int) ≤ b.high - b.low
  · rw [if_neg (by omega), if_pos hfit,
      asInt_of_lt (b.low + n) (by omega) (by omega)]
  · rw [if_pos (by omega), if_neg hfit]

theorem data_moveLow {b : Buffer} (hb : b.Valid) {n : Nat}
    (hn : (n : Int) ≤ b.high - b.low) :
    data { b with low := b.low + n } = b.data.drop n := by
  have hle := hb.low_le_high
  rw [data, data, cells_drop _ _ (by simp only [dataLen]; omega)]
  congr 1
  simp only [dataLen]
  omega

theorem Valid.advance {b : Buffer} (hb : b.Valid) {n : Nat}
    (hn : (n : Int) ≤ b.high - b.low) :
    Valid { b with low := b.low + n } := by
  have hlow := hb.low_nonneg
  refine ⟨?_, ?_, hb.high_le_capacity, hb.high_lt, hb.size_eq⟩
  · change 0 ≤ b.low + n
    omega
  · change b.low + n ≤ b.high
    omega

/-- The condition under which a call treats the buffer as a queue: what
arrives finds room without compacting, no `read(fd, len)` fails, and no
`moveLow(n)` wraps around. -/
def Op.Safe (b : Buffer) : Op → Prop
  | .append _ buf => buf = [] ∨ b.RoomFor buf.length
  | .read _ none => True
  | .read _ (some bytes) => b.RoomFor bytes.length
  | .readLen _ _ none => False
  | .readLen _ _ (some bytes) => b.RoomForRead bytes.length
  | .moveLow n => n + b.low < 2 ^ 64

/-- A buffer, the bytes that arrived in it and the number consumed. -/
structure Ledger where
  buffer : Buffer
  arrived : List UInt8
  consumed : Nat

/-- The ledger of a fresh buffer. -/
def Ledger.init : Ledger := ⟨Buffer.init, [], 0⟩

def Ledger.step (s : Ledger) (op : Op) : Option Ledger :=
  (s.buffer.perform op).map fun b =>
    ⟨b, s.arrived ++ op.brings, s.consumed + op.takes s.buffer⟩

/-- The visible data is what arrived less what was consumed. -/
def Ledger.IsQueue (s : Ledger) : Prop :=
  s.consumed ≤ s.arrived.length ∧
    s.buffer.data = s.arrived.drop s.consumed

theorem Ledger.extend_isQueue {s : Ledger} (hqueue : s.IsQueue)
    {b : Buffer} {buf : List UInt8} (hext : Extends s.buffer b buf) :
    Ledger.IsQueue ⟨b, s.arrived ++ buf, s.consumed + 0⟩ := by
  obtain ⟨hle, hdata⟩ := hqueue
  constructor
  · simp only [Nat.add_zero, List.length_append]
    omega
  · show b.data = (s.arrived ++ buf).drop s.consumed
    rw [hext.data_eq, hdata, List.drop_append_of_le_length hle]

/-- One safe call keeps the buffer a queue. -/
theorem Ledger.step_isQueue (s : Ledger) (op : Op)
    (hinv : s.buffer.Valid ∧ s.IsQueue)
    (hgood : op.Possible s.buffer ∧ op.Safe s.buffer) :
    ∃ next, s.step op = some next ∧ next.buffer.Valid ∧ next.IsQueue := by
  obtain ⟨hvalid, hqueue⟩ := hinv
  obtain ⟨hpossible, hsafe⟩ := hgood
  cases op with
  | append junk buf =>
      obtain ⟨b, hb, hext⟩ := append_extends hvalid junk _ hpossible hsafe
      refine ⟨_, by rw [step, perform, hb]; rfl, ?_,
        extend_isQueue hqueue hext⟩
      rcases hsafe with rfl | hroom
      · exact hext.valid hvalid (by simpa using hvalid.high_lt)
      · exact hext.valid hvalid hroom.1
  | read junk result =>
      cases result with
      | none =>
          refine ⟨_, rfl, hvalid, ?_⟩
          simpa [IsQueue, Op.brings, Op.takes] using hqueue
      | some bytes =>
          obtain ⟨b, hb, hext⟩ := read_extends hvalid junk hpossible.1
            hpossible.2.2.2 hsafe
          exact ⟨_, by rw [step, perform, hb]; rfl,
            hext.valid hvalid hsafe.1, extend_isQueue hqueue hext⟩
  | readLen junk len result =>
      cases result with
      | none => exact hsafe.elim
      | some bytes =>
          obtain ⟨b, hb, hext⟩ := readLen_extends hvalid junk hpossible.1
            hpossible.2.1 hsafe
          exact ⟨_, by rw [step, perform, hb]; rfl,
            hext.valid hvalid hsafe.1, extend_isQueue hqueue hext⟩
  | moveLow n =>
      have hlen := hvalid.dataLen_eq
      have heq := moveLow_eq hvalid hsafe
      obtain ⟨hle, hdata⟩ := hqueue
      have hcount : (s.buffer.data.length : Int) =
          s.arrived.length - s.consumed := by
        rw [hdata, List.length_drop]
        omega
      by_cases hfit : (n : Int) ≤ s.buffer.high - s.buffer.low
      · rw [if_pos hfit] at heq
        rw [step, perform, heq]
        refine ⟨_, rfl, hvalid.advance hfit, ?_, ?_⟩
        · simp only [Op.brings, Op.takes, heq, List.append_nil, if_true]
          omega
        · simp only [Op.brings, Op.takes, heq, List.append_nil, if_true]
          rw [data_moveLow hvalid hfit, hdata, List.drop_drop]
      · rw [if_neg hfit] at heq
        rw [step, perform, heq]
        refine ⟨_, rfl, hvalid, ?_⟩
        simpa [IsQueue, Op.brings, Op.takes, heq] using ⟨hle, hdata⟩

/-- In every run whose calls are all safe the buffer is a byte queue
throughout. -/
theorem buffer_isQueue_of_safe (ops : List Op)
    (hgood : Along Ledger.step (fun s op =>
      op.Possible s.buffer ∧ op.Safe s.buffer) Ledger.init ops) :
    Always Ledger.step Ledger.IsQueue Ledger.init ops := by
  have hinit : Ledger.init.buffer.Valid ∧ Ledger.init.IsQueue :=
    ⟨init_valid, Nat.le_refl 0, rfl⟩
  have halways := Always.of_along Ledger.step_isQueue hinit hgood
  exact halways.mono fun _ hinv => hinv.2

theorem buffer_isQueue_of_safe_spill :
    Along Ledger.step (fun s op =>
        op.Possible s.buffer ∧ op.Safe s.buffer) Ledger.init
        [.append (fun _ => 0) [71, 69, 84], .moveLow 2,
          .read (fun _ => 0) none] ∧
      Always Ledger.step Ledger.IsQueue Ledger.init
        [.append (fun _ => 0) [71, 69, 84], .moveLow 2,
          .read (fun _ => 0) none] := by
  have hgood : Along Ledger.step (fun s op =>
      op.Possible s.buffer ∧ op.Safe s.buffer) Ledger.init
      [.append (fun _ => 0) [71, 69, 84], .moveLow 2,
        .read (fun _ => 0) none] := by
    refine ⟨⟨by decide, Or.inr ⟨by decide, Or.inl (by decide)⟩⟩, ?_⟩
    rintro next ⟨⟩
    have hwrap : ((2 : Nat) : Int) + 0 < 2 ^ 64 := by decide
    refine ⟨⟨by decide, hwrap⟩, ?_⟩
    rintro next ⟨⟩
    exact ⟨⟨trivial, trivial⟩, fun _ _ => trivial⟩
  exact ⟨hgood, buffer_isQueue_of_safe _ hgood⟩

/-- One byte is appended and a `read(fd, 1)` fails: `high += -1` takes the
byte away again, although nothing was consumed. -/
theorem failed_read_loses_byte :
    Along Ledger.step (fun s op => op.Possible s.buffer) Ledger.init
        [.append (fun _ => 0) [65], .readLen (fun _ => 0) 1 none] ∧
      ¬ Always Ledger.step Ledger.IsQueue Ledger.init
        [.append (fun _ => 0) [65], .readLen (fun _ => 0) 1 none] := by
  constructor
  · refine ⟨by decide, ?_⟩
    rintro next ⟨⟩
    exact ⟨by decide, fun _ _ => trivial⟩
  · intro halways
    obtain ⟨last, hlast, _, hdata⟩ := halways.final
    have hlost : (run Ledger.step Ledger.init
        [.append (fun _ => 0) [65], .readLen (fun _ => 0) 1 none]).map
          (fun s => (s.buffer.data, s.arrived, s.consumed)) =
        some ([], [65], 0) := by decide
    rw [hlast] at hlost
    simp only [Option.map_some, Option.some.injEq, Prod.mk.injEq] at hlost
    rw [hlost.1, hlost.2.1, hlost.2.2] at hdata
    cases hdata

/-- The compacting branch of `append` never yields the queue: `high` is read
back after `low` was cleared, so as many stale bytes as `low` had passed stay
between the old data and the new. -/
theorem append_compacting_data {b : Buffer} (hb : b.Valid)
    (junk : Int → UInt8) {buf : List UInt8} (hsize : b.high ≤ b.size)
    (hwrite : b.size < b.high + buf.length)
    (hfree : (buf.length : Int) ≤ b.low + b.size - b.high)
    (hcap : b.high + buf.length ≤ b.capacity) :
    ∃ b', b.append junk buf = some b' ∧ b'.low = 0 ∧
      (b'.data.length : Int) = b.data.length + b.low + buf.length := by
  have hlow := hb.low_nonneg
  have hle := hb.low_le_high
  have hsizeEq := hb.size_eq
  have hlen := hb.dataLen_eq
  have hfreeEq := hb.freeLen_eq
  have hfreeSize := asSize_of_nonneg b.freeLen (by omega) (by omega)
  have hnot : ¬ buf.length ≤ asSize b.writeLen := by
    rcases hb.asSize_writeLen with ⟨_, heq⟩ | ⟨_, _⟩ <;> omega
  have hfits : b.data = [] ∨ (0 ≤ (0 : Int) ∧ 0 + b.data.length ≤
      (b.capacity : Int)) := Or.inr ⟨le_refl 0, by omega⟩
  rw [append, if_neg (by omega), if_neg hnot, if_neg (by omega), copyTo,
    if_pos hfits, Option.bind_some]
  obtain ⟨b', hcopy, hext⟩ := copyTail_extends
    (b := { b with
      mem := overwrite b.mem 0 b.data
      top := if b.data = [] then b.top else max b.top (0 + b.data.length)
      low := 0
      high := b.high - 0 }) buf (le_refl 0)
    (by show 0 ≤ b.high - 0; omega)
    (by show b.high - 0 + buf.length ≤ b.capacity; omega)
    (by show b.high - 0 + buf.length < 2 ^ 31; omega)
  refine ⟨b', hcopy, hext.low_eq, ?_⟩
  rw [data_length, dataLen, hext.low_eq, hext.high_eq]
  show (((b.high - 0 + buf.length - 0).toNat : Nat) : Int) = _
  omega

end Buffer

end Sone

end LinuxTest
