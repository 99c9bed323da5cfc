/-
The byte buffer of `http_server/Buffer.h` and `Buffer.cpp`: a `std::vector` of
4096 chars with two `int` cursors, of which `[low, high)` is the visible data.
The vector only ever grows by `reserve`, so its size and the size of its
allocation are separate fields here.
-/
import LinuxTest.MachineInt
import LinuxTest.Memory
import LinuxTest.Runs

namespace LinuxTest

namespace Sone

/-- `sone::Buffer`.  `mem i` is the byte at `begin() + i`; only the offsets
below `capacity` belong to the allocation, and only those below `size` to the
vector.  `top` is no field of the class: it is the end of the highest store
made so far, kept to speak about the bytes written. -/
structure Buffer where
  mem : Int → UInt8
  size : Nat
  capacity : Nat
  low : Int
  high : Int
  top : Int
  size_le : size ≤ capacity

namespace Buffer

/-- `Buffer::Buffer()`: `_vec(4096, 0), low(0), high(0)`. -/
def init : Buffer where
  mem := fun _ => 0
  size := 4096
  capacity := 4096
  low := 0
  high := 0
  top := 0
  size_le := Nat.le_refl 4096

def freeLen (b : Buffer) : Int :=
  asInt (b.low + b.size - b.high)

def dataLen (b : Buffer) : Int :=
  b.high - b.low

def writeLen (b : Buffer) : Int :=
  asInt (b.size - b.high)

/-- The visible data `[low, high)`. -/
def data (b : Buffer) : List UInt8 :=
  cells b.mem b.low b.dataLen.toNat

/-- The `std::copy` of `values` to `begin() + pos`, or of a kernel read there;
`none` when a byte lands outside the allocation. -/
def copyTo (b : Buffer) (pos : Int) (values : List UInt8) : Option Buffer :=
  if values = [] ∨ (0 ≤ pos ∧ pos + values.length ≤ b.capacity) then
    some { b with
      mem := overwrite b.mem pos values
      top := if values = [] then b.top else max b.top (pos + values.length) }
  else none

/-- `_vec.reserve(n)`: a larger request moves the `size` elements to a fresh
block whose other bytes are unspecified (`junk`), and one above `max_size`
throws. -/
def reserve (b : Buffer) (junk : Int → UInt8) (n : Nat) : Option Buffer :=
  if hn : n ≤ b.capacity then some b
  else if n < 2 ^ 63 then
    some { b with
      mem := fun i => if 0 ≤ i ∧ i < b.size then b.mem i else junk i
      capacity := n
      size_le := by have := b.size_le; omega }
  else none

/-- The copy behind the data that ends every branch of `append`. -/
def copyTail (b : Buffer) (buf : List UInt8) : Option Buffer :=
  (b.copyTo b.high buf).map fun b =>
    { b with high := asInt (b.high + buf.length) }

/-- The request both growing branches make, in `size_t` arithmetic. -/
def growTo (b : Buffer) (len : Nat) : Nat :=
  asSize (b.capacity + asSize (len * 2))

/-- `Buffer::append(const char* buf, size_t len)`. -/
def append (b : Buffer) (junk : Int → UInt8) (buf : List UInt8) :
    Option Buffer :=
  if buf.length = 0 then some b
  else if buf.length ≤ asSize b.writeLen then b.copyTail buf
  else if asSize b.freeLen < buf.length then
    (b.reserve junk (b.growTo buf.length)).bind fun b => b.copyTail buf
  else
    -- `low` is cleared before `dataLen()` is asked for the new `high`
    (b.copyTo 0 b.data).bind fun b =>
      let b := { b with low := 0 }
      let b := { b with high := b.dataLen }
      b.copyTail buf

/-- `Buffer::read(int fd)`.  `result` is what `readv` did: `none` for `-1`,
otherwise the bytes it delivered, first to the writable part and then to
`extrabuf`. -/
def read (b : Buffer) (junk : Int → UInt8) (result : Option (List UInt8)) :
    Option (Buffer × Int) :=
  let len := b.writeLen
  match result with
  | none => some (b, -1)
  | some bytes =>
      (b.copyTo b.high (bytes.take (asSize len))).bind fun b =>
        if (bytes.length : Int) ≤ len then
          some ({ b with high := asInt (b.high + bytes.length) },
            (bytes.length : Int))
        else
          (append { b with high := asInt b.size } junk
            (bytes.drop (asSize len))).map fun b => (b, (bytes.length : Int))

/-- `Buffer::read(int fd, size_t len)`. -/
def readLen (b : Buffer) (junk : Int → UInt8) (len : Nat)
    (result : Option (List UInt8)) : Option (Buffer × Int) :=
  (if asSize b.writeLen < len then b.reserve junk (b.growTo len)
    else some b).bind fun b =>
      match result with
      | none => some ({ b with high := asInt (b.high + -1) }, -1)
      | some bytes => (b.copyTail bytes).map fun b =>
          (b, (bytes.length : Int))

/-- `Buffer::moveLow(size_t n)`, with the `bool` it returns. -/
def moveLow (b : Buffer) (n : Nat) : Buffer × Bool :=
  if asSize (n + b.low) > asSize b.high then (b, false)
  else ({ b with low := asInt (b.low + n) }, true)

/-- One call on a buffer, with what the kernel and the allocator contribute. -/
inductive Op where
  | append (junk : Int → UInt8) (buf : List UInt8)
  | read (junk : Int → UInt8) (result : Option (List UInt8))
  | readLen (junk : Int → UInt8) (len : Nat) (result : Option (List UInt8))
  | moveLow (n : Nat)

/-- The kernel moves at most this many bytes in one call. -/
def maxTransfer : Nat := 0x7ffff000

/-- What the argument types, the allocator and the contracts of `readv` and
`read` allow: a block the call may ask for can be had, the kernel's result
never exceeds the room offered, and `readv` fails when the offered lengths do
not fit `ssize_t`. -/
def Op.Possible (b : Buffer) : Op → Prop
  | .append _ buf => b.capacity + 2 * buf.length < 2 ^ 63
  | .read _ none => True
  | .read _ (some bytes) => asSize b.writeLen + 65536 < 2 ^ 63 ∧
      bytes.length ≤ asSize b.writeLen + 65536 ∧
      bytes.length ≤ maxTransfer ∧ b.capacity + 2 * bytes.length < 2 ^ 63
  | .readLen _ len none => b.capacity + 2 * len < 2 ^ 63
  | .readLen _ len (some bytes) => b.capacity + 2 * len < 2 ^ 63 ∧
      bytes.length ≤ len ∧ bytes.length ≤ maxTransfer
  | .moveLow n => n < 2 ^ 64

instance (b : Buffer) : (op : Op) → Decidable (op.Possible b)
  | .append _ buf =>
      inferInstanceAs (Decidable (b.capacity + 2 * buf.length < 2 ^ 63))
  | .read _ none => inferInstanceAs (Decidable True)
  | .read _ (some _) => inferInstanceAs (Decidable (_ ∧ _ ∧ _ ∧ _))
  | .readLen _ len none =>
      inferInstanceAs (Decidable (b.capacity + 2 * len < 2 ^ 63))
  | .readLen _ _ (some _) => inferInstanceAs (Decidable (_ ∧ _ ∧ _))
  | .moveLow n => inferInstanceAs (Decidable (n < 2 ^ 64))

@[simp] theorem Op.possible_append (b : Buffer) (junk : Int → UInt8)
    (buf : List UInt8) : (Op.append junk buf).Possible b ↔
      b.capacity + 2 * buf.length < 2 ^ 63 := Iff.rfl

/-- The buffer after a call. -/
def perform (b : Buffer) : Op → Option Buffer
  | .append junk buf => b.append junk buf
  | .read junk result => (b.read junk result).map Prod.fst
  | .readLen junk len result => (b.readLen junk len result).map Prod.fst
  | .moveLow n => some (b.moveLow n).1

/-- The bytes a call brings in: those appended or successfully read. -/
def Op.brings : Op → List UInt8
  | .append _ buf => buf
  | .read _ result => result.getD []
  | .readLen _ _ result => result.getD []
  | .moveLow _ => []

/-- The bytes a call takes from the front: those of a successful `moveLow`. -/
def Op.takes (b : Buffer) : Op → Nat
  | .moveLow n => if (b.moveLow n).2 then n else 0
  | _ => 0

end Buffer

end Sone

end LinuxTest
