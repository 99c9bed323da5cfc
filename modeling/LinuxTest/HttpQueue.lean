/-
The reading interface of `Buffer` and the byte queue that its header documents.
The parser is modelled over the queue; each reading operation of a valid buffer
is shown to be the queue operation on its visible data.
-/
import LinuxTest.ByteString
import LinuxTest.HttpBufferQueue

namespace LinuxTest

namespace Sone

/-- What can end a call without a value: a `std::string` built from `nullptr`
(which throws), or an access outside the data of the buffer. -/
inductive Raise where
  | nullString | outOfData
deriving DecidableEq, Repr

namespace Buffer

/-- `Buffer::findChar(char c, size_t pos)`. -/
def findChar (b : Buffer) (c : UInt8) (pos : Nat) : Int :=
  let len := asSize b.dataLen
  if pos < len then
    let p := pos + (cells b.mem (b.low + pos) (len - pos)).idxOf c
    if p ≠ len then p else -1
  else -1

/-- `Buffer::findChar(char c, size_t begin, size_t end)`. -/
def findCharIn (b : Buffer) (c : UInt8) (first last : Nat) : Int :=
  if first ≥ last ∨ last > asSize b.dataLen then -1
  else
    let p := first +
      (cells b.mem (b.low + first) (last - first)).idxOf c
    if p ≠ last then p else -1

/-- `Buffer::getDataToString(size_t n, size_t pos)`; `none` is the return of
`nullptr` as a `std::string`. -/
def getDataToString (b : Buffer) (n pos : Nat) : Option Bytes :=
  if n > asSize (b.dataLen - pos) then none
  else some (cells b.mem (b.low + pos) n)

end Buffer

namespace Queue

/-- The position of the first `c` from `pos` on, or `-1`. -/
def findChar (q : Bytes) (c : UInt8) (pos : Nat) : Int :=
  if pos < q.length then
    let p := pos + (q.drop pos).idxOf c
    if p ≠ q.length then p else -1
  else -1

/-- The position of the first `c` in `[first, last)`, or `-1`. -/
def findCharIn (q : Bytes) (c : UInt8) (first last : Int) : Int :=
  if first ≥ last ∨ first < 0 ∨ last > q.length then -1
  else
    let p := first.toNat +
      ((q.drop first.toNat).take (last - first).toNat).idxOf c
    if (p : Int) ≠ last then p else -1

/-- `n` bytes at offset `pos`.  A negative `n` reaches the code as a `size_t`
beyond every data length. -/
def getDataToString (q : Bytes) (n pos : Int) : Except Raise Bytes :=
  if pos < 0 ∨ pos > q.length then .error .outOfData
  else if n < 0 ∨ n > q.length - pos then .error .nullString
  else .ok ((q.drop pos.toNat).take n.toNat)

/-- Drop `n` bytes from the front, if there are that many. -/
def moveLow (q : Bytes) (n : Int) : Bytes × Bool :=
  if n > q.length then (q, false) else (q.drop n.toNat, true)

/-- The byte at offset `i`, read through `peek() + i`. -/
def byteAt (q : Bytes) (i : Int) : Except Raise UInt8 :=
  if i < 0 then .error .outOfData
  else match q[i.toNat]? with
    | none => .error .outOfData
    | some byte => .ok byte

end Queue

namespace Buffer

theorem Valid.asSize_dataLen {b : Buffer} (hb : b.Valid) :
    asSize b.dataLen = b.data.length := by
  have hlow := hb.low_nonneg
  have hle := hb.low_le_high
  have hlt := hb.high_lt
  have hlen := hb.dataLen_eq
  have hsize := asSize_of_nonneg b.dataLen
    (by rw [dataLen]; omega) (by rw [dataLen]; omega)
  rw [dataLen] at hsize ⊢
  omega

theorem data_drop (b : Buffer) {pos : Nat}
    (hpos : pos ≤ b.data.length) :
    b.data.drop pos = cells b.mem (b.low + pos) (b.data.length - pos) := by
  rw [data_length] at hpos ⊢
  exact cells_drop b.mem b.low hpos

theorem findChar_eq_queue {b : Buffer} (hb : b.Valid) (c : UInt8)
    (pos : Nat) : b.findChar c pos = Queue.findChar b.data c pos := by
  simp only [findChar, Queue.findChar, hb.asSize_dataLen]
  by_cases hpos : pos < b.data.length
  · rw [if_pos hpos, if_pos hpos, b.data_drop (Nat.le_of_lt hpos)]
  · rw [if_neg hpos, if_neg hpos]

theorem findCharIn_eq_queue {b : Buffer} (hb : b.Valid) (c : UInt8)
    (first last : Nat) :
    b.findCharIn c first last = Queue.findCharIn b.data c first last := by
  simp only [findCharIn, Queue.findCharIn, hb.asSize_dataLen]
  by_cases hout : first ≥ last ∨ last > b.data.length
  · have hout' : (first : Int) ≥ last ∨ (first : Int) < 0 ∨
        (last : Int) > b.data.length := by omega
    rw [if_pos hout, if_pos hout']
  · have hin : ¬ ((first : Int) ≥ last ∨ (first : Int) < 0 ∨
        (last : Int) > b.data.length) := by omega
    have hle : first ≤ b.data.length := by omega
    have hcount : ((last : Int) - first).toNat = last - first := by omega
    rw [if_neg hout, if_neg hin, Int.toNat_natCast, b.data_drop hle,
      hcount, cells_take b.mem _ (by omega)]
    simp only [Nat.cast_inj, ne_eq]

/-- At an offset inside the data, `getDataToString` on the buffer and on the
queue agree, for every signed length the parser can compute. -/
theorem getDataToString_eq_queue {b : Buffer} (hb : b.Valid) {n : Int}
    (hmin : -2 ^ 31 ≤ n) (hmax : n < 2 ^ 31) {pos : Nat}
    (hpos : pos ≤ b.data.length) :
    b.getDataToString (asSize n) pos =
      (Queue.getDataToString b.data n pos).toOption := by
  have hlow := hb.low_nonneg
  have hle := hb.low_le_high
  have hlt := hb.high_lt
  have hlen := hb.dataLen_eq
  have hdata : b.dataLen = b.high - b.low := rfl
  have hroom := asSize_of_nonneg (b.dataLen - pos) (by omega)
    (by omega)
  have hin : ¬ ((pos : Int) < 0 ∨ (pos : Int) > b.data.length) := by omega
  simp only [getDataToString, Queue.getDataToString, if_neg hin]
  by_cases hfit : 0 ≤ n ∧ n ≤ b.data.length - pos
  · have hn := asSize_of_nonneg n (by omega) (by omega)
    have hcount : asSize n = n.toNat := by omega
    have hover : ¬ asSize n > asSize (b.dataLen - pos) := by omega
    have hok : ¬ (n < 0 ∨ n > b.data.length - pos) := by omega
    rw [if_neg hover, if_neg hok, Int.toNat_natCast,
      b.data_drop hpos, cells_take b.mem _ (by omega), hcount]
    rfl
  · -- too long, or negative and so a huge `size_t`
    have hover : asSize n > asSize (b.dataLen - pos) := by
      by_cases hneg : n < 0
      · have := asSize_of_neg n (by omega) hneg
        omega
      · have := asSize_of_nonneg n (by omega) (by omega)
        omega
    have hbad : n < 0 ∨ n > b.data.length - pos := by omega
    rw [if_pos hover, if_pos hbad]
    rfl

theorem moveLow_eq_queue {b : Buffer} (hb : b.Valid) {n : Nat}
    (hn : n + b.low < 2 ^ 64) :
    ((b.moveLow n).1.data, (b.moveLow n).2) = Queue.moveLow b.data n := by
  have hlen := hb.dataLen_eq
  rw [moveLow_eq hb hn, Queue.moveLow]
  by_cases hfit : (n : Int) ≤ b.high - b.low
  · rw [if_pos hfit, if_neg (by omega), data_moveLow hb hfit,
      Int.toNat_natCast]
  · rw [if_neg hfit, if_pos (by omega)]

end Buffer

namespace Queue

/-! ### Searching a line by its text -/

theorem findChar_line {line : Bytes} {c : UInt8} (hline : c ∉ line)
    (rest : Bytes) : findChar (line ++ c :: rest) c 0 = line.length := by
  rw [findChar, if_pos (by simp), List.drop_zero,
    idxOf_append_cons hline, if_pos (by simp)]
  simp

theorem findChar_eq_neg_one {q : Bytes} {c : UInt8} (hq : c ∉ q) :
    findChar q c 0 = -1 := by
  rw [findChar]
  split
  · rw [List.drop_zero, List.idxOf_eq_length hq, if_neg (by simp)]
  · rfl

/-- Searching a stretch that does not hold the byte. -/
theorem findCharIn_absent {q : Bytes} (before text after : Bytes)
    (hq : q = before ++ text ++ after) {first last : Int}
    (hfirst : first = before.length)
    (hlast : last = before.length + text.length) {c : UInt8}
    (hnot : c ∉ text) : findCharIn q c first last = -1 := by
  subst hq hfirst hlast
  have hstretch : ((before ++ text ++ after).drop before.length).take
      text.length = text := by
    rw [List.append_assoc, List.drop_left, List.take_left]
  rw [findCharIn]
  split
  · rfl
  · simp only [Int.toNat_natCast, add_sub_cancel_left, hstretch]
    rw [List.idxOf_eq_length hnot, if_neg (by simp)]

/-- Searching a stretch whose first `c` stands behind `found`. -/
theorem findCharIn_found {q : Bytes} (before found rest after : Bytes)
    {c : UInt8} (hq : q = before ++ (found ++ c :: rest) ++ after)
    {first last : Int} (hfirst : first = before.length)
    (hlast : last = before.length + found.length + 1 + rest.length)
    (hnot : c ∉ found) :
    findCharIn q c first last = before.length + found.length := by
  subst hq hfirst hlast
  have hcount : ((before.length : Int) + found.length + 1 + rest.length -
      before.length).toNat = (found ++ c :: rest).length := by
    simp only [List.length_append, List.length_cons]
    omega
  have hstretch : ((before ++ (found ++ c :: rest) ++ after).drop
      before.length).take (found ++ c :: rest).length =
        found ++ c :: rest := by
    rw [List.append_assoc, List.drop_left, List.take_left]
  rw [findCharIn, if_neg (by
    simp only [List.length_append, List.length_cons]
    omega)]
  simp only [Int.toNat_natCast, hcount, hstretch]
  rw [idxOf_append_cons hnot, if_pos (by omega)]
  simp

/-- What is found lies in the stretch, and the stretch in the data. -/
theorem findCharIn_bounds {q : Bytes} {c : UInt8} {first last index : Int}
    (hindex : findCharIn q c first last = index) (hfound : ¬index < 0) :
    first ≤ index ∧ index < last ∧ last ≤ q.length := by
  subst hindex
  rw [findCharIn] at hfound ⊢
  split at hfound
  · omega
  · rename_i hin
    simp only [] at hfound ⊢
    split at hfound
    · rename_i hne
      have hidx := List.idxOf_le_length (a := c)
        (l := (q.drop first.toNat).take (last - first).toNat)
      simp only [List.length_take, List.length_drop] at hidx
      rw [if_pos hne]
      omega
    · omega

theorem getDataToString_text {q : Bytes} (before text after : Bytes)
    (hq : q = before ++ text ++ after) {n pos : Int}
    (hn : n = text.length) (hpos : pos = before.length) :
    getDataToString q n pos = .ok text := by
  subst hq hn hpos
  rw [getDataToString,
    if_neg (by simp only [List.length_append]; omega),
    if_neg (by simp only [List.length_append]; omega), Int.toNat_natCast,
    Int.toNat_natCast, List.append_assoc, List.drop_left, List.take_left]

/-- A negative length is refused at every offset inside the data. -/
theorem getDataToString_neg {q : Bytes} {n pos : Int} (hn : n < 0)
    (hpos : 0 ≤ pos) (hle : pos ≤ q.length) :
    getDataToString q n pos = .error .nullString := by
  rw [getDataToString, if_neg (by omega), if_pos (Or.inl hn)]

theorem moveLow_text {q : Bytes} (before after : Bytes)
    (hq : q = before ++ after) {n : Int} (hn : n = before.length) :
    moveLow q n = (after, true) := by
  subst hq hn
  rw [moveLow, if_neg (by simp only [List.length_append]; omega),
    Int.toNat_natCast, List.drop_left]

end Queue

end Sone

end LinuxTest
