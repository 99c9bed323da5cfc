/-
`encode` of `test/test.cpp`, which collects bytes in `split3` and writes them
out three at a time, against Base64 itself.
-/
import LinuxTest.Base64
import Mathlib.Data.Nat.Basic

namespace LinuxTest

namespace TestEncode

/-! ### The program -/

/-- The literal with its terminating zero. -/
def table : Bytes :=
  lit "ABCDEFGHIJKLMNOPQRSTUVWXYZabcdefghijklmnopqrstuvwxyz0123456789+/" ++
    [0]

/-- `Convert`; `none` outside the table. -/
def convert (c : UInt8) : Option UInt8 :=
  table[c.toNat]?

/-- `ret += Convert(split4[j])` for each `j` in turn. -/
def append (ret split4 : Bytes) : Option Bytes :=
  (split4.mapM convert).map fun text => ret ++ text

/-- The `split4` of a full `split3`. -/
def splitFull (a b c : UInt8) : Bytes :=
  [UInt8.ofNat ((a.toNat &&& 0xfc) >>> 2),
    UInt8.ofNat (((a.toNat &&& 0x03) <<< 4) + ((b.toNat &&& 0xf0) >>> 4)),
    UInt8.ofNat (((b.toNat &&& 0x0f) <<< 2) + ((c.toNat &&& 0xc0) >>> 6)),
    UInt8.ofNat (c.toNat &&& 0x3f)]

/-- The `split4` after the loop, for `i == 1`. -/
def splitOne (a : UInt8) : Bytes :=
  [UInt8.ofNat ((a.toNat &&& 0xfc) >>> 2),
    UInt8.ofNat ((a.toNat &&& 0x03) <<< 4)]

/-- The `split4` after the loop, for `i == 2`. -/
def splitTwo (a b : UInt8) : Bytes :=
  [UInt8.ofNat ((a.toNat &&& 0xfc) >>> 2),
    UInt8.ofNat (((a.toNat &&& 0x03) <<< 4) + ((b.toNat &&& 0xf0) >>> 4)),
    UInt8.ofNat ((b.toNat &&& 0x0f) <<< 2)]

/-- What is done with the first `i` bytes of `split3` after the loop. -/
def finish (split3 ret : Bytes) : Option Bytes :=
  match split3 with
  | [a] => (append ret (splitOne a)).map fun ret => ret ++ [61, 61]
  | [a, b] => (append ret (splitTwo a b)).map fun ret => ret ++ [61]
  | _ => some ret

/-- `while(buflen--)`, with the first `i` bytes of `split3`. -/
def encodeLoop : Bytes → Bytes → Bytes → Option Bytes
  | [], split3, ret => finish split3 ret
  | byte :: buf, split3, ret =>
      match split3 ++ [byte] with
      | [a, b, c] => (append ret (splitFull a b c)).bind fun ret =>
          encodeLoop buf [] ret
      | split3 => encodeLoop buf split3 ret

/-- `encode`; `none` when it leaves the buffer or the table. -/
def encode (buf : Bytes) (buflen : Nat) : Option Bytes :=
  if buflen ≤ buf.length then encodeLoop (buf.take buflen) [] [] else none

/-! ### The masks -/

theorem mask_high (a : UInt8) : (a.toNat &&& 0xfc) >>> 2 = a.toNat / 4 := by
  have ha := a.toNat_lt
  have hmask : (0xfc : Nat) >>> 2 = 2 ^ 6 - 1 := rfl
  rw [Nat.shiftRight_and_distrib, hmask, Nat.and_two_pow_sub_one_eq_mod,
    Nat.shiftRight_eq_div_pow]
  omega

theorem mask_low_two (a : UInt8) :
    (a.toNat &&& 0x03) <<< 4 = a.toNat % 4 * 16 := by
  have hmask : (0x03 : Nat) = 2 ^ 2 - 1 := rfl
  rw [hmask, Nat.and_two_pow_sub_one_eq_mod, Nat.shiftLeft_eq]

theorem mask_high_four (b : UInt8) :
    (b.toNat &&& 0xf0) >>> 4 = b.toNat / 16 := by
  have hb := b.toNat_lt
  have hmask : (0xf0 : Nat) >>> 4 = 2 ^ 4 - 1 := rfl
  rw [Nat.shiftRight_and_distrib, hmask, Nat.and_two_pow_sub_one_eq_mod,
    Nat.shiftRight_eq_div_pow]
  omega

theorem mask_low_four (b : UInt8) :
    (b.toNat &&& 0x0f) <<< 2 = b.toNat % 16 * 4 := by
  have hmask : (0x0f : Nat) = 2 ^ 4 - 1 := rfl
  rw [hmask, Nat.and_two_pow_sub_one_eq_mod, Nat.shiftLeft_eq]

theorem mask_high_two (c : UInt8) :
    (c.toNat &&& 0xc0) >>> 6 = c.toNat / 64 := by
  have hc := c.toNat_lt
  have hmask : (0xc0 : Nat) >>> 6 = 2 ^ 2 - 1 := rfl
  rw [Nat.shiftRight_and_distrib, hmask, Nat.and_two_pow_sub_one_eq_mod,
    Nat.shiftRight_eq_div_pow]
  omega

theorem mask_low_six (c : UInt8) : c.toNat &&& 0x3f = c.toNat % 64 := by
  have hmask : (0x3f : Nat) = 2 ^ 6 - 1 := rfl
  rw [hmask, Nat.and_two_pow_sub_one_eq_mod]

theorem splitFull_eq (a b c : UInt8) :
    splitFull a b c = (Base64.sextets a b c).map UInt8.ofNat := by
  rw [splitFull, mask_high, mask_low_two, mask_high_four, mask_low_four,
    mask_high_two, mask_low_six]
  rfl

theorem splitTwo_eq (a b : UInt8) :
    splitTwo a b = ((Base64.sextets a b 0).take 3).map UInt8.ofNat := by
  rw [splitTwo, mask_high, mask_low_two, mask_high_four, mask_low_four]
  rfl

theorem splitOne_eq (a : UInt8) :
    splitOne a = ((Base64.sextets a 0 0).take 2).map UInt8.ofNat := by
  rw [splitOne, mask_high, mask_low_two]
  rfl

/-! ### The loop -/

/-- The table holds the symbols in their order. -/
theorem convert_ofNat {v : Nat} (hv : v < 64) :
    convert (UInt8.ofNat v) = some (Base64.symbol v) := by
  have hall : ∀ v : Fin 64,
      convert (UInt8.ofNat v) = some (Base64.symbol v) := by
    decide +kernel
  exact hall ⟨v, hv⟩

theorem append_eq (ret : Bytes) {vs : List Nat} (hvs : ∀ v ∈ vs, v < 64) :
    append ret (vs.map UInt8.ofNat) = some (ret ++ vs.map Base64.symbol) := by
  have hmap : (vs.map UInt8.ofNat).mapM convert =
      some (vs.map Base64.symbol) := by
    induction vs with
    | nil => rfl
    | cons v rest ih =>
        have hrest := ih fun w hw => hvs w (List.mem_cons_of_mem v hw)
        rw [List.map_cons, List.mapM_cons, hrest,
          convert_ofNat (hvs v List.mem_cons_self)]
        rfl
  rw [append, hmap]
  rfl

theorem encodeLoop_eq (bytes ret : Bytes) :
    encodeLoop bytes [] ret = some (ret ++ Base64.encode bytes) := by
  induction bytes using Base64.encode.induct generalizing ret with
  | case1 => rw [Base64.encode, List.append_nil]; rfl
  | case2 a =>
      change (append ret (splitOne a)).map _ = _
      rw [splitOne_eq, append_eq ret fun v hv =>
        Base64.sextets_lt (List.mem_of_mem_take hv), Base64.encode,
        ← List.append_assoc]
      rfl
  | case3 a b =>
      change (append ret (splitTwo a b)).map _ = _
      rw [splitTwo_eq, append_eq ret fun v hv =>
        Base64.sextets_lt (List.mem_of_mem_take hv), Base64.encode,
        ← List.append_assoc]
      rfl
  | case4 a b c rest ih =>
      change (append ret (splitFull a b c)).bind _ = _
      rw [splitFull_eq, append_eq ret fun v hv => Base64.sextets_lt hv,
        Option.bind_some, ih, Base64.encode, List.append_assoc]

theorem encode_eq (bytes : Bytes) :
    encode bytes bytes.length = some (Base64.encode bytes) := by
  rw [encode, if_pos (le_refl _), List.take_length, encodeLoop_eq,
    List.nil_append]

/-- What is written for a byte string: four symbols for each three bytes that
are begun, with at most two signs of padding at the end, and it is read back as
the same bytes. -/
theorem encode_decode (bytes : Bytes) : ∃ text,
    encode bytes bytes.length = some text ∧
    text.length = 4 * ((bytes.length + 2) / 3) ∧
    (∃ symbols n, text = symbols ++ List.replicate n Base64.pad ∧ n ≤ 2 ∧
      ∀ c ∈ symbols, Base64.IsSymbol c) ∧
    Base64.decode text = some bytes :=
  ⟨_, encode_eq bytes, Base64.length_encode bytes, Base64.encode_form bytes,
    Base64.decode_encode bytes⟩

end TestEncode

end LinuxTest
