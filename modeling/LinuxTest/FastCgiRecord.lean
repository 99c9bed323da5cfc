/-
The FastCGI wire format.  A stream is cut into records by the lengths in their
headers, and the PARAMS stream into name-value pairs by the lengths before
them.  Cutting and writing out are inverse to each other.
-/
import Mathlib.Data.List.Basic
import Mathlib.Tactic.Common
import LinuxTest.ByteString

namespace LinuxTest

/-- The two bytes of a 16-bit field, the high one first. -/
def word (high low : UInt8) : Nat :=
  high.toNat * 256 + low.toNat

def highByte (n : Nat) : UInt8 := UInt8.ofNat (n / 256)

def lowByte (n : Nat) : UInt8 := UInt8.ofNat (n % 256)

theorem word_lt (high low : UInt8) : word high low < 65536 := by
  have hhigh := high.toNat_lt
  have hlow := low.toNat_lt
  rw [word]
  omega

@[simp] theorem word_bytes {n : Nat} (hn : n < 65536) :
    word (highByte n) (lowByte n) = n := by
  have hhigh : n / 256 % 256 = n / 256 := Nat.mod_eq_of_lt (by omega)
  simp only [word, highByte, lowByte, UInt8.toNat_ofNat', Nat.reducePow,
    Nat.mod_mod, hhigh]
  omega

@[simp] theorem highByte_word (high low : UInt8) :
    highByte (word high low) = high := by
  have hlow := low.toNat_lt
  have hdiv : word high low / 256 = high.toNat := by
    rw [word]
    omega
  rw [highByte, hdiv, UInt8.ofNat_toNat]

@[simp] theorem lowByte_word (high low : UInt8) :
    lowByte (word high low) = low := by
  have hlow := low.toNat_lt
  have hmod : word high low % 256 = low.toNat := by
    rw [word]
    omega
  rw [lowByte, hmod, UInt8.ofNat_toNat]

/-- A record, within the bounds of its length fields. -/
@[ext] structure FcgiRecord where
  version : UInt8
  type : UInt8
  id : Nat
  content : Bytes
  padding : Bytes
  reserved : UInt8
  id_lt : id < 65536
  content_lt : content.length < 65536
  padding_lt : padding.length < 256

namespace FcgiRecord

def header (r : FcgiRecord) : Bytes :=
  [r.version, r.type, highByte r.id, lowByte r.id,
    highByte r.content.length, lowByte r.content.length,
    UInt8.ofNat r.padding.length, r.reserved]

def encode (r : FcgiRecord) : Bytes :=
  r.header ++ r.content ++ r.padding

theorem length_encode (r : FcgiRecord) :
    r.encode.length = 8 + r.content.length + r.padding.length := by
  simp [encode, header]
  omega

/-- The first record and what follows it. -/
def read : Bytes → Option (FcgiRecord × Bytes)
  | version :: type :: idB1 :: idB0 :: lengthB1 :: lengthB0 :: padding ::
      reserved :: rest =>
      if h : word lengthB1 lengthB0 + padding.toNat ≤ rest.length then
        some (⟨version, type, word idB1 idB0,
          rest.take (word lengthB1 lengthB0),
          (rest.drop (word lengthB1 lengthB0)).take padding.toNat,
          reserved, word_lt idB1 idB0,
          by
            have := word_lt lengthB1 lengthB0
            rw [List.length_take]
            omega,
          by
            have := padding.toNat_lt
            rw [List.length_take]
            omega⟩,
          rest.drop (word lengthB1 lengthB0 + padding.toNat))
      else none
  | _ => none

theorem read_encode_append (r : FcgiRecord) (rest : Bytes) :
    read (r.encode ++ rest) = some (r, rest) := by
  have hpadding : (UInt8.ofNat r.padding.length).toNat = r.padding.length := by
    rw [UInt8.toNat_ofNat']
    exact Nat.mod_eq_of_lt r.padding_lt
  have hlength : r.content.length + r.padding.length ≤
      (r.content ++ (r.padding ++ rest)).length := by
    simp only [List.length_append]
    omega
  simp only [encode, header, List.cons_append, List.nil_append,
    List.append_assoc, read, word_bytes r.id_lt, word_bytes r.content_lt,
    hpadding, hlength, ↓reduceDIte, Option.some.injEq, Prod.mk.injEq]
  constructor
  · ext1 <;> simp
  · rw [← List.drop_drop, List.drop_left, List.drop_left]

theorem encode_append_of_read {bytes rest : Bytes} {r : FcgiRecord}
    (hread : read bytes = some (r, rest)) : bytes = r.encode ++ rest := by
  rw [read.eq_def] at hread
  split at hread
  · case h_1 version type idB1 idB0 lengthB1 lengthB0 padding reserved tail =>
      split at hread
      · case isTrue hfits =>
          cases hread
          have hlength : (tail.take (word lengthB1 lengthB0)).length =
              word lengthB1 lengthB0 := by
            rw [List.length_take]
            omega
          have hpadding :
              ((tail.drop (word lengthB1 lengthB0)).take
                padding.toNat).length = padding.toNat := by
            rw [List.length_take, List.length_drop]
            omega
          simp only [encode, header, hlength, hpadding, highByte_word,
            lowByte_word, UInt8.ofNat_toNat, List.cons_append,
            List.nil_append, List.append_assoc, ← List.drop_drop,
            List.take_append_drop]
      · cases hread
  · cases hread

theorem encode_append_inj {r r' : FcgiRecord} {rest rest' : Bytes}
    (heq : r.encode ++ rest = r'.encode ++ rest') : r = r' ∧ rest = rest' := by
  have hread := read_encode_append r rest
  rw [heq, read_encode_append] at hread
  simpa [eq_comm] using hread

/-- Cut into records, as many as `fuel` at most. -/
def splitWith : Nat → Bytes → Option (List FcgiRecord)
  | _, [] => some []
  | 0, _ :: _ => none
  | fuel + 1, head :: tail => (read (head :: tail)).bind fun first =>
      (splitWith fuel first.2).map fun records => first.1 :: records

/-- The records of a stream; none where its end cuts a record. -/
def split (bytes : Bytes) : Option (List FcgiRecord) :=
  splitWith bytes.length bytes

theorem splitWith_flatMap (records : List FcgiRecord) {fuel : Nat}
    (hfuel : records.length ≤ fuel) :
    splitWith fuel (records.flatMap encode) = some records := by
  induction records generalizing fuel with
  | nil =>
      rw [List.flatMap_nil]
      cases fuel <;> rfl
  | cons first rest ih =>
      obtain ⟨more, rfl⟩ : ∃ more, fuel = more + 1 :=
        ⟨fuel - 1, (Nat.sub_add_cancel (Nat.one_le_of_lt hfuel)).symm⟩
      have hhead : ∃ head tail, (first :: rest).flatMap encode =
          head :: tail := ⟨_, _, rfl⟩
      obtain ⟨head, tail, hcons⟩ := hhead
      have hread := read_encode_append first (rest.flatMap encode)
      rw [List.flatMap_cons] at hcons
      rw [List.flatMap_cons, hcons, splitWith, ← hcons, hread]
      simp only [Option.bind_some, ih (Nat.le_of_succ_le_succ hfuel)]
      rfl

theorem flatMap_of_splitWith {fuel : Nat} {bytes : Bytes}
    {records : List FcgiRecord} (hsplit : splitWith fuel bytes = some records) :
    bytes = records.flatMap encode := by
  induction fuel generalizing bytes records with
  | zero =>
      cases bytes with
      | nil =>
          cases hsplit
          rfl
      | cons head tail => cases hsplit
  | succ fuel ih =>
      cases bytes with
      | nil =>
          cases hsplit
          rfl
      | cons head tail =>
          rw [splitWith, Option.bind_eq_some_iff] at hsplit
          obtain ⟨⟨first, rest⟩, hread, hsplit⟩ := hsplit
          obtain ⟨more, hmore, hrecords⟩ := Option.map_eq_some_iff.mp hsplit
          rw [← hrecords, List.flatMap_cons, ← ih hmore]
          exact encode_append_of_read hread

/-- Cutting gives exactly the records whose texts make up the stream. -/
theorem split_eq_some_iff {bytes : Bytes} {records : List FcgiRecord} :
    split bytes = some records ↔ bytes = records.flatMap encode := by
  constructor
  · exact flatMap_of_splitWith
  · intro hbytes
    subst hbytes
    apply splitWith_flatMap
    induction records with
    | nil => exact Nat.zero_le _
    | cons first rest ih =>
        have hfirst := first.length_encode
        simp only [List.flatMap_cons, List.length_append, List.length_cons]
        omega

/-- A stream that starts with whole records is cut there. -/
theorem starts_of_flatMap_append {known records : List FcgiRecord}
    {tail : Bytes}
    (heq : known.flatMap encode ++ tail = records.flatMap encode) :
    ∃ rest, records = known ++ rest ∧ tail = rest.flatMap encode := by
  induction known generalizing records with
  | nil => exact ⟨records, rfl, heq⟩
  | cons first more ih =>
      cases records with
      | nil =>
          have hlength := congrArg List.length heq
          have hfirst := first.length_encode
          simp only [List.flatMap_cons, List.length_append, List.flatMap_nil,
            List.length_nil] at hlength
          omega
      | cons head others =>
          rw [List.flatMap_cons, List.flatMap_cons, List.append_assoc]
            at heq
          obtain ⟨rfl, hrest⟩ := encode_append_inj heq
          obtain ⟨rest, rfl, htail⟩ := ih hrest
          exact ⟨rest, rfl, htail⟩

end FcgiRecord

/-- The length before a name or a value: one byte below 128, else four bytes
with the highest bit set. -/
def readLength : Bytes → Option (Nat × Bytes)
  | [] => none
  | b3 :: rest =>
      if b3.toNat < 128 then some (b3.toNat, rest)
      else match rest with
        | b2 :: b1 :: b0 :: rest =>
            some (b3.toNat % 128 * 16777216 + b2.toNat * 65536 +
              b1.toNat * 256 + b0.toNat, rest)
        | _ => none

/-- The first name-value pair and what follows it. -/
def readPair (bytes : Bytes) : Option ((Bytes × Bytes) × Bytes) := do
  let (nameLength, rest) ← readLength bytes
  let (valueLength, rest) ← readLength rest
  if nameLength + valueLength ≤ rest.length then
    some ((rest.take nameLength, (rest.drop nameLength).take valueLength),
      rest.drop (nameLength + valueLength))
  else none

def pairsWith : Nat → Bytes → Option (List (Bytes × Bytes))
  | _, [] => some []
  | 0, _ :: _ => none
  | fuel + 1, head :: tail => (readPair (head :: tail)).bind fun first =>
      (pairsWith fuel first.2).map fun pairs => first.1 :: pairs

/-- The name-value pairs of a PARAMS stream. -/
def readPairs (bytes : Bytes) : Option (List (Bytes × Bytes)) :=
  pairsWith bytes.length bytes

/-- Two lengths, then the two texts. -/
theorem readPair_eq {bytes rest : Bytes} {name value : Bytes}
    {afterName : Bytes}
    (hname : readLength bytes = some (name.length, afterName))
    (hvalue : readLength afterName =
      some (value.length, name ++ (value ++ rest))) :
    readPair bytes = some ((name, value), rest) := by
  have hlength : name.length + value.length ≤
      (name ++ (value ++ rest)).length := by
    simp only [List.length_append]
    omega
  simp only [readPair, hname, hvalue, Option.bind_eq_bind, Option.bind_some,
    hlength, ↓reduceIte, List.take_left, List.drop_left, ← List.drop_drop]

section Pairs

variable {write : Bytes × Bytes → Bytes}

theorem pairsWith_flatMap {pairs : List (Bytes × Bytes)} {fuel : Nat}
    (hread : ∀ pair ∈ pairs, ∀ rest,
      readPair (write pair ++ rest) = some (pair, rest))
    (hfuel : pairs.length ≤ fuel) :
    pairsWith fuel (pairs.flatMap write) = some pairs := by
  induction pairs generalizing fuel with
  | nil =>
      rw [List.flatMap_nil]
      cases fuel <;> rfl
  | cons first more ih =>
      obtain ⟨left, rfl⟩ : ∃ left, fuel = left + 1 :=
        ⟨fuel - 1, (Nat.sub_add_cancel (Nat.one_le_of_lt hfuel)).symm⟩
      have hfirst := hread first List.mem_cons_self (more.flatMap write)
      have hmore := ih
        (fun pair hpair => hread pair (List.mem_cons_of_mem first hpair))
        (Nat.le_of_succ_le_succ hfuel)
      rw [List.flatMap_cons]
      cases hbytes : write first ++ more.flatMap write with
      | nil =>
          rw [hbytes] at hfirst
          cases hfirst
      | cons head tail =>
          rw [pairsWith, ← hbytes, hfirst, Option.bind_some, hmore]
          rfl

/-- Pairs written one after another are read back. -/
theorem readPairs_flatMap {pairs : List (Bytes × Bytes)}
    (hread : ∀ pair ∈ pairs, ∀ rest,
      readPair (write pair ++ rest) = some (pair, rest)) :
    readPairs (pairs.flatMap write) = some pairs := by
  apply pairsWith_flatMap hread
  induction pairs with
  | nil => exact Nat.zero_le _
  | cons first more ih =>
      have hmore := ih fun pair hpair =>
        hread pair (List.mem_cons_of_mem first hpair)
      have hfirst := hread first List.mem_cons_self []
      have hne : write first ≠ [] := by
        intro hnil
        rw [hnil] at hfirst
        cases hfirst
      have hpos := List.length_pos_iff.mpr hne
      simp only [List.flatMap_cons, List.length_append, List.length_cons]
      omega

end Pairs

end LinuxTest
