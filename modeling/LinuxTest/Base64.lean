/-
Base64 with the standard alphabet and padding: bytes in groups of three are
written as four symbols of six bits each, and read back.
-/
import LinuxTest.ByteString

namespace LinuxTest

namespace Base64

/-! ### The alphabet -/

/-- The sign that fills up the last group. -/
def pad : UInt8 := 61

/-- The symbol for six bits. -/
def symbol (v : Nat) : UInt8 :=
  if v < 26 then UInt8.ofNat (65 + v)
  else if v < 52 then UInt8.ofNat (71 + v)
  else if v < 62 then UInt8.ofNat (v - 4)
  else if v = 62 then 43
  else 47

/-- The six bits a symbol stands for. -/
def value (c : UInt8) : Option Nat :=
  if 65 ≤ c ∧ c ≤ 90 then some (c.toNat - 65)
  else if 97 ≤ c ∧ c ≤ 122 then some (c.toNat - 71)
  else if 48 ≤ c ∧ c ≤ 57 then some (c.toNat + 4)
  else if c = 43 then some 62
  else if c = 47 then some 63
  else none

/-- A symbol of the alphabet; the padding is none. -/
def IsSymbol (c : UInt8) : Prop :=
  (value c).isSome

instance (c : UInt8) : Decidable (IsSymbol c) :=
  inferInstanceAs (Decidable (_ = true))

@[simp] theorem value_symbol {v : Nat} (hv : v < 64) :
    value (symbol v) = some v := by
  have hall : ∀ v : Fin 64, value (symbol v) = some v.val := by decide
  exact hall ⟨v, hv⟩

theorem isSymbol_symbol {v : Nat} (hv : v < 64) : IsSymbol (symbol v) := by
  rw [IsSymbol, value_symbol hv]
  rfl

theorem not_isSymbol_pad : ¬ IsSymbol pad := by decide

theorem IsSymbol.ne_pad {c : UInt8} (hc : IsSymbol c) : c ≠ pad := by
  rintro rfl
  exact not_isSymbol_pad hc

/-! ### Groups -/

/-- Three bytes as four times six bits. -/
def sextets (a b c : UInt8) : List Nat :=
  [a.toNat / 4, a.toNat % 4 * 16 + b.toNat / 16,
    b.toNat % 16 * 4 + c.toNat / 64, c.toNat % 64]

theorem sextets_lt {a b c : UInt8} {v : Nat} (hv : v ∈ sextets a b c) :
    v < 64 := by
  have ha := a.toNat_lt
  have hb := b.toNat_lt
  have hc := c.toNat_lt
  simp only [sextets, List.mem_cons, List.not_mem_nil, or_false] at hv
  omega

/-- One byte takes the first two of its sextets, two bytes the first three. -/
def encode : Bytes → Bytes
  | [] => []
  | [a] => ((sextets a 0 0).take 2).map symbol ++ [pad, pad]
  | [a, b] => ((sextets a b 0).take 3).map symbol ++ [pad]
  | a :: b :: c :: rest => (sextets a b c).map symbol ++ encode rest

/-- Reading stops at anything that no bytes are written as. -/
def decode : Bytes → Option Bytes
  | [] => some []
  | s :: t :: u :: w :: rest =>
      if w = pad then
        if rest ≠ [] then none
        else if u = pad then
          (value s).bind fun x => (value t).bind fun y =>
            if y % 16 = 0 then some [UInt8.ofNat (x * 4 + y / 16)] else none
        else
          (value s).bind fun x => (value t).bind fun y =>
            (value u).bind fun z =>
              if z % 4 = 0 then
                some [UInt8.ofNat (x * 4 + y / 16),
                  UInt8.ofNat (y % 16 * 16 + z / 4)]
              else none
      else
        (value s).bind fun x => (value t).bind fun y =>
          (value u).bind fun z => (value w).bind fun v =>
            (decode rest).map fun bytes =>
              UInt8.ofNat (x * 4 + y / 16) ::
                UInt8.ofNat (y % 16 * 16 + z / 4) ::
                UInt8.ofNat (z % 4 * 64 + v) :: bytes
  | _ => none

/-- The symbols of a group are read back. -/
theorem value_first (a : UInt8) :
    value (symbol (a.toNat / 4)) = some (a.toNat / 4) := by
  have ha := a.toNat_lt
  exact value_symbol (by omega)

theorem value_second (a : UInt8) {b : Nat} (hb : b < 256) :
    value (symbol (a.toNat % 4 * 16 + b / 16)) =
      some (a.toNat % 4 * 16 + b / 16) :=
  value_symbol (by omega)

theorem value_third (b : UInt8) {c : Nat} (hc : c < 256) :
    value (symbol (b.toNat % 16 * 4 + c / 64)) =
      some (b.toNat % 16 * 4 + c / 64) :=
  value_symbol (by omega)

/-- The bytes of a group are put together again from its sextets. -/
theorem first_byte (a : UInt8) {b : Nat} (hb : b < 256) :
    UInt8.ofNat (a.toNat / 4 * 4 + (a.toNat % 4 * 16 + b / 16) / 16) = a := by
  have hsum : a.toNat / 4 * 4 + (a.toNat % 4 * 16 + b / 16) / 16 =
      a.toNat := by
    omega
  rw [hsum, UInt8.ofNat_toNat]

theorem second_byte (a b : UInt8) {c : Nat} (hc : c < 256) :
    UInt8.ofNat ((a.toNat % 4 * 16 + b.toNat / 16) % 16 * 16 +
      (b.toNat % 16 * 4 + c / 64) / 4) = b := by
  have hb := b.toNat_lt
  have hsum : (a.toNat % 4 * 16 + b.toNat / 16) % 16 * 16 +
      (b.toNat % 16 * 4 + c / 64) / 4 = b.toNat := by
    omega
  rw [hsum, UInt8.ofNat_toNat]

theorem third_byte (b c : UInt8) :
    UInt8.ofNat ((b.toNat % 16 * 4 + c.toNat / 64) % 4 * 64 +
      c.toNat % 64) = c := by
  have hc := c.toNat_lt
  have hsum : (b.toNat % 16 * 4 + c.toNat / 64) % 4 * 64 + c.toNat % 64 =
      c.toNat := by
    omega
  rw [hsum, UInt8.ofNat_toNat]

theorem decode_encode (bytes : Bytes) : decode (encode bytes) = some bytes := by
  induction bytes using encode.induct with
  | case1 => rfl
  | case2 a =>
      change decode [symbol (a.toNat / 4),
        symbol (a.toNat % 4 * 16 + 0 / 16), pad, pad] = _
      rw [decode, if_pos rfl, if_neg (by simp), if_pos rfl, value_first a,
        Option.bind_some, value_second a (by decide), Option.bind_some,
        if_pos (by omega), first_byte a (by decide)]
  | case3 a b =>
      have hb := b.toNat_lt
      have hu : symbol (b.toNat % 16 * 4 + 0 / 64) ≠ pad :=
        (isSymbol_symbol (by omega)).ne_pad
      change decode [symbol (a.toNat / 4),
        symbol (a.toNat % 4 * 16 + b.toNat / 16),
        symbol (b.toNat % 16 * 4 + 0 / 64), pad] = _
      rw [decode, if_pos rfl, if_neg (by simp), if_neg hu, value_first a,
        Option.bind_some, value_second a hb, Option.bind_some,
        value_third b (by decide), Option.bind_some, if_pos (by omega),
        first_byte a hb, second_byte a b (by decide)]
  | case4 a b c rest ih =>
      have hb := b.toNat_lt
      have hc := c.toNat_lt
      have hv : value (symbol (c.toNat % 64)) = some (c.toNat % 64) :=
        value_symbol (by omega)
      have hw : symbol (c.toNat % 64) ≠ pad :=
        (isSymbol_symbol (by omega)).ne_pad
      change decode (symbol (a.toNat / 4) ::
        symbol (a.toNat % 4 * 16 + b.toNat / 16) ::
        symbol (b.toNat % 16 * 4 + c.toNat / 64) ::
        symbol (c.toNat % 64) :: encode rest) = _
      rw [decode, if_neg hw, value_first a, Option.bind_some,
        value_second a hb, Option.bind_some, value_third b hc,
        Option.bind_some, hv, Option.bind_some, ih, Option.map_some,
        first_byte a hb, second_byte a b hc, third_byte b c]

/-- Every group that is begun takes four symbols. -/
theorem length_encode (bytes : Bytes) :
    (encode bytes).length = 4 * ((bytes.length + 2) / 3) := by
  induction bytes using encode.induct with
  | case1 => rfl
  | case2 a => simp [encode, sextets]
  | case3 a b => simp [encode, sextets]
  | case4 a b c rest ih =>
      rw [encode, List.length_append, ih]
      simp only [sextets, List.length_map, List.length_cons, List.length_nil]
      omega

theorem isSymbol_of_mem_map {vs : List Nat} (hvs : ∀ v ∈ vs, v < 64) {c : UInt8}
    (hc : c ∈ vs.map symbol) : IsSymbol c := by
  obtain ⟨v, hv, rfl⟩ := List.mem_map.mp hc
  exact isSymbol_symbol (hvs v hv)

/-- Symbols come first, then at most two signs of padding. -/
theorem encode_form (bytes : Bytes) : ∃ symbols n,
    encode bytes = symbols ++ List.replicate n pad ∧ n ≤ 2 ∧
      ∀ c ∈ symbols, IsSymbol c := by
  induction bytes using encode.induct with
  | case1 => exact ⟨[], 0, rfl, by decide, by simp⟩
  | case2 a =>
      refine ⟨_, 2, rfl, le_refl 2, fun c hc => isSymbol_of_mem_map ?_ hc⟩
      intro v hv
      exact sextets_lt (List.mem_of_mem_take hv)
  | case3 a b =>
      refine ⟨_, 1, rfl, by decide, fun c hc => isSymbol_of_mem_map ?_ hc⟩
      intro v hv
      exact sextets_lt (List.mem_of_mem_take hv)
  | case4 a b c rest ih =>
      obtain ⟨symbols, n, hencode, hn, hsymbols⟩ := ih
      refine ⟨(sextets a b c).map symbol ++ symbols, n, ?_, hn, ?_⟩
      · rw [encode, hencode, List.append_assoc]
      · intro d hd
        rcases List.mem_append.mp hd with hfirst | hrest
        · exact isSymbol_of_mem_map (fun _ => sextets_lt) hfirst
        · exact hsymbols d hrest

end Base64

end LinuxTest
