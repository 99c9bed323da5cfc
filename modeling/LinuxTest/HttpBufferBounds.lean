/-
When a buffer stays inside its vector.  `reserve` raises the capacity and
never the size, and compaction never lowers `high`, so the only room there
will ever be is the 4096 bytes the constructor makes.
-/
import LinuxTest.HttpBufferQueue

namespace LinuxTest

namespace Sone

namespace Buffer

/-- The cursors are in order inside the vector, every byte stored so far lies
below its size, and both lengths are non-negative. -/
structure InMemory (b : Buffer) : Prop where
  low_nonneg : 0 ≤ b.low
  low_le_high : b.low ≤ b.high
  high_le_size : b.high ≤ b.size
  top_le_size : b.top ≤ b.size
  writeLen_nonneg : 0 ≤ b.writeLen
  freeLen_nonneg : 0 ≤ b.freeLen

/-- The kernel result of the call, if it has one, is not `-1`. -/
def Op.Delivers : Op → Prop
  | .read _ result => result ≠ none
  | .readLen _ _ result => result ≠ none
  | _ => True

theorem InMemory.of_bounds {b : Buffer} (hsize : b.size = 4096)
    (hlow : 0 ≤ b.low) (hle : b.low ≤ b.high) (hhigh : b.high ≤ b.size)
    (htop : b.top ≤ b.size) : b.InMemory := by
  refine ⟨hlow, hle, hhigh, htop, ?_, ?_⟩
  · rw [writeLen, asInt_of_lt _ (by omega) (by omega)]
    omega
  · rw [freeLen, asInt_of_lt _ (by omega) (by omega)]
    omega

theorem InMemory.valid {b : Buffer} (hb : b.InMemory)
    (hsize : b.size = 4096) : b.Valid := by
  have := hb.high_le_size
  have := b.size_le
  exact ⟨hb.low_nonneg, hb.low_le_high, by omega, by omega, hsize⟩

/-- What every successful call does to the cursors: `high` moves by the bytes
brought in, and the last of them is stored just below the new `high`. -/
structure Tally (b b' : Buffer) (count : Nat) : Prop where
  high_eq : b'.high = asInt (b.high + count)
  le_top : 0 < count → b.high + count ≤ b'.top
  size_eq : b'.size = b.size

theorem Tally.of_frame {b c b' : Buffer} {count : Nat}
    (hhigh : c.high = b.high) (hsize : c.size = b.size)
    (htally : Tally c b' count) : Tally b b' count :=
  ⟨hhigh ▸ htally.high_eq, hhigh ▸ htally.le_top, hsize ▸ htally.size_eq⟩

theorem copyTail_tally {b b' : Buffer} {buf : List UInt8}
    (hcopy : b.copyTail buf = some b') : Tally b b' buf.length := by
  obtain ⟨c, hc, rfl⟩ := Option.map_eq_some_iff.mp hcopy
  obtain ⟨hhigh, hsize, _⟩ := copyTo_frame hc
  refine ⟨by rw [hhigh], ?_, hsize⟩
  intro hpos
  have hne : buf ≠ [] := List.length_pos_iff.mp hpos
  rw [copyTo] at hc
  split at hc
  · cases hc
    exact le_max_right b.top (b.high + buf.length)
  · cases hc

theorem reserve_frame {b b' : Buffer} {junk : Int → UInt8} {n : Nat}
    (hreserve : b.reserve junk n = some b') :
    b'.high = b.high ∧ b'.size = b.size := by
  rw [reserve] at hreserve
  split at hreserve
  · cases hreserve
    exact ⟨rfl, rfl⟩
  · split at hreserve
    · cases hreserve
      exact ⟨rfl, rfl⟩
    · cases hreserve

theorem append_tally {b b' : Buffer} {junk : Int → UInt8} {buf : List UInt8}
    (hlow : 0 ≤ b.high) (hhigh : b.high < 2 ^ 31)
    (happend : b.append junk buf = some b') : Tally b b' buf.length := by
  rw [append] at happend
  split at happend
  · case isTrue hzero =>
      cases happend
      refine ⟨?_, by omega, rfl⟩
      rw [hzero, asInt_of_lt _ (by omega) (by omega)]
      omega
  split at happend
  · exact copyTail_tally happend
  split at happend
  · obtain ⟨b1, hreserve, hcopy⟩ := Option.bind_eq_some_iff.mp happend
    obtain ⟨hhighEq, hsizeEq⟩ := reserve_frame hreserve
    exact (copyTail_tally hcopy).of_frame hhighEq hsizeEq
  · -- compacting leaves `high` where it was
    obtain ⟨b1, hmove, hcopy⟩ := Option.bind_eq_some_iff.mp happend
    obtain ⟨hhighEq, hsizeEq, _⟩ := copyTo_frame hmove
    have htally := copyTail_tally hcopy
    have hsame : ({ b1 with low := 0 } : Buffer).dataLen = b.high := by
      simp only [dataLen]
      omega
    have hhigh' := htally.high_eq
    have htop := htally.le_top
    simp only [hsame] at hhigh' htop
    exact ⟨hhigh', htop, htally.size_eq.trans hsizeEq⟩

theorem read_tally {b b' : Buffer} (hb : b.InMemory) (hsize : b.size = 4096)
    {junk : Int → UInt8} {bytes : List UInt8} {n : Int}
    (hread : b.read junk (some bytes) = some (b', n)) :
    Tally b b' bytes.length := by
  have hwrite : (asSize b.writeLen : Int) = b.size - b.high := by
    rcases (hb.valid hsize).asSize_writeLen with ⟨_, heq⟩ | ⟨hbad, _⟩
    · exact heq
    · have := hb.high_le_size
      omega
  have hwriteLen := (hb.valid hsize).writeLen_eq
  obtain ⟨c, hc, hrest⟩ := Option.bind_eq_some_iff.mp hread
  obtain ⟨hhighEq, hsizeEq, _⟩ := copyTo_frame hc
  split at hrest
  · case isTrue hfit =>
      have hall : bytes.take (asSize b.writeLen) = bytes :=
        List.take_of_length_le (by omega)
      rw [hall] at hc
      have hcopy : b.copyTail bytes = some b' := by
        cases hrest
        rw [copyTail, hc]
        rfl
      exact copyTail_tally hcopy
  · case isFalse hspill =>
      obtain ⟨d, happend, hd⟩ := Option.map_eq_some_iff.mp hrest
      cases hd
      have hfull : asInt (c.size : Int) = c.size :=
        asInt_of_lt _ (by omega) (by omega)
      have hdrop : (bytes.drop (asSize b.writeLen)).length =
          bytes.length - asSize b.writeLen := List.length_drop
      have htally := append_tally (b := { c with high := asInt c.size })
        (by simp only [hfull]; omega) (by simp only [hfull]; omega) happend
      have hhigh := htally.high_eq
      have htop := htally.le_top
      simp only [hfull, hdrop] at hhigh htop
      refine ⟨?_, ?_, htally.size_eq.trans hsizeEq⟩
      · have hsum : (c.size : Int) +
            ((bytes.length - asSize b.writeLen : Nat) : Int) =
            b.high + bytes.length := by omega
        rw [hhigh, hsum]
      · intro _
        have := htop (by omega)
        omega

theorem readLen_tally {b b' : Buffer} {junk : Int → UInt8} {len : Nat}
    {bytes : List UInt8} {n : Int}
    (hread : b.readLen junk len (some bytes) = some (b', n)) :
    Tally b b' bytes.length := by
  obtain ⟨c, hc, hrest⟩ := Option.bind_eq_some_iff.mp hread
  obtain ⟨d, hcopy, hd⟩ := Option.map_eq_some_iff.mp hrest
  cases hd
  have hframe : c.high = b.high ∧ c.size = b.size := by
    split at hc
    · exact reserve_frame hc
    · cases hc
      exact ⟨rfl, rfl⟩
  exact (copyTail_tally hcopy).of_frame hframe.1 hframe.2

theorem perform_tally {b b' : Buffer} (hb : b.InMemory)
    (hsize : b.size = 4096) {op : Op} (hdelivers : op.Delivers)
    (hperform : b.perform op = some b') : Tally b b' op.brings.length := by
  have hhigh : 0 ≤ b.high ∧ b.high < 2 ^ 31 := by
    have := hb.low_nonneg
    have := hb.low_le_high
    have := hb.high_le_size
    omega
  cases op with
  | append junk buf => exact append_tally hhigh.1 hhigh.2 hperform
  | read junk result =>
      obtain ⟨⟨_, n⟩, hread, rfl⟩ := Option.map_eq_some_iff.mp hperform
      cases result with
      | none => exact absurd rfl hdelivers
      | some bytes => exact read_tally hb hsize hread
  | readLen junk len result =>
      obtain ⟨⟨_, n⟩, hread, rfl⟩ := Option.map_eq_some_iff.mp hperform
      cases result with
      | none => exact absurd rfl hdelivers
      | some bytes => exact readLen_tally hread
  | moveLow n =>
      cases hperform
      refine ⟨?_, fun hpos => absurd hpos (Nat.lt_irrefl 0), ?_⟩
      · have hkeep : (b.moveLow n).1.high = b.high := by
          rw [moveLow]
          split <;> rfl
        rw [hkeep, asInt_of_lt _ (by simp [Op.brings]; omega)
          (by simp [Op.brings]; omega)]
        simp [Op.brings]
      · rw [moveLow]
        split <;> rfl

/-- `moveLow` keeps the cursors in order even where its test wraps around. -/
theorem InMemory.moveLow {b : Buffer} (hb : b.InMemory)
    (hsize : b.size = 4096) (n : Nat) :
    (b.moveLow n).1.InMemory ∧ (b.moveLow n).1.size = 4096 := by
  have hlow := hb.low_nonneg
  have hle := hb.low_le_high
  have hhigh := hb.high_le_size
  rw [Buffer.moveLow]
  split
  · exact ⟨hb, hsize⟩
  · case isFalse hfit =>
      have hsum : (asSize (n + b.low) : Int) = (n + b.low) % 2 ^ 64 := by
        rw [asSize]
        omega
      have hhighSize := asSize_of_nonneg b.high (by omega)
        (by omega)
      have hnew : asInt (b.low + n) = (n + b.low) % 2 ^ 64 := by
        rw [asInt, Int.bmod_def]
        split <;> omega
      refine ⟨InMemory.of_bounds hsize ?_ ?_ hhigh hb.top_le_size, hsize⟩
      · simp only [hnew]
        omega
      · simp only [hnew]
        omega

/-- A call that brings in no more than the writable part stays inside. -/
theorem perform_inMemory {b : Buffer} (hb : b.InMemory)
    (hsize : b.size = 4096) {op : Op} (hpossible : op.Possible b)
    (hdelivers : op.Delivers) (hfit : b.high + op.brings.length ≤ 4096) :
    ∃ b', b.perform op = some b' ∧ b'.InMemory ∧ b'.size = 4096 := by
  have hvalid := hb.valid hsize
  have hgrown : ∀ {b' : Buffer} {buf : List UInt8}, Extends b b' buf →
      b.high + buf.length ≤ 4096 → b'.InMemory ∧ b'.size = 4096 := by
    intro b' buf hext hle
    have hvalid' := hext.valid hvalid (by omega)
    have hhigh := hext.high_eq
    have htop := hext.top_le
    have htopLe := hb.top_le_size
    have hsizeEq := hvalid'.size_eq
    exact ⟨InMemory.of_bounds hsizeEq hvalid'.low_nonneg hvalid'.low_le_high
      (by omega) (by omega), hsizeEq⟩
  cases op with
  | append junk buf =>
      have hfit : b.high + buf.length ≤ 4096 := hfit
      obtain ⟨b', hb', hext⟩ := append_extends hvalid junk _ hpossible
        (Or.inr ⟨by omega, Or.inl (by omega)⟩)
      exact ⟨b', hb', hgrown hext hfit⟩
  | read junk result =>
      cases result with
      | none => exact absurd rfl hdelivers
      | some bytes =>
          have hfit : b.high + bytes.length ≤ 4096 := hfit
          obtain ⟨b', hb', hext⟩ := read_extends hvalid junk hpossible.1
            hpossible.2.2.2 ⟨by omega, Or.inl (by omega)⟩
          exact ⟨b', by rw [perform, hb']; rfl, hgrown hext hfit⟩
  | readLen junk len result =>
      cases result with
      | none => exact absurd rfl hdelivers
      | some bytes =>
          have hfit : b.high + bytes.length ≤ 4096 := hfit
          obtain ⟨b', hb', hext⟩ := readLen_extends hvalid junk hpossible.1
            hpossible.2.1 ⟨by omega, Or.inl hb.high_le_size⟩
          exact ⟨b', by rw [perform, hb']; rfl, hgrown hext hfit⟩
  | moveLow n =>
      exact ⟨_, rfl, hb.moveLow hsize n⟩

/-- The bytes a list of calls brings in. -/
def Op.total (ops : List Op) : Nat :=
  (ops.map fun op => op.brings.length).sum

/-- From any buffer inside its vector, a run stays there exactly when what it
brings in fits behind `high`. -/
theorem always_inMemory_iff {b : Buffer} (hb : b.InMemory)
    (hsize : b.size = 4096) {ops : List Op}
    (hgood : Along perform (fun b op => op.Possible b ∧ op.Delivers) b ops) :
    Always perform InMemory b ops ↔ b.high + Op.total ops ≤ 4096 := by
  induction ops generalizing b with
  | nil =>
      constructor
      · intro _
        have := hb.high_le_size
        simp only [Op.total, List.map_nil, List.sum_nil]
        omega
      · intro _
        exact hb
  | cons op rest ih =>
      obtain ⟨⟨hpossible, hdelivers⟩, hrest⟩ := hgood
      have htotal : Op.total (op :: rest) =
          op.brings.length + Op.total rest := by
        simp [Op.total]
      rw [htotal]
      constructor
      · rintro ⟨_, b', hperform, halways⟩
        have htally := perform_tally hb hsize hdelivers hperform
        have hb' := halways.head
        have hsize' := htally.size_eq.trans hsize
        have hle := (ih hb' hsize' (hrest b' hperform)).mp halways
        have hbound : b.high + op.brings.length ≤ 4096 := by
          have := hb.high_le_size
          have := hb'.top_le_size
          have htop := htally.le_top
          omega
        have hhigh := htally.high_eq
        have := hb.low_nonneg
        have := hb.low_le_high
        rw [asInt_of_lt _ (by omega) (by omega)] at hhigh
        omega
      · intro hle
        obtain ⟨b', hperform, hb', hsize'⟩ :=
          perform_inMemory hb hsize hpossible hdelivers (by omega)
        have hhigh := (perform_tally hb hsize hdelivers hperform).high_eq
        have := hb.low_nonneg
        have := hb.low_le_high
        rw [asInt_of_lt _ (by omega) (by omega)] at hhigh
        exact ⟨hb, b', hperform,
          (ih hb' hsize' (hrest b' hperform)).mpr (by omega)⟩

theorem init_inMemory : init.InMemory :=
  InMemory.of_bounds rfl (le_refl 0) (le_refl 0) (by decide) (by decide)

/-- A fresh buffer stays inside its vector exactly when at most 4096 bytes
are ever brought in, whatever is consumed in between. -/
theorem buffer_inMemory_iff_total_le (ops : List Op)
    (hgood : Along perform (fun b op => op.Possible b ∧ op.Delivers)
      init ops) :
    Always perform InMemory init ops ↔ Op.total ops ≤ 4096 := by
  have hiff := always_inMemory_iff init_inMemory rfl hgood
  have hzero : init.high = 0 := rfl
  rw [hiff, hzero]
  omega

theorem buffer_inMemory_iff_total_le_three :
    Always perform InMemory init
        [.append (fun _ => 0) [71, 69, 84], .moveLow 3] ↔
      Op.total [.append (fun _ => 0) [71, 69, 84], .moveLow 3] ≤ 4096 := by
  apply buffer_inMemory_iff_total_le
  refine ⟨⟨by decide, trivial⟩, ?_⟩
  rintro next ⟨⟩
  exact ⟨⟨by decide, trivial⟩, fun _ _ => trivial⟩

/-- One append of 4097 bytes to a fresh buffer: `reserve` makes room in the
allocation, and `high` ends beyond the vector. -/
theorem append_leaves_vector :
    Along perform (fun b op => op.Possible b ∧ op.Delivers) init
        [.append (fun _ => 0) (List.replicate 4097 65)] ∧
      ¬ Always perform InMemory init
        [.append (fun _ => 0) (List.replicate 4097 65)] := by
  have hgood : Along perform (fun b op => op.Possible b ∧ op.Delivers) init
      [.append (fun _ => 0) (List.replicate 4097 65)] := by
    refine ⟨⟨?_, trivial⟩, fun _ _ => trivial⟩
    rw [Op.possible_append, List.length_replicate]
    decide
  refine ⟨hgood, ?_⟩
  rw [always_inMemory_iff init_inMemory rfl hgood]
  show ¬ ((0 : Int) + Op.total _ ≤ 4096)
  simp only [Op.total, List.map_cons, List.map_nil, Op.brings,
    List.length_replicate, List.sum_cons, List.sum_nil]
  decide

end Buffer

end Sone

end LinuxTest
