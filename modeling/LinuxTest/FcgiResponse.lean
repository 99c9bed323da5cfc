/-
Reading the application's answer: which streams `readContent` takes apart as
the FastCGI rule does.
-/
import Mathlib.Order.MinMax
import LinuxTest.FcgiConnection

namespace LinuxTest

namespace Sone

/-- A well-formed answer: records of the two output streams, then the record
that ends the request. -/
structure Response where
  records : List FcgiRecord
  last : FcgiRecord
  kinds : ∀ r ∈ records, r.type = FCGI_STDOUT ∨ r.type = FCGI_STDERR
  last_type : last.type = FCGI_END_REQUEST
  last_length : last.content.length = 8

/-- What a record adds to the output. -/
def outputOf (r : FcgiRecord) : Bytes :=
  if r.type = FCGI_STDOUT then r.content else []

namespace Response

def bytes (p : Response) : Bytes :=
  (p.records ++ [p.last]).flatMap FcgiRecord.encode

def stdout (p : Response) : Bytes :=
  p.records.flatMap outputOf

/-- The same answer with other bytes in the padding at its end. -/
def repad (p : Response) (padding : Bytes) (h : padding.length < 256) :
    Response :=
  ⟨p.records, { p.last with padding := padding, padding_lt := h }, p.kinds,
    p.last_type, p.last_length⟩

end Response

namespace Reader

variable {grant : Nat → Nat} {s : Reader}

/-- The loop ends in `final`, given enough turns. -/
def Finishes (grant : Nat → Nat) (s final : Reader) : Prop :=
  ∀ fuel, s.incoming.length < fuel → loop grant fuel s = some final

theorem length_skipPadding (s : Reader) :
    (skipPadding grant s).incoming.length ≤ s.incoming.length := by
  rw [skipPadding]
  split
  · simp [advance]
  · exact le_refl _

theorem length_handle (s : Reader) :
    (handle grant s).incoming.length ≤ s.incoming.length := by
  rw [handle]
  split
  · exact (length_skipPadding _).trans (by simp [advance])
  split
  · exact (length_skipPadding _).trans (by simp [advance])
  split
  · simp [advance]
  · exact le_refl _

/-- A turn takes at least one byte. -/
theorem length_turn {next : Reader} (hturn : turn grant s = some next) :
    next.incoming.length < s.incoming.length := by
  rw [turn.eq_def] at hturn
  split at hturn
  · cases hturn
  · case h_2 head more hgot =>
      cases hturn
      apply lt_of_le_of_lt (length_handle _)
      have hlength := congrArg List.length hgot
      rw [got, List.length_take, List.length_cons] at hlength
      simp only [advance, List.length_drop]
      omega

theorem Finishes.of_turn {next final : Reader}
    (hturn : turn grant s = some next) (hnext : Finishes grant next final) :
    Finishes grant s final := by
  intro fuel hfuel
  cases fuel with
  | zero => exact absurd hfuel (Nat.not_lt_zero _)
  | succ fuel =>
      have hless := length_turn hturn
      simp only [loop, hturn]
      exact hnext fuel (by omega)

theorem Finishes.of_end (hturn : turn grant s = none) :
    Finishes grant s (s.advance grant FCGI_HEADER_LEN) := by
  intro fuel hfuel
  cases fuel with
  | zero => exact absurd hfuel (Nat.not_lt_zero _)
  | succ fuel => simp only [loop, hturn]

/-- What a reader has stored stays: the buffer only grows at its end. -/
def Extends (s next : Reader) : Prop :=
  s.buf <+: next.buf ∧ s.tmpStored ≤ next.tmpStored

theorem Extends.trans {next final : Reader} (hnext : Extends s next)
    (hfinal : Extends next final) : Extends s final :=
  ⟨hnext.1.trans hfinal.1, hnext.2.trans hfinal.2⟩

theorem extends_skipPadding (s : Reader) :
    Extends s (skipPadding grant s) := by
  rw [skipPadding]
  split
  · exact ⟨List.prefix_refl _, le_max_left _ _⟩
  · exact ⟨List.prefix_refl _, le_refl _⟩

theorem extends_handle (s : Reader) : Extends s (handle grant s) := by
  rw [handle]
  split
  · refine Extends.trans ?_ (extends_skipPadding _)
    exact ⟨List.prefix_append _ _, le_refl _⟩
  split
  · refine Extends.trans ?_ (extends_skipPadding _)
    exact ⟨List.prefix_refl _, le_refl _⟩
  split
  · exact ⟨List.prefix_refl _, le_refl _⟩
  · exact ⟨List.prefix_refl _, le_refl _⟩

theorem extends_turn {next : Reader} (hturn : turn grant s = some next) :
    Extends s next := by
  rw [turn.eq_def] at hturn
  split at hturn
  · cases hturn
  · cases hturn
    refine Extends.trans ?_ (extends_handle _)
    exact ⟨List.prefix_refl _, le_refl _⟩

/-- The loop ends on every stream. -/
theorem finishes (grant : Nat → Nat) (s : Reader) :
    ∃ final, Finishes grant s final ∧ Extends s final := by
  induction hlength : s.incoming.length using Nat.strongRecOn generalizing s
    with
  | ind length ih =>
      cases hturn : turn grant s with
      | none =>
          refine ⟨_, Finishes.of_end hturn, ?_⟩
          exact ⟨List.prefix_refl _, le_refl _⟩
      | some next =>
          obtain ⟨final, hfinal, hextends⟩ :=
            ih _ (hlength ▸ length_turn hturn) next rfl
          exact ⟨final, hfinal.of_turn hturn,
            (extends_turn hturn).trans hextends⟩

/-- The kernel returns each of the amounts in full, from the read numbered
`start` on.  A read of one byte is never short. -/
def Granted (grant : Nat → Nat) : Nat → List Nat → Prop
  | _, [] => True
  | start, asked :: rest => asked ≤ max 1 (grant start) ∧
      Granted grant (start + 1) rest

theorem granted_append {grant : Nat → Nat} {start : Nat}
    {first last : List Nat} :
    Granted grant start (first ++ last) ↔
      Granted grant start first ∧
        Granted grant (start + first.length) last := by
  induction first generalizing start with
  | nil => simp [Granted]
  | cons asked rest ih =>
      simp only [List.cons_append, Granted, ih, List.length_cons,
        Nat.add_right_comm, and_assoc, ← Nat.add_assoc]

/-- What a reader in step asks for to get past the padding of a record. -/
def paddingRequests (r : FcgiRecord) : List Nat :=
  if 0 < r.padding.length then [r.padding.length] else []

/-- What a reader in step asks for to get past a record. -/
def requests (r : FcgiRecord) : List Nat :=
  FCGI_HEADER_LEN :: r.content.length :: paddingRequests r

/-- The header of a record in memory. -/
def headerOf (r : FcgiRecord) : FCGI_Header :=
  ⟨r.version, r.type, highByte r.id, lowByte r.id,
    highByte r.content.length, lowByte r.content.length,
    UInt8.ofNat r.padding.length, r.reserved⟩

theorem contentLen_headerOf (r : FcgiRecord) :
    (headerOf r).contentLen = r.content.length := by
  have hword := word_bytes r.content_lt
  rw [word] at hword
  rw [FCGI_Header.contentLen, Nat.shiftLeft_eq]
  exact hword

theorem paddingLength_headerOf (r : FcgiRecord) :
    (headerOf r).paddingLength.toNat = r.padding.length := by
  rw [headerOf, UInt8.toNat_ofNat']
  exact Nat.mod_eq_of_lt r.padding_lt

theorem got_of_granted {asked : Nat} {text rest : Bytes}
    (hgranted : asked ≤ max 1 (grant s.reads))
    (hbytes : s.incoming = text ++ rest) (hasked : text.length = asked) :
    s.got grant asked = text := by
  rw [got, Nat.min_eq_left hgranted, hbytes, ← hasked, List.take_left]

theorem advance_of_granted {asked : Nat} {text rest : Bytes}
    (hgranted : asked ≤ max 1 (grant s.reads))
    (hbytes : s.incoming = text ++ rest) (hasked : text.length = asked) :
    s.advance grant asked =
      { s with incoming := rest, reads := s.reads + 1 } := by
  rw [advance, Nat.min_eq_left hgranted, hbytes, ← hasked, List.drop_left]

/-- The header of a record is read whole. -/
theorem turn_of_header {r : FcgiRecord} {rest : Bytes}
    (hgranted : FCGI_HEADER_LEN ≤ max 1 (grant s.reads))
    (hbytes : s.incoming = r.encode ++ rest) :
    turn grant s = some (handle grant
      { s with
        incoming := r.content ++ (r.padding ++ rest)
        reads := s.reads + 1
        resp_header := headerOf r }) := by
  have hsplit : s.incoming =
      r.header ++ (r.content ++ (r.padding ++ rest)) := by
    rw [hbytes, FcgiRecord.encode]
    simp only [List.append_assoc]
  have hgot := got_of_granted hgranted hsplit rfl
  have hadvance := advance_of_granted hgranted hsplit rfl
  rw [turn, hgot, hadvance]
  rfl

section Skip

variable {reads stored : Nat} {buf rest : Bytes} {r : FcgiRecord}

/-- The padding of a record is skipped, and `tmp` has held all of it. -/
theorem skipPadding_of_granted
    (hgranted : Granted grant reads (paddingRequests r)) :
    skipPadding grant ⟨r.padding ++ rest, reads, headerOf r, buf, stored⟩ =
      ⟨rest, reads + (paddingRequests r).length, headerOf r, buf,
        max stored r.padding.length⟩ := by
  rw [skipPadding, paddingLength_headerOf]
  rw [paddingRequests] at hgranted ⊢
  by_cases hpadding : 0 < r.padding.length
  · rw [if_pos hpadding] at hgranted ⊢
    rw [got_of_granted hgranted.1 rfl rfl,
      advance_of_granted hgranted.1 rfl rfl, if_pos hpadding]
    rfl
  · have hnil : r.padding = [] := by
      simpa using hpadding
    simp [hnil]

/-- A record's content goes to the buffer or nowhere, and its padding is
skipped. -/
theorem handle_of_granted
    (hkind : r.type = FCGI_STDOUT ∨ r.type = FCGI_STDERR)
    (hcontent : r.content.length ≤ max 1 (grant reads))
    (hpadding : Granted grant (reads + 1) (paddingRequests r)) :
    handle grant ⟨r.content ++ (r.padding ++ rest), reads, headerOf r, buf,
        stored⟩ =
      ⟨rest, reads + 1 + (paddingRequests r).length, headerOf r,
        buf ++ outputOf r, max stored r.padding.length⟩ := by
  have hnot : FCGI_STDERR ≠ FCGI_STDOUT := by decide
  simp only [handle, contentLen_headerOf]
  rw [got_of_granted hcontent rfl rfl, advance_of_granted hcontent rfl rfl]
  rcases hkind with hkind | hkind
  · have hout : (headerOf r).type = FCGI_STDOUT := hkind
    rw [if_pos hout, skipPadding_of_granted hpadding, outputOf,
      if_pos hkind]
  · have herr : (headerOf r).type = FCGI_STDERR := hkind
    rw [if_neg (herr ▸ hnot), if_pos herr, skipPadding_of_granted hpadding,
      outputOf, if_neg (hkind.symm ▸ hnot), List.append_nil]

end Skip

/-- One turn takes one whole record of an output stream. -/
theorem turn_record {r : FcgiRecord} {rest : Bytes}
    (hkind : r.type = FCGI_STDOUT ∨ r.type = FCGI_STDERR)
    (hgranted : Granted grant s.reads (requests r))
    (hbytes : s.incoming = r.encode ++ rest) :
    turn grant s = some ⟨rest, s.reads + (requests r).length, headerOf r,
      s.buf ++ outputOf r, max s.tmpStored r.padding.length⟩ := by
  obtain ⟨hheader, hcontent, hpadding⟩ := hgranted
  have hreads : s.reads + (requests r).length =
      s.reads + 1 + 1 + (paddingRequests r).length := by
    simp only [requests, List.length_cons]
    omega
  rw [turn_of_header hheader hbytes, handle_of_granted hkind hcontent hpadding,
    hreads]

/-- The records of the output streams, one turn each. -/
theorem finishes_records {records : List FcgiRecord} {rest : Bytes}
    (hkinds : ∀ r ∈ records, r.type = FCGI_STDOUT ∨ r.type = FCGI_STDERR)
    (hgranted : Granted grant s.reads (records.flatMap requests))
    (hbytes : s.incoming = records.flatMap FcgiRecord.encode ++ rest) :
    ∃ next, (∀ final, Finishes grant next final → Finishes grant s final) ∧
      next.incoming = rest ∧
      next.reads = s.reads + (records.flatMap requests).length ∧
      next.buf = s.buf ++ records.flatMap outputOf ∧
      (next.tmpStored ≤ 8 ↔ s.tmpStored ≤ 8 ∧
        ∀ r ∈ records, r.padding.length ≤ 8) := by
  induction records generalizing s with
  | nil => exact ⟨s, fun _ hfinal => hfinal, by simpa using hbytes, by simp⟩
  | cons r more ih =>
      rw [List.flatMap_cons, granted_append] at hgranted
      rw [List.flatMap_cons, List.append_assoc] at hbytes
      have hturn := turn_record (hkinds r List.mem_cons_self) hgranted.1
        hbytes
      obtain ⟨next, hfinishes, hincoming, hreads, hbuf, hstored⟩ :=
        ih (fun other hother => hkinds other (List.mem_cons_of_mem r hother))
          (s := ⟨_, _, _, _, _⟩) hgranted.2 rfl
      refine ⟨next, ?_, hincoming, ?_, ?_, ?_⟩
      · exact fun final hfinal => (hfinishes final hfinal).of_turn hturn
      · rw [hreads, List.flatMap_cons, List.length_append, Nat.add_assoc]
      · rw [hbuf, List.flatMap_cons, List.append_assoc]
      · rw [hstored]
        simp only [Nat.max_le, List.mem_cons, forall_eq_or_imp, and_assoc]

/-- The record that ends the request: its padding is left to come. -/
theorem turn_last {r : FcgiRecord} (hkind : r.type = FCGI_END_REQUEST)
    (hlength : r.content.length = 8)
    (hheader : FCGI_HEADER_LEN ≤ max 1 (grant s.reads))
    (hbody : 8 ≤ max 1 (grant (s.reads + 1)))
    (hbytes : s.incoming = r.encode) :
    turn grant s = some ⟨r.padding, s.reads + 2, headerOf r, s.buf,
      s.tmpStored⟩ := by
  have hend : (headerOf r).type = FCGI_END_REQUEST := hkind
  have hnotOut : FCGI_END_REQUEST ≠ FCGI_STDOUT := by decide
  have hnotErr : FCGI_END_REQUEST ≠ FCGI_STDERR := by decide
  rw [← List.append_nil r.encode] at hbytes
  rw [turn_of_header hheader hbytes, handle, if_neg (hend ▸ hnotOut),
    if_neg (hend ▸ hnotErr), if_pos hend, advance_of_granted hbody rfl hlength,
    List.append_nil]

/-- At the end of the stream nothing more is stored. -/
theorem handle_at_end (hend : s.incoming = []) :
    (handle grant s).incoming = [] ∧ (handle grant s).buf = s.buf ∧
      (handle grant s).tmpStored = s.tmpStored := by
  have hskip : ∀ t : Reader, t.incoming = [] →
      (skipPadding grant t).incoming = [] ∧
        (skipPadding grant t).buf = t.buf ∧
        (skipPadding grant t).tmpStored = t.tmpStored := by
    intro t ht
    rw [skipPadding]
    split
    · simp [advance, got, ht]
    · exact ⟨ht, rfl, rfl⟩
  rw [handle]
  split
  · simpa [advance, got, hend] using hskip
      { s.advance grant s.resp_header.contentLen with
        buf := s.buf ++ s.got grant s.resp_header.contentLen }
      (by simp [advance, hend])
  split
  · simpa [advance, hend] using
      hskip (s.advance grant s.resp_header.contentLen)
        (by simp [advance, hend])
  split
  · simp [advance, hend]
  · exact ⟨hend, rfl, rfl⟩

theorem finishes_at_end (hend : s.incoming = []) :
    ∃ final, Finishes grant s final ∧ final.buf = s.buf ∧
      final.tmpStored = s.tmpStored := by
  have hturn : turn grant s = none := by
    simp [turn, got, hend]
  exact ⟨_, Finishes.of_end hturn, rfl, rfl⟩

/-- No more than a header's worth of bytes, read at once, is harmless. -/
theorem finishes_of_short (hshort : s.incoming.length ≤ FCGI_HEADER_LEN)
    (hgranted : s.incoming.length ≤ max 1 (grant s.reads)) :
    ∃ final, Finishes grant s final ∧ final.buf = s.buf ∧
      final.tmpStored = s.tmpStored := by
  have hbound : s.incoming.length ≤
      min FCGI_HEADER_LEN (max 1 (grant s.reads)) := le_min hshort hgranted
  have hgot : s.got grant FCGI_HEADER_LEN = s.incoming :=
    List.take_of_length_le hbound
  cases hincoming : s.incoming with
  | nil => exact finishes_at_end hincoming
  | cons head more =>
      have hrest : (s.advance grant FCGI_HEADER_LEN).incoming = [] :=
        List.drop_eq_nil_of_le hbound
      rw [hincoming] at hgot
      have hturn : turn grant s = some (handle grant
          { s.advance grant FCGI_HEADER_LEN with
            resp_header := s.resp_header.store (head :: more) }) := by
        rw [turn, hgot]
      obtain ⟨hend, hbuf, hstored⟩ := @handle_at_end grant
        { s.advance grant FCGI_HEADER_LEN with
          resp_header := s.resp_header.store (head :: more) } hrest
      obtain ⟨final, hfinal, hfinalBuf, hfinalStored⟩ :=
        @finishes_at_end grant _ hend
      exact ⟨final, hfinal.of_turn hturn, hfinalBuf.trans hbuf,
        hfinalStored.trans hstored⟩

end Reader

namespace Response

open Reader FcgiConnection

variable {p : Response} {grant : Nat → Nat} {memory : FCGI_Header}

/-- What a reader in step asks for: after the last record its padding, as far
as it fills a header. -/
def requests (p : Response) : List Nat :=
  p.records.flatMap Reader.requests ++
    [FCGI_HEADER_LEN, 8, min p.last.padding.length FCGI_HEADER_LEN]

/-- `readContent` returns with the output in the buffer, and `tmp` has never
held more than its 8 bytes. -/
def Decoded (p : Response) (grant : Nat → Nat) (memory : FCGI_Header) :
    Prop :=
  ∃ final, readContent grant memory p.bytes = some final ∧
    final.buf = p.stdout ∧ final.tmpStored ≤ 8

/-- With whole reads the loop takes the answer apart record by record. -/
theorem reaches_padding (memory : FCGI_Header)
    (hgranted : Granted grant 0 p.requests) :
    ∃ next : Reader,
      (∀ final, Finishes grant next final →
        readContent grant memory p.bytes = some final) ∧
      next.incoming = p.last.padding ∧
      min p.last.padding.length FCGI_HEADER_LEN ≤
        max 1 (grant next.reads) ∧
      next.buf = p.stdout ∧
      (next.tmpStored ≤ 8 ↔ ∀ r ∈ p.records, r.padding.length ≤ 8) := by
  obtain ⟨hrecords, hheader, hbody, hpadding, _⟩ :=
    granted_append.mp hgranted
  let start : Reader := ⟨p.bytes, 0, memory, [], 0⟩
  have hbytes : start.incoming =
      p.records.flatMap FcgiRecord.encode ++ p.last.encode := by
    change p.bytes = _
    rw [bytes, List.flatMap_append]
    simp
  obtain ⟨next, hfinishes, hincoming, hreads, hbuf, hstored⟩ :=
    finishes_records p.kinds hrecords hbytes
  have hcount : next.reads = 0 + (p.records.flatMap Reader.requests).length :=
    hreads
  rw [← hcount] at hheader hbody hpadding
  have hturn := turn_last p.last_type p.last_length hheader hbody hincoming
  refine ⟨⟨p.last.padding, next.reads + 2, headerOf p.last, next.buf,
    next.tmpStored⟩, ?_, rfl, hpadding, ?_, ?_⟩
  · intro final hfinal
    exact hfinishes final (hfinal.of_turn hturn) _ (Nat.lt_succ_self _)
  · change next.buf = _
    rw [hbuf]
    rfl
  · change next.tmpStored ≤ 8 ↔ _
    rw [hstored]
    simp [start]

theorem decoded_of_paddings (memory : FCGI_Header)
    (hgranted : Granted grant 0 p.requests)
    (hpaddings : ∀ r ∈ p.records ++ [p.last], r.padding.length ≤ 8) :
    p.Decoded grant memory := by
  obtain ⟨next, hfinishes, hincoming, hreads, hbuf, hstored⟩ :=
    reaches_padding memory hgranted
  have hlast : p.last.padding.length ≤ FCGI_HEADER_LEN :=
    hpaddings p.last (by simp)
  have hrecords : ∀ r ∈ p.records, r.padding.length ≤ 8 := fun r hr =>
    hpaddings r (List.mem_append_left _ hr)
  rw [← hincoming] at hlast hreads
  rw [Nat.min_eq_left hlast] at hreads
  obtain ⟨final, hfinal, hfinalBuf, hfinalStored⟩ :=
    finishes_of_short hlast hreads
  refine ⟨final, hfinishes final hfinal, hfinalBuf.trans hbuf, ?_⟩
  rw [hfinalStored]
  exact hstored.mpr hrecords

/-- A padding longer than a header that reads as a STDOUT record of one
byte. -/
def trap (length : Nat) : Bytes :=
  [0, FCGI_STDOUT, 0, 0, 0, 1, 0, 0] ++ List.replicate (length - 8) 1

theorem length_trap {length : Nat} (hlength : 8 < length) :
    (trap length).length = length := by
  simp [trap]
  omega

/-- Left to come after the end, it puts a byte in the buffer. -/
theorem turn_trap {s : Reader} {length : Nat} (hlength : 8 < length)
    (hincoming : s.incoming = trap length)
    (hgranted : FCGI_HEADER_LEN ≤ max 1 (grant s.reads)) :
    ∃ next, turn grant s = some next ∧ next.buf = s.buf ++ [1] := by
  obtain ⟨more, hmore⟩ : ∃ more, length - 8 = more + 1 :=
    ⟨length - 9, by omega⟩
  have hbytes : s.incoming =
      [0, FCGI_STDOUT, 0, 0, 0, 1, 0, 0] ++ 1 :: List.replicate more 1 := by
    rw [hincoming, trap, hmore, List.replicate_succ]
  refine ⟨handle grant ⟨1 :: List.replicate more 1, s.reads + 1,
    ⟨0, FCGI_STDOUT, 0, 0, 0, 1, 0, 0⟩, s.buf, s.tmpStored⟩, ?_, ?_⟩
  · rw [turn, got_of_granted hgranted hbytes rfl,
      advance_of_granted hgranted hbytes rfl]
    rfl
  · simp [handle, skipPadding, FCGI_Header.contentLen, got, advance]

theorem paddings_of_decoded (hgranted : Granted grant 0 p.requests)
    (hdecoded : ∀ padding (h : padding.length < 256),
      padding.length = p.last.padding.length →
      (p.repad padding h).Decoded grant memory) :
    ∀ r ∈ p.records ++ [p.last], r.padding.length ≤ 8 := by
  have hrecords : ∀ r ∈ p.records, r.padding.length ≤ 8 := by
    obtain ⟨final, hfinal, _, hfinalStored⟩ :=
      hdecoded p.last.padding p.last.padding_lt rfl
    obtain ⟨next, hfinishes, _, _, _, hstored⟩ :=
      reaches_padding memory hgranted
    obtain ⟨final', hfinal', hextends⟩ := finishes grant next
    have hsame := (hfinishes final' hfinal').symm.trans hfinal
    cases hsame
    exact hstored.mp (hextends.2.trans hfinalStored)
  intro r hr
  rcases List.mem_append.mp hr with hr | hr
  · exact hrecords r hr
  · rw [List.mem_singleton.mp hr]
    by_contra hlong
    have hlong : 8 < p.last.padding.length := Nat.lt_of_not_le hlong
    have hlength := length_trap hlong
    have hbound : (trap p.last.padding.length).length < 256 := by
      rw [hlength]
      exact p.last.padding_lt
    have hrequests : (p.repad _ hbound).requests = p.requests := by
      simp only [requests, repad, hlength]
    obtain ⟨final, hfinal, hbuf, _⟩ := hdecoded _ hbound hlength
    obtain ⟨next, hfinishes, hincoming, hreads, hnextBuf, _⟩ :=
      @reaches_padding (p.repad _ hbound) grant memory
        (hrequests.symm ▸ hgranted)
    have hheader : FCGI_HEADER_LEN ≤ max 1 (grant next.reads) := by
      change min (trap p.last.padding.length).length FCGI_HEADER_LEN ≤ _
        at hreads
      have hmin : min p.last.padding.length FCGI_HEADER_LEN =
          FCGI_HEADER_LEN := Nat.min_eq_right (Nat.le_of_lt hlong)
      rw [hlength, hmin] at hreads
      exact hreads
    obtain ⟨after, hturn, hafter⟩ := turn_trap hlong hincoming hheader
    obtain ⟨final', hfinal', hextends⟩ := finishes grant after
    have hsame := (hfinishes final' (hfinal'.of_turn hturn)).symm.trans hfinal
    cases hsame
    have hlonger := hextends.1.length_le
    rw [hafter, hnextBuf, hbuf, List.length_append] at hlonger
    exact absurd hlonger (by simp)

/-- Where the kernel returns what each read asks for, or all that is left, the
answer is decoded whatever its last padding holds exactly when no record has
more than 8 bytes of padding. -/
theorem readContent_decodes_iff (p : Response) (grant : Nat → Nat)
    (memory : FCGI_Header) (hgranted : Granted grant 0 p.requests) :
    (∀ padding (h : padding.length < 256),
        padding.length = p.last.padding.length →
        (p.repad padding h).Decoded grant memory) ↔
      ∀ r ∈ p.records ++ [p.last], r.padding.length ≤ 8 := by
  constructor
  · exact paddings_of_decoded hgranted
  · intro hpaddings padding hbound hlength
    apply decoded_of_paddings memory
    · have hrequests : (p.repad padding hbound).requests = p.requests := by
        simp only [requests, repad, hlength]
      rw [hrequests]
      exact hgranted
    · intro r hr
      rcases List.mem_append.mp hr with hr | hr
      · exact hpaddings r (List.mem_append_left _ hr)
      · rw [List.mem_singleton.mp hr]
        change padding.length ≤ 8
        rw [hlength]
        exact hpaddings p.last (by simp)

/-- An answer of two bytes. -/
def hi : Response where
  records := [⟨1, FCGI_STDOUT, 1, [104, 105], [], 0, by decide, by decide,
    by decide⟩]
  last := ⟨1, FCGI_END_REQUEST, 1, [0, 0, 0, 0, 0, 0, 0, 0], [], 0,
    by decide, by decide, by decide⟩
  kinds := by
    intro r hr
    rw [List.mem_singleton.mp hr]
    exact Or.inl rfl
  last_type := rfl
  last_length := rfl

theorem readContent_decodes_hi :
    Granted (fun _ => 8) 0 hi.requests ∧
      ((∀ padding (h : padding.length < 256),
        padding.length = hi.last.padding.length →
        (hi.repad padding h).Decoded (fun _ => 8)
          ⟨0, 0, 0, 0, 0, 0, 0, 0⟩) ↔
      ∀ r ∈ hi.records ++ [hi.last], r.padding.length ≤ 8) := by
  have hgranted : Granted (fun _ => 8) 0 hi.requests := by
    simp [Granted, requests, Reader.requests, paddingRequests, hi,
      FCGI_HEADER_LEN]
  exact ⟨hgranted, readContent_decodes_iff hi _ _ hgranted⟩

/-- The kernel returns one of the two bytes of the content: the other is taken
for the start of a header and lost. -/
theorem readContent_loses_short_read :
    ¬ hi.Decoded (fun i => if i = 1 then 1 else 65535)
      ⟨0, 0, 0, 0, 0, 0, 0, 0⟩ := by
  rintro ⟨final, hfinal, hbuf, _⟩
  have hread : (readContent (fun i => if i = 1 then 1 else 65535)
      ⟨0, 0, 0, 0, 0, 0, 0, 0⟩ hi.bytes).map Reader.buf = some [104] := by
    decide
  rw [hfinal, Option.map_some, hbuf] at hread
  exact absurd hread (by decide)

end Response

end Sone

end LinuxTest
