/-
The output side of `http_server/HttpConnection.cpp`: the direct write in `send`
and the deferred one in `handleWrite`, which share `output_buffer`.  A run keeps
the bytes handed to `send` and the bytes the kernel took beside the connection;
the stream is intact while the second are a prefix of the first.
-/
import LinuxTest.HttpBufferQueue
import LinuxTest.HttpMessage

namespace LinuxTest

namespace Sone

/-- The bytes at `begin() + pos`, read through a pointer; `none` outside the
allocation. -/
def Buffer.fetch (b : Buffer) (pos : Int) (n : Nat) : Option Bytes :=
  if 0 ≤ pos ∧ pos + n ≤ b.capacity then some (cells b.mem pos n) else none

/-- The `ssize_t` that `::write` returns; `none` is a failed call. -/
def writeResult : Option Nat → Int
  | none => -1
  | some n => n

/-- The part of an `HttpConnection` that writing works on: `output_buffer`,
whether the dispatcher waits for writability, whether `_tim` is set, and whether
`handleClose` was called.  `offered` and `accepted` are no fields of the class:
they are what `send` was given and what the kernel took. -/
structure HttpOutput where
  buffer : Buffer
  writing : Bool
  timer : Bool
  closed : Bool
  offered : Bytes
  accepted : Bytes

namespace HttpOutput

def init : HttpOutput := ⟨.init, false, false, false, [], []⟩

/-- The kernel takes the first bytes of what it is shown, or none. -/
def takes (s : HttpOutput) (shown : Bytes) (result : Option Nat) :
    HttpOutput :=
  { s with accepted := s.accepted ++ shown.take (result.getD 0) }

/-- `HttpConnection::send`. -/
def send (s : HttpOutput) (req : HttpRequest) (junk : Int → UInt8)
    (buf : Buffer) (result : Option Nat) : Option HttpOutput :=
  let len := writeResult result
  let s := { s.takes buf.data result with offered := s.offered ++ buf.data }
  if len < buf.dataLen then
    -- after a failed write `peek() + len` lies one byte before the data
    (buf.fetch (buf.low + len) (asSize (buf.dataLen - len))).bind fun bytes =>
      (s.buffer.append junk bytes).map fun b =>
        { s with writing := true, buffer := b }
  else if req.closes then some { s with closed := true }
  else some { s with timer := true }

/-- `HttpConnection::handleWrite`. -/
def handleWrite (s : HttpOutput) (req : HttpRequest)
    (result : Option Nat) : HttpOutput :=
  let len := writeResult result
  let dataLen := s.buffer.dataLen
  let s := s.takes s.buffer.data result
  if len = dataLen then
    if req.closes then { s with closed := true }
    else { s with writing := false, timer := true }
  else { s with buffer := (s.buffer.moveLow (asSize len)).1 }

end HttpOutput

/-- What can happen to the output side, with the request object at the time and
the result of `::write`. -/
inductive OutputEvent where
  | send (req : HttpRequest) (junk : Int → UInt8) (buf : Buffer)
      (result : Option Nat)
  | handleWrite (req : HttpRequest) (result : Option Nat)

namespace HttpOutput

def step (s : HttpOutput) : OutputEvent → Option HttpOutput
  | .send req junk buf result => s.send req junk buf result
  | .handleWrite req result => some (s.handleWrite req result)

/-- What the kernel, the allocator and the event loop allow: a write takes at
most what it is shown, a buffer handed over has its cursors in order, a block
that is asked for can be had, `handleWrite` is called only while the dispatcher
waits for writability, and nothing is called on a closed connection. -/
def Possible (s : HttpOutput) : OutputEvent → Prop
  | .send _ _ buf result => s.closed = false ∧ buf.Valid ∧
      result.getD 0 ≤ buf.data.length ∧
      s.buffer.capacity + 2 * (buf.data.length + 1) < 2 ^ 63
  | .handleWrite _ result => s.closed = false ∧ s.writing = true ∧
      result.getD 0 ≤ s.buffer.data.length

/-- The condition under which an event leaves the stream intact.  A direct
write does not fail; while bytes are pending it takes nothing, and otherwise it
takes everything unless `output_buffer` is empty; what is left finds room in
`output_buffer` without compacting.  A deferred write fails only while `low` is
still 0. -/
def Orderly (s : HttpOutput) : OutputEvent → Prop
  | .send _ _ buf result => ∃ n, result = some n ∧
      (if s.writing then n = 0
        else n = buf.data.length ∨ s.buffer.data = []) ∧
      (n < buf.data.length → s.buffer.RoomFor (buf.data.length - n))
  | .handleWrite _ result => result = none → s.buffer.low = 0

/-- The kernel has taken a prefix of what was handed to `send`, and all of it
whenever the open connection does not wait to write. -/
structure Intact (s : HttpOutput) : Prop where
  accepted_prefix : s.accepted <+: s.offered
  settled : s.writing = false → s.closed = false → s.accepted = s.offered

/-- The invariant of orderly runs: while the connection waits to write, the
output buffer holds the bytes offered and not yet accepted. -/
structure InOrder (s : HttpOutput) : Prop where
  accepted_prefix : s.accepted <+: s.offered
  valid : s.closed = false → s.buffer.Valid
  settled : s.closed = false → s.writing = false → s.accepted = s.offered
  pending : s.closed = false → s.writing = true →
    s.accepted ++ s.buffer.data = s.offered

theorem init_inOrder : init.InOrder :=
  ⟨List.prefix_refl [], fun _ => Buffer.init_valid, fun _ _ => rfl,
    fun _ hwriting => by cases hwriting⟩

theorem InOrder.intact {s : HttpOutput} (hs : s.InOrder) : s.Intact :=
  ⟨hs.accepted_prefix, fun hwriting hclosed => hs.settled hclosed hwriting⟩

/-- A connection that has been closed keeps what it has sent. -/
theorem InOrder.of_closed {s : HttpOutput} (hclosed : s.closed = true)
    (hfront : s.accepted <+: s.offered) : s.InOrder := by
  have hnot {P : Prop} (hopen : s.closed = false) : P := by
    rw [hclosed] at hopen
    cases hopen
  exact ⟨hfront, hnot, hnot, hnot⟩

theorem InOrder.of_pending {s : HttpOutput} (hwriting : s.writing = true)
    (hvalid : s.buffer.Valid)
    (hpending : s.accepted ++ s.buffer.data = s.offered) : s.InOrder := by
  refine ⟨⟨_, hpending⟩, fun _ => hvalid, ?_, fun _ _ => hpending⟩
  intro _ hidle
  rw [hwriting] at hidle
  cases hidle

theorem InOrder.of_settled {s : HttpOutput} (hidle : s.writing = false)
    (hvalid : s.buffer.Valid) (hsettled : s.accepted = s.offered) :
    s.InOrder := by
  refine ⟨hsettled ▸ List.prefix_refl _, fun _ => hvalid,
    fun _ _ => hsettled, ?_⟩
  intro _ hwriting
  rw [hidle] at hwriting
  cases hwriting

/-- Behind a partial write, `send` finds the rest of the data. -/
theorem fetch_rest {buf : Buffer} (hbuf : buf.Valid) {n : Nat}
    (hn : n ≤ buf.data.length) :
    buf.fetch (buf.low + n) (asSize (buf.dataLen - n)) =
      some (buf.data.drop n) := by
  have hlow := hbuf.low_nonneg
  have hlt := hbuf.high_lt
  have hcap := hbuf.high_le_capacity
  have hlen := hbuf.dataLen_eq
  have hcount : asSize (buf.dataLen - n) = buf.dataLen.toNat - n := by
    have hsize := asSize_of_nonneg (buf.dataLen - n)
      (by rw [Buffer.dataLen]; omega) (by rw [Buffer.dataLen]; omega)
    rw [Buffer.dataLen] at hsize ⊢
    omega
  rw [Buffer.data_length] at hn
  rw [hcount, Buffer.fetch, if_pos, Buffer.data, cells_drop _ _ hn]
  rw [Buffer.dataLen]
  rw [Buffer.data_length, Buffer.dataLen] at hlen
  rw [Buffer.dataLen] at hn
  omega

/-- A partial write from an orderly state leaves the rest pending. -/
theorem send_partial_inOrder {s : HttpOutput} (hs : s.InOrder)
    (hopen : s.closed = false) (req : HttpRequest) (junk : Int → UInt8)
    {buf : Buffer} (hbuf : buf.Valid) {n : Nat} (hn : n < buf.data.length)
    (hgrow : s.buffer.capacity + 2 * (buf.data.length + 1) < 2 ^ 63)
    (hroom : s.buffer.RoomFor (buf.data.length - n))
    (hlast : s.accepted ++ buf.data.take n ++ s.buffer.data =
      s.offered ++ buf.data.take n) :
    ∃ next, s.send req junk buf (some n) = some next ∧ next.InOrder := by
  have hvalid := hs.valid hopen
  have hlen := hbuf.dataLen_eq
  have hless : (n : Int) < buf.dataLen := by
    rw [Buffer.dataLen]
    omega
  have hdrop : (buf.data.drop n).length = buf.data.length - n :=
    List.length_drop
  obtain ⟨b, happend, hext⟩ := Buffer.append_extends hvalid junk
    (buf.data.drop n) (by omega) (Or.inr (hdrop ▸ hroom))
  have hb : b.Valid := hext.valid hvalid (by rw [hdrop]; exact hroom.1)
  have hsend : s.send req junk buf (some n) = some { s with
      buffer := b
      writing := true
      offered := s.offered ++ buf.data
      accepted := s.accepted ++ buf.data.take n } := by
    simp only [send, writeResult, if_pos hless, fetch_rest hbuf hn.le,
      Option.bind_some, takes, happend, Option.map_some, Option.getD_some]
  refine ⟨_, hsend, InOrder.of_pending rfl hb ?_⟩
  change s.accepted ++ buf.data.take n ++ b.data = s.offered ++ buf.data
  rw [hext.data_eq, ← List.append_assoc, hlast, List.append_assoc,
    List.take_append_drop]

/-- A write of everything at once, when nothing was pending or there was
nothing to write. -/
theorem send_whole_inOrder {s : HttpOutput} (hs : s.InOrder)
    (hopen : s.closed = false) (req : HttpRequest) (junk : Int → UInt8)
    {buf : Buffer} (hbuf : buf.Valid)
    (hidle : s.writing = true → buf.data = []) :
    ∃ next, s.send req junk buf (some buf.data.length) = some next ∧
      next.InOrder := by
  have hvalid := hs.valid hopen
  have hlen := hbuf.dataLen_eq
  have hnot : ¬ (buf.data.length : Int) < buf.dataLen := by
    rw [Buffer.dataLen]
    omega
  have hsend : s.send req junk buf (some buf.data.length) =
      if req.closes then some { s with
        closed := true
        offered := s.offered ++ buf.data
        accepted := s.accepted ++ buf.data }
      else some { s with
        timer := true
        offered := s.offered ++ buf.data
        accepted := s.accepted ++ buf.data } := by
    simp only [send, writeResult, if_neg hnot, takes, Option.getD_some,
      List.take_length]
  rw [hsend]
  cases hwriting : s.writing with
  | true =>
      have hpending := hs.pending hopen hwriting
      simp only [hidle hwriting, List.append_nil]
      by_cases hcloses : req.closes
      · rw [if_pos hcloses]
        exact ⟨_, rfl, InOrder.of_closed rfl hs.accepted_prefix⟩
      · rw [if_neg hcloses]
        exact ⟨_, rfl, InOrder.of_pending rfl hvalid hpending⟩
  | false =>
      have hsettled := hs.settled hopen hwriting
      by_cases hcloses : req.closes
      · rw [if_pos hcloses]
        refine ⟨_, rfl, InOrder.of_closed rfl ?_⟩
        rw [hsettled]
      · rw [if_neg hcloses]
        refine ⟨_, rfl, InOrder.of_settled rfl hvalid ?_⟩
        rw [hsettled]

/-- A deferred write takes from the pending bytes. -/
theorem handleWrite_inOrder {s : HttpOutput} (hs : s.InOrder)
    (hopen : s.closed = false) (hwriting : s.writing = true)
    (req : HttpRequest) {n : Nat} (hn : n ≤ s.buffer.data.length) :
    (s.handleWrite req (some n)).InOrder := by
  have hvalid := hs.valid hopen
  have hpending := hs.pending hopen hwriting
  have hlen := hvalid.dataLen_eq
  have hlow := hvalid.low_nonneg
  have hlt := hvalid.high_lt
  by_cases hall : (n : Int) = s.buffer.dataLen
  · obtain rfl : n = s.buffer.data.length := by
      rw [Buffer.dataLen] at hall
      omega
    simp only [handleWrite, writeResult, takes, Option.getD_some, if_pos hall,
      List.take_length]
    by_cases hcloses : req.closes
    · rw [if_pos hcloses]
      exact InOrder.of_closed rfl ⟨[], by simpa using hpending⟩
    · rw [if_neg hcloses]
      exact InOrder.of_settled rfl hvalid hpending
  · have hfit : (n : Int) ≤ s.buffer.high - s.buffer.low := by omega
    have hsize : asSize (n : Int) = n := asSize_natCast (by omega)
    have hmove := Buffer.moveLow_eq hvalid (n := n) (by omega)
    simp only [handleWrite, writeResult, takes, Option.getD_some, if_neg hall,
      hsize, hmove, if_pos hfit]
    refine InOrder.of_pending hwriting (hvalid.advance hfit) ?_
    change s.accepted ++ s.buffer.data.take n ++
      Buffer.data { s.buffer with low := s.buffer.low + n } = s.offered
    rw [Buffer.data_moveLow hvalid hfit, List.append_assoc,
      List.take_append_drop, hpending]

/-- A failed deferred write asks `moveLow` for `(size_t) -1`; with `low` at 0
that is more than there is, and nothing moves. -/
theorem handleWrite_failed_inOrder {s : HttpOutput} (hs : s.InOrder)
    (hopen : s.closed = false) (req : HttpRequest)
    (hlow : s.buffer.low = 0) : (s.handleWrite req none).InOrder := by
  have hvalid := hs.valid hopen
  have hhigh := hvalid.low_le_high
  have hlt := hvalid.high_lt
  have hne : ¬ (-1 : Int) = s.buffer.dataLen := by
    rw [Buffer.dataLen]
    omega
  have hkept : s.buffer.moveLow (asSize (-1)) = (s.buffer, false) := by
    have hsum : asSize ((asSize (-1) : Nat) + s.buffer.low) = 2 ^ 64 - 1 := by
      rw [hlow]
      rfl
    have hsize := asSize_of_nonneg s.buffer.high (by omega) (by omega)
    rw [Buffer.moveLow, if_pos]
    rw [hsum]
    omega
  simp only [handleWrite, writeResult, takes, if_neg hne, hkept,
    Option.getD_none, List.take_zero, List.append_nil]
  exact hs

/-- One orderly event keeps the stream in order. -/
theorem step_inOrder (s : HttpOutput) (event : OutputEvent) (hs : s.InOrder)
    (hgood : s.Possible event ∧ s.Orderly event) :
    ∃ next, s.step event = some next ∧ next.InOrder := by
  obtain ⟨hpossible, horderly⟩ := hgood
  cases event with
  | send req junk buf result =>
      obtain ⟨hopen, hbuf, hcount, hgrow⟩ := hpossible
      obtain ⟨n, rfl, hplace, hroom⟩ := horderly
      rw [Option.getD_some] at hcount
      rcases Nat.lt_or_eq_of_le hcount with hpart | rfl
      · refine send_partial_inOrder hs hopen req junk hbuf hpart hgrow
          (hroom hpart) ?_
        cases hwriting : s.writing with
        | true =>
            rw [if_pos hwriting] at hplace
            subst hplace
            simpa using hs.pending hopen hwriting
        | false =>
            rw [if_neg (by simp [hwriting])] at hplace
            rw [hs.settled hopen hwriting,
              hplace.resolve_left hpart.ne, List.append_nil]
      · refine send_whole_inOrder hs hopen req junk hbuf ?_
        intro hwriting
        rw [if_pos hwriting] at hplace
        exact List.length_eq_zero_iff.mp hplace
  | handleWrite req result =>
      obtain ⟨hopen, hwriting, hcount⟩ := hpossible
      refine ⟨_, rfl, ?_⟩
      cases result with
      | none => exact handleWrite_failed_inOrder hs hopen req (horderly rfl)
      | some n => exact handleWrite_inOrder hs hopen hwriting req hcount

/-- In every run of orderly events the kernel gets the bytes handed to `send`,
in order and once each, and the connection stops waiting to write only when it
has got all of them. -/
theorem output_intact_of_orderly (events : List OutputEvent)
    (hgood : Along step (fun s event => s.Possible event ∧ s.Orderly event)
      init events) :
    Always step Intact init events := by
  have halways := Always.of_along step_inOrder init_inOrder hgood
  exact halways.mono fun _ hs => hs.intact

/-- A response in a buffer of its own. -/
def filled (bytes : Bytes) : Buffer :=
  (Buffer.init.append (fun _ => 0) bytes).getD .init

theorem filled_valid {bytes : Bytes} (hshort : bytes.length ≤ 4096) :
    (filled bytes).Valid := by
  have hroom : Buffer.init.RoomFor bytes.length := by
    change (0 : Int) + bytes.length < 2 ^ 31 ∧
      ((0 : Int) + bytes.length ≤ 4096 ∨ _)
    exact ⟨by omega, Or.inl (by omega)⟩
  have hgrow : Buffer.init.capacity + 2 * bytes.length < 2 ^ 63 := by
    change 4096 + 2 * bytes.length < 2 ^ 63
    omega
  obtain ⟨b, happend, hext⟩ := Buffer.append_extends Buffer.init_valid
    (fun _ => 0) bytes hgrow (Or.inr hroom)
  rw [filled, happend]
  exact hext.valid Buffer.init_valid hroom.1

theorem output_intact_of_orderly_deferred :
    Always step Intact init
      [.send .init (fun _ => 0) (filled (lit "abc")) (some 1),
        .handleWrite .init none, .handleWrite .init (some 1),
        .send .init (fun _ => 0) (filled (lit "de")) (some 0),
        .handleWrite .init (some 3),
        .send .init (fun _ => 0) (filled (lit "f")) (some 1)] := by
  apply output_intact_of_orderly
  have habc : (filled (lit "abc")).Valid := filled_valid (by decide)
  have hde : (filled (lit "de")).Valid := filled_valid (by decide)
  have hf : (filled (lit "f")).Valid := filled_valid (by decide)
  refine ⟨⟨⟨rfl, habc, by decide, by decide⟩, 1, rfl, Or.inr rfl,
    fun _ => ⟨by decide, Or.inl (by decide)⟩⟩, ?_⟩
  rintro next ⟨⟩
  refine ⟨⟨⟨rfl, rfl, by decide⟩, fun _ => rfl⟩, ?_⟩
  rintro next ⟨⟩
  refine ⟨⟨⟨rfl, rfl, by decide⟩, fun hfail => by cases hfail⟩, ?_⟩
  rintro next ⟨⟩
  refine ⟨⟨⟨rfl, hde, by decide, by decide⟩, 0, rfl, rfl,
    fun _ => ⟨by decide, Or.inl (by decide)⟩⟩, ?_⟩
  rintro next ⟨⟩
  refine ⟨⟨⟨rfl, rfl, by decide⟩, fun hfail => by cases hfail⟩, ?_⟩
  rintro next ⟨⟩
  exact ⟨⟨⟨rfl, hf, by decide, by decide⟩, 1, rfl, Or.inl rfl,
    fun hless => absurd hless (by decide)⟩, fun _ _ => trivial⟩

/-- The deferred write that completes a response leaves its bytes in
`output_buffer`, so the next response that has to wait sends them again:
"ab" and "cd" reach the peer as "abcbd". -/
theorem completed_bytes_sent_again :
    Along step Possible init
        [.send .init (fun _ => 0) (filled (lit "ab")) (some 1),
          .handleWrite .init (some 1),
          .send .init (fun _ => 0) (filled (lit "cd")) (some 1),
          .handleWrite .init (some 2)] ∧
      ¬ Always step (fun s => s.accepted <+: s.offered) init
        [.send .init (fun _ => 0) (filled (lit "ab")) (some 1),
          .handleWrite .init (some 1),
          .send .init (fun _ => 0) (filled (lit "cd")) (some 1),
          .handleWrite .init (some 2)] := by
  have hab : (filled (lit "ab")).Valid := filled_valid (by decide)
  have hcd : (filled (lit "cd")).Valid := filled_valid (by decide)
  constructor
  · refine ⟨⟨rfl, hab, by decide, by decide⟩, ?_⟩
    rintro next ⟨⟩
    refine ⟨⟨rfl, rfl, by decide⟩, ?_⟩
    rintro next ⟨⟩
    refine ⟨⟨rfl, hcd, by decide, by decide⟩, ?_⟩
    rintro next ⟨⟩
    exact ⟨⟨rfl, rfl, by decide⟩, fun _ _ => trivial⟩
  · intro halways
    obtain ⟨last, hlast, hfront⟩ := halways.final
    have hsent : (run step init
        [.send .init (fun _ => 0) (filled (lit "ab")) (some 1),
          .handleWrite .init (some 1),
          .send .init (fun _ => 0) (filled (lit "cd")) (some 1),
          .handleWrite .init (some 2)]).map
            (fun s => (s.accepted, s.offered)) =
        some (lit "abcbd", lit "abcd") := by decide +kernel
    rw [hlast, Option.map_some, Option.some.injEq, Prod.mk.injEq] at hsent
    rw [hsent.1, hsent.2] at hfront
    exact absurd hfront (by decide)

end HttpOutput

end Sone

end LinuxTest
