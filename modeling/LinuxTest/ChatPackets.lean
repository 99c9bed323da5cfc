/-
The packet loops of `chatroom/server.cpp` and `chatroom/client.cpp`.  Each cuts
what one `read` put into a buffer of `BUFFSIZE` bytes into packets of the one
kind it handles, by `memcpy` from the buffer, and stops when it is `len` bytes
into it.
-/
import LinuxTest.ByteString
import Mathlib.Data.Nat.Basic

namespace LinuxTest

namespace Chat

variable {P : Type}

/-! ### Packets of one kind at the front of a byte string -/

/-- The four bytes of the `PROTOCOL_ID` at the front, the low one first. -/
def protocolId : Bytes → Nat
  | b0 :: b1 :: b2 :: b3 :: _ =>
      b0.toNat + 256 * (b1.toNat + 256 * (b2.toNat + 256 * b3.toNat))
  | _ => 0

/-- A kind of packets: their id, their `sizeof`, and what their bytes say. -/
structure Format (P : Type) where
  id : Nat
  size : Nat
  decode : Bytes → P
  id_fits : 4 ≤ size

namespace Format

variable (format : Format P)

/-- The bytes start with a whole packet of the kind. -/
def Whole (data : Bytes) : Prop :=
  format.size ≤ data.length ∧ protocolId (data.take 4) = format.id

instance (data : Bytes) : Decidable (format.Whole data) :=
  inferInstanceAs (Decidable (_ ∧ _))

variable {format} in
theorem Whole.drop_length_lt {data : Bytes} (hwhole : format.Whole data) :
    (data.drop format.size).length < data.length := by
  have hsize := format.id_fits
  have hle := hwhole.1
  rw [List.length_drop]
  omega

/-- The whole packets of the kind that the bytes start with. -/
def packets (data : Bytes) : List P :=
  if _ : format.Whole data then
    format.decode (data.take format.size) ::
      packets (data.drop format.size)
  else
    []
termination_by data.length
decreasing_by exact Whole.drop_length_lt ‹_›

/-- What follows them. -/
def rest (data : Bytes) : Bytes :=
  if _ : format.Whole data then rest (data.drop format.size) else data
termination_by data.length
decreasing_by exact Whole.drop_length_lt ‹_›

variable {format} {data : Bytes}

theorem packets_of_whole (hwhole : format.Whole data) :
    format.packets data = format.decode (data.take format.size) ::
      format.packets (data.drop format.size) := by
  rw [packets, dif_pos hwhole]

theorem packets_of_not_whole (hwhole : ¬ format.Whole data) :
    format.packets data = [] := by
  rw [packets, dif_neg hwhole]

theorem rest_of_whole (hwhole : format.Whole data) :
    format.rest data = format.rest (data.drop format.size) := by
  rw [rest, dif_pos hwhole]

theorem rest_of_not_whole (hwhole : ¬ format.Whole data) :
    format.rest data = data := by
  rw [rest, dif_neg hwhole]

end Format

/-! ### The loop -/

/-- `memcpy` of `n` bytes from offset `fin` on; `none` outside the buffer. -/
def copy (buf : Bytes) (fin n : Nat) : Option Bytes :=
  if fin + n ≤ buf.length then some ((buf.drop fin).take n) else none

/-- What `default:` does with an id that is not handled. -/
inductive Unknown where
  | leave
  | again
  deriving DecidableEq

/-- The packets that were handled, and how far into the buffer they, and the
ids looked at, reach. -/
structure Handled (P : Type) where
  packets : List P
  extent : Nat

/-- `while(fin != len)`.  There is no result without enough fuel, nor when the
loop leaves the buffer. -/
def packetLoop (format : Format P) (unknown : Unknown) (buf : Bytes)
    (len : Nat) : Nat → Nat → Option (Handled P)
  | 0, _ => none
  | fuel + 1, fin =>
      if fin = len then some ⟨[], 0⟩
      else
        (copy buf fin 4).bind fun id =>
          if protocolId id = format.id then
            (copy buf fin format.size).bind fun packet =>
              (packetLoop format unknown buf len fuel (fin + format.size)).map
                fun later => ⟨format.decode packet :: later.packets,
                  max (fin + format.size) later.extent⟩
          else if unknown = .leave then some ⟨[], fin + 4⟩
          else (packetLoop format unknown buf len fuel fin).map
            fun later => ⟨later.packets, max (fin + 4) later.extent⟩

/-! ### The three functions -/

def BUFFSIZE : Nat := 4096

def LOG : Nat := 0

def TRANSLATE : Nat := 1

structure Log where
  id : Nat
  logStatus : Bool
  identity : Bytes

structure Translate where
  id : Nat
  src : Bytes
  data : Bytes

/-- `struct _LOG_`: after the `bool` and the `identity`, padding up to
`LOGSIZE`. -/
def logFormat : Format Log where
  id := LOG
  size := 12
  decode packet :=
    ⟨protocolId packet, packet.getD 4 0 != 0, (packet.drop 5).take 4⟩
  id_fits := by decide

/-- `struct _TRANSLATE_`, of `TRANSIZE` bytes. -/
def translateFormat : Format Translate where
  id := TRANSLATE
  size := 108
  decode packet :=
    ⟨protocolId packet, (packet.drop 4).take 4, (packet.drop 8).take 100⟩
  id_fits := by decide

/-- `server::parse`. -/
def Server.parse (recvbuf : Bytes) (len fuel : Nat) : Option (Handled Log) :=
  packetLoop logFormat .leave recvbuf len fuel 0

/-- `server::parsedata`. -/
def Server.parsedata (datarecv : Bytes) (len fuel : Nat) :
    Option (Handled Translate) :=
  packetLoop translateFormat .leave datarecv len fuel 0

/-- `client::parse`, which also gets the -1 of a `read` that failed. -/
def Client.parse (serRecv : Bytes) (len : Int) (fuel : Nat) :
    Option (Handled Translate) :=
  if len = -1 then some ⟨[], 0⟩
  else packetLoop translateFormat .again serRecv len.toNat fuel 0

/-! ### Where the loop ends -/

section Loop

variable {format : Format P} {unknown : Unknown} {buf : Bytes}
  {len fuel fin : Nat} {result : Handled P}

/-- The loop returns, has looked at the first `len` bytes only, and has handled
the whole packets at the front of `data`. -/
def Exact (format : Format P) (loop : Nat → Option (Handled P)) (len : Nat)
    (data : Bytes) : Prop :=
  ∃ fuel result, loop fuel = some result ∧ result.extent ≤ len ∧
    result.packets = format.packets data

/-- What a loop may find behind the last whole packet: nothing, or, if it
leaves then, an id it does not handle. -/
def Ends (format : Format P) (unknown : Unknown) (rest : Bytes) : Prop :=
  rest = [] ∨ (unknown = .leave ∧ 4 ≤ rest.length ∧
    protocolId (rest.take 4) ≠ format.id)

theorem copy_of_le {n : Nat} (hlen : len ≤ buf.length)
    (hfits : fin + n ≤ len) :
    copy buf fin n = some (((buf.take len).drop fin).take n) := by
  have hmin : min n (len - fin) = n := by omega
  rw [copy, if_pos (by omega), List.drop_take, List.take_take, hmin]

theorem length_drop_take (hlen : len ≤ buf.length) :
    ((buf.take len).drop fin).length = len - fin := by
  rw [List.length_drop, List.length_take]
  omega

/-- One round over a whole packet. -/
theorem packetLoop_whole (hlen : len ≤ buf.length) (hfin : fin ≤ len)
    (hwhole : format.Whole ((buf.take len).drop fin)) :
    packetLoop format unknown buf len (fuel + 1) fin =
      (packetLoop format unknown buf len fuel (fin + format.size)).map
        fun later =>
          ⟨format.decode (((buf.take len).drop fin).take format.size) ::
            later.packets, max (fin + format.size) later.extent⟩ := by
  obtain ⟨hsize, hid⟩ := hwhole
  rw [length_drop_take hlen] at hsize
  have hfits := format.id_fits
  rw [packetLoop, if_neg (by omega), copy_of_le hlen (by omega),
    Option.bind_some, if_pos hid, copy_of_le hlen (by omega),
    Option.bind_some]

/-- Every round looks at an id. -/
theorem add_four_le_extent (hfin : fin ≠ len)
    (hloop : packetLoop format unknown buf len fuel fin = some result) :
    fin + 4 ≤ result.extent := by
  have hfits := format.id_fits
  cases fuel with
  | zero => cases hloop
  | succ fuel =>
      rw [packetLoop, if_neg hfin, Option.bind_eq_some_iff] at hloop
      obtain ⟨id, _, hloop⟩ := hloop
      split at hloop
      · rw [Option.bind_eq_some_iff] at hloop
        obtain ⟨packet, _, hloop⟩ := hloop
        obtain ⟨later, _, rfl⟩ := Option.map_eq_some_iff.mp hloop
        change fin + 4 ≤ max (fin + format.size) later.extent
        omega
      · split at hloop
        · cases hloop
          exact le_refl _
        · obtain ⟨later, _, rfl⟩ := Option.map_eq_some_iff.mp hloop
          exact le_max_left _ _

/-- A packet of the kind is copied as a whole. -/
theorem add_size_le_extent (hlen : len ≤ buf.length) (hfits : fin + 4 ≤ len)
    (hid : protocolId (((buf.take len).drop fin).take 4) = format.id)
    (hloop : packetLoop format unknown buf len fuel fin = some result) :
    fin + format.size ≤ result.extent := by
  cases fuel with
  | zero => cases hloop
  | succ fuel =>
      rw [packetLoop, if_neg (by omega), copy_of_le hlen hfits,
        Option.bind_some, if_pos hid, Option.bind_eq_some_iff] at hloop
      obtain ⟨packet, _, hloop⟩ := hloop
      obtain ⟨later, _, rfl⟩ := Option.map_eq_some_iff.mp hloop
      exact le_max_left _ _

/-- At an id that it does not handle, a loop that does not leave stays for
good. -/
theorem packetLoop_again (hlen : len ≤ buf.length) (hfits : fin + 4 ≤ len)
    (hid : protocolId (((buf.take len).drop fin).take 4) ≠ format.id)
    (fuel : Nat) : packetLoop format .again buf len fuel fin = none := by
  induction fuel with
  | zero => rfl
  | succ fuel ih =>
      rw [packetLoop, if_neg (by omega), copy_of_le hlen hfits,
        Option.bind_some, if_neg hid, if_neg (by simp), ih]
      rfl

/-- No whole packet is left: the loop must end here. -/
theorem exact_iff_of_not_whole (hlen : len ≤ buf.length) (hfin : fin ≤ len)
    (hwhole : ¬ format.Whole ((buf.take len).drop fin)) :
    Exact format (packetLoop format unknown buf len · fin) len
        ((buf.take len).drop fin) ↔
      Ends format unknown ((buf.take len).drop fin) := by
  have hlength := @length_drop_take buf len fin hlen
  by_cases hend : fin = len
  · have hnil : (buf.take len).drop fin = [] := by
      rw [← List.length_eq_zero_iff]
      omega
    refine iff_of_true ⟨1, ⟨[], 0⟩, ?_, Nat.zero_le _, ?_⟩ (Or.inl hnil)
    · exact if_pos hend
    · exact (Format.packets_of_not_whole hwhole).symm
  have hrest : (buf.take len).drop fin ≠ [] := by
    rw [← List.length_pos_iff]
    omega
  by_cases hfits : fin + 4 ≤ len
  · by_cases hid : protocolId (((buf.take len).drop fin).take 4) = format.id
    · -- The packet is cut off, but copied as if it were whole.
      refine iff_of_false ?_ ?_
      · rintro ⟨fuel, result, hloop, hextent, _⟩
        have hsize := add_size_le_extent hlen hfits hid hloop
        refine hwhole ⟨?_, hid⟩
        omega
      · rintro (hnil | ⟨_, _, hother⟩)
        · exact hrest hnil
        · exact hother hid
    · cases unknown with
      | leave =>
          refine iff_of_true ⟨1, ⟨[], fin + 4⟩, ?_, hfits, ?_⟩
            (Or.inr ⟨rfl, by omega, hid⟩)
          · change packetLoop format .leave buf len 1 fin = _
            rw [packetLoop, if_neg hend, copy_of_le hlen hfits,
              Option.bind_some, if_neg hid, if_pos rfl]
          · exact (Format.packets_of_not_whole hwhole).symm
      | again =>
          refine iff_of_false ?_ ?_
          · rintro ⟨fuel, result, hloop, _⟩
            have hnone := packetLoop_again hlen hfits hid fuel
            cases hnone.symm.trans hloop
          · rintro (hnil | ⟨hleave, _⟩)
            · exact hrest hnil
            · cases hleave
  · -- Not even the id is there.
    refine iff_of_false ?_ ?_
    · rintro ⟨fuel, result, hloop, hextent, _⟩
      have hid := add_four_le_extent hend hloop
      omega
    · rintro (hnil | ⟨_, hfour, _⟩)
      · exact hrest hnil
      · omega

/-- A whole packet is handled, and the loop goes on behind it. -/
theorem exact_iff_of_whole (hlen : len ≤ buf.length) (hfin : fin ≤ len)
    (hwhole : format.Whole ((buf.take len).drop fin)) :
    Exact format (packetLoop format unknown buf len · fin) len
        ((buf.take len).drop fin) ↔
      Exact format
        (packetLoop format unknown buf len · (fin + format.size)) len
        ((buf.take len).drop (fin + format.size)) := by
  have hsize := hwhole.1
  rw [length_drop_take hlen] at hsize
  have hdrop : ((buf.take len).drop fin).drop format.size =
      (buf.take len).drop (fin + format.size) := by
    rw [List.drop_drop]
  constructor
  · rintro ⟨fuel, result, hloop, hextent, hpackets⟩
    cases fuel with
    | zero => cases hloop
    | succ fuel =>
        change packetLoop format unknown buf len (fuel + 1) fin = _ at hloop
        rw [packetLoop_whole hlen hfin hwhole] at hloop
        obtain ⟨later, hlater, rfl⟩ := Option.map_eq_some_iff.mp hloop
        rw [Format.packets_of_whole hwhole, hdrop] at hpackets
        exact ⟨fuel, later, hlater, (le_max_right _ _).trans hextent,
          (List.cons.inj hpackets).2⟩
  · rintro ⟨fuel, later, hlater, hextent, hpackets⟩
    refine ⟨fuel + 1,
      ⟨format.decode (((buf.take len).drop fin).take format.size) ::
        later.packets, max (fin + format.size) later.extent⟩, ?_, ?_, ?_⟩
    · change packetLoop format unknown buf len (fuel + 1) fin = _
      change packetLoop format unknown buf len fuel _ = _ at hlater
      rw [packetLoop_whole hlen hfin hwhole, hlater]
      rfl
    · exact max_le (by omega) hextent
    · rw [Format.packets_of_whole hwhole, hdrop, hpackets]

theorem exact_packetLoop_iff (hlen : len ≤ buf.length) (hfin : fin ≤ len) :
    Exact format (packetLoop format unknown buf len · fin) len
        ((buf.take len).drop fin) ↔
      Ends format unknown (format.rest ((buf.take len).drop fin)) := by
  induction hleft : len - fin using Nat.strong_induction_on
    generalizing fin with
  | _ left ih =>
      by_cases hwhole : format.Whole ((buf.take len).drop fin)
      · have hsize := hwhole.1
        rw [length_drop_take hlen] at hsize
        have hfits := format.id_fits
        rw [exact_iff_of_whole hlen hfin hwhole,
          ih (len - (fin + format.size)) (by omega) (by omega) rfl,
          Format.rest_of_whole hwhole, List.drop_drop]
      · rw [exact_iff_of_not_whole hlen hfin hwhole,
          Format.rest_of_not_whole hwhole]

end Loop

/-- The loops keep to the received bytes and to the packets in them exactly when
nothing follows the whole packets, or, in the server, an id that is not
handled. -/
theorem parse_exact_iff {buf : Bytes} {len : Nat}
    (hbuf : buf.length = BUFFSIZE) (hlen : len ≤ BUFFSIZE) :
    (Exact logFormat (Server.parse buf len) len (buf.take len) ↔
      Ends logFormat .leave (logFormat.rest (buf.take len))) ∧
    (Exact translateFormat (Server.parsedata buf len) len (buf.take len) ↔
      Ends translateFormat .leave (translateFormat.rest (buf.take len))) ∧
    (Exact translateFormat (Client.parse buf len) len (buf.take len) ↔
      translateFormat.rest (buf.take len) = []) := by
  have hle : len ≤ buf.length := by omega
  refine ⟨exact_packetLoop_iff hle (Nat.zero_le len),
    exact_packetLoop_iff hle (Nat.zero_le len), ?_⟩
  have hclient : Client.parse buf len =
      (packetLoop translateFormat .again buf len · 0) := by
    funext fuel
    exact if_neg (by omega)
  have hends : Ends translateFormat .again
      (translateFormat.rest (buf.take len)) ↔
      translateFormat.rest (buf.take len) = [] := by
    refine or_iff_left ?_
    rintro ⟨hleave, _⟩
    cases hleave
  rw [hclient, ← hends]
  exact exact_packetLoop_iff hle (Nat.zero_le len)

/-- A whole `LOG` packet keeps the client busy for good.  Of a packet that is
cut off behind its id, the server takes the rest from behind the received
bytes. -/
theorem parse_not_exact :
    (∀ fuel, Client.parse (List.replicate 4096 0) 12 fuel = none) ∧
    ¬ Exact logFormat (Server.parse (List.replicate 4096 0) 4) 4
      ((List.replicate 4096 0).take 4) ∧
    ¬ Exact translateFormat (Server.parsedata (1 :: List.replicate 4095 0) 4)
      4 ((1 :: List.replicate 4095 0).take 4) := by
  have hzero : (List.replicate 4096 (0 : UInt8)).length = 4096 :=
    List.length_replicate
  have hone : (1 :: List.replicate 4095 (0 : UInt8)).length = 4096 := by
    rw [List.length_cons, List.length_replicate]
  refine ⟨?_, ?_, ?_⟩
  · intro fuel
    refine packetLoop_again (by rw [hzero]; decide) (by decide) ?_ fuel
    rw [List.take_replicate]
    decide
  · rintro ⟨fuel, result, hloop, hextent, _⟩
    have hid : protocolId ((((List.replicate 4096 0).take 4).drop 0).take 4) =
        logFormat.id := by
      rw [List.take_replicate]
      rfl
    have hsize := add_size_le_extent (by rw [hzero]; decide) (le_refl 4) hid
      hloop
    change 0 + 12 ≤ result.extent at hsize
    omega
  · rintro ⟨fuel, result, hloop, hextent, _⟩
    have hid : protocolId ((((1 :: List.replicate 4095 0).take 4).drop 0).take
        4) = translateFormat.id := by
      rw [List.take_succ_cons, List.take_replicate]
      rfl
    have hsize := add_size_le_extent (by rw [hone]; decide) (le_refl 4) hid
      hloop
    change 0 + 108 ≤ result.extent at hsize
    omega

/-- A server that reads one whole `LOG` packet. -/
theorem parse_exact_one :
    Exact logFormat (Server.parse (List.replicate 4096 0) 12) 12
      ((List.replicate 4096 0).take 12) := by
  refine (parse_exact_iff List.length_replicate (by decide)).1.mpr
    (Or.inl ?_)
  have hwhole : logFormat.Whole (List.replicate 12 0) := by decide
  have hend : ¬ logFormat.Whole [] := by decide
  have htake : (List.replicate BUFFSIZE (0 : UInt8)).take 12 =
      List.replicate 12 0 := List.take_replicate
  rw [htake, Format.rest_of_whole hwhole]
  exact Format.rest_of_not_whole hend

end Chat

end LinuxTest
