/-
The FastCGI side of a request: what `createPhpResponse` writes to the
application and how `readContent` reads the answer.  The buffers are byte
queues.
-/
import LinuxTest.FastCgiRecord
import LinuxTest.MachineInt

namespace LinuxTest

namespace Sone

def FCGI_HEADER_LEN : Nat := 8
def FCGI_VERSION_1 : UInt8 := 1
def FCGI_BEGIN_REQUEST : UInt8 := 1
def FCGI_END_REQUEST : UInt8 := 3
def FCGI_PARAMS : UInt8 := 4
def FCGI_STDIN : UInt8 := 5
def FCGI_STDOUT : UInt8 := 6
def FCGI_STDERR : UInt8 := 7
def FCGI_RESPONDER : Nat := 1

/-- The size of the buffer that `sendParams` encodes a pair in. -/
def BUFSIZE : Nat := 8192

structure FCGI_Header where
  version : UInt8
  type : UInt8
  requestIdB1 : UInt8
  requestIdB0 : UInt8
  contentLengthB1 : UInt8
  contentLengthB0 : UInt8
  paddingLength : UInt8
  reserved : UInt8
deriving DecidableEq

/-- The header as it lies in memory. -/
def FCGI_Header.bytes (h : FCGI_Header) : Bytes :=
  [h.version, h.type, h.requestIdB1, h.requestIdB0, h.contentLengthB1,
    h.contentLengthB0, h.paddingLength, h.reserved]

structure FCGI_BeginRequestBody where
  roleB1 : UInt8
  roleB0 : UInt8
  flags : UInt8
  reserved : Bytes
deriving DecidableEq

def FCGI_BeginRequestBody.bytes (b : FCGI_BeginRequestBody) : Bytes :=
  b.roleB1 :: b.roleB0 :: b.flags :: b.reserved

structure FcgiConnection where
  requestId : Nat
  output_buffer : Bytes
  /-- What was written to the socket. -/
  written : Bytes
deriving DecidableEq

namespace FcgiConnection

def init (requestId : Nat) : FcgiConnection :=
  ⟨requestId, [], []⟩

/-- `(unsigned char)((n >> 8) & 0xff)`. -/
def byteB1 (n : Nat) : UInt8 :=
  UInt8.ofNat ((n >>> 8) &&& 0xff)

/-- `(unsigned char)(n & 0xff)`. -/
def byteB0 (n : Nat) : UInt8 :=
  UInt8.ofNat (n &&& 0xff)

/-- The header each of the functions below fills in, for its own type and
content length. -/
def header (c : FcgiConnection) (type : UInt8) (length : Nat) :
    FCGI_Header :=
  ⟨FCGI_VERSION_1, type, byteB1 c.requestId, byteB0 c.requestId,
    byteB1 length, byteB0 length, 0, 0⟩

/-- `output_buffer.append`. -/
def append (c : FcgiConnection) (bytes : Bytes) : FcgiConnection :=
  { c with output_buffer := c.output_buffer ++ bytes }

/-- `::write` of the whole buffer, and `moveLow` past what it accepted. -/
def write (c : FcgiConnection) : FcgiConnection :=
  { c with
    written := c.written ++ c.output_buffer
    output_buffer := [] }

def sendBeginRequest (c : FcgiConnection) : FcgiConnection :=
  let body : FCGI_BeginRequestBody :=
    ⟨byteB1 FCGI_RESPONDER, byteB0 FCGI_RESPONDER, 0, [0, 0, 0, 0, 0]⟩
  c.append ((c.header FCGI_BEGIN_REQUEST 8).bytes ++ body.bytes)

/-- The length of a name or a value in `makeValueBody`. -/
def lengthBytes (n : Nat) : Bytes :=
  if n < 128 then [UInt8.ofNat n]
  else [UInt8.ofNat ((n >>> 24) ||| 0x80), UInt8.ofNat (n >>> 16),
    UInt8.ofNat (n >>> 8), UInt8.ofNat n]

def makeValueBody (key value : Bytes) : Bytes :=
  lengthBytes key.length ++ lengthBytes value.length ++ key ++ value

/-- `*bodylen` after `makeValueBody`: a difference of pointers, stored in an
`int`. -/
def bodylen (key value : Bytes) : Int :=
  asInt (makeValueBody key value).length

/-- None where `makeValueBody` writes past the end of `buff`. -/
def sendParams (c : FcgiConnection) (key value : Bytes) :
    Option FcgiConnection :=
  let body := makeValueBody key value
  if body.length ≤ BUFSIZE then
    some ((c.append (c.header FCGI_PARAMS body.length).bytes).append body)
  else none

def sendEndRequest (c : FcgiConnection) : FcgiConnection :=
  (c.append (c.header FCGI_PARAMS 0).bytes).write

def sendContentHeader (c : FcgiConnection) (content : Bytes) (cLen : Nat) :
    FcgiConnection :=
  let c := c.append (c.header FCGI_STDIN cLen).bytes
  let c := c.append content
  (c.append (c.header FCGI_STDIN 0).bytes).write

/-- One `sendParams` per parameter. -/
def sendAllParams (c : FcgiConnection) :
    List (Bytes × Bytes) → Option FcgiConnection
  | [] => some c
  | param :: rest => (c.sendParams param.1 param.2).bind fun c =>
      c.sendAllParams rest

/-- The calls that `createPhpResponse` makes for a request. -/
def sendRequest (requestId : Nat) (params : List (Bytes × Bytes))
    (post : Bool) (body : Bytes) : Option FcgiConnection :=
  ((init requestId).sendBeginRequest.sendAllParams params).map fun c =>
    let c := c.sendEndRequest
    if post then c.sendContentHeader body body.length else c

end FcgiConnection

/-- The header after a read has stored `got` over its first bytes. -/
def FCGI_Header.store (h : FCGI_Header) (got : Bytes) : FCGI_Header :=
  match got ++ h.bytes.drop got.length with
  | [version, type, requestIdB1, requestIdB0, contentLengthB1,
      contentLengthB0, paddingLength, reserved] =>
      ⟨version, type, requestIdB1, requestIdB0, contentLengthB1,
        contentLengthB0, paddingLength, reserved⟩
  | _ => h

def FCGI_Header.contentLen (h : FCGI_Header) : Nat :=
  (h.contentLengthB1.toNat <<< 8) + h.contentLengthB0.toNat

/-- `readContent` between two reads: what is still to come from the socket
before its end, the number of reads made, the header, the buffer, and the most
bytes that any read has stored in `tmp`. -/
structure Reader where
  incoming : Bytes
  reads : Nat
  resp_header : FCGI_Header
  buf : Bytes
  tmpStored : Nat
deriving DecidableEq

namespace Reader

/-- What the kernel returns for one read.  At the end of the stream, or where
nothing is asked for, nothing; else any positive number of bytes up to the
amount asked, here at most what `grant` says for this read. -/
def got (grant : Nat → Nat) (s : Reader) (asked : Nat) : Bytes :=
  s.incoming.take (min asked (max 1 (grant s.reads)))

/-- After a read. -/
def advance (grant : Nat → Nat) (s : Reader) (asked : Nat) : Reader :=
  { s with
    incoming := s.incoming.drop (min asked (max 1 (grant s.reads)))
    reads := s.reads + 1 }

/-- `::read(fd, tmp, resp_header.paddingLength)`, where there is padding. -/
def skipPadding (grant : Nat → Nat) (s : Reader) : Reader :=
  if 0 < s.resp_header.paddingLength.toNat then
    { s.advance grant s.resp_header.paddingLength.toNat with
      tmpStored := max s.tmpStored
        (s.got grant s.resp_header.paddingLength.toNat).length }
  else s

/-- The body of the loop after the header was read. -/
def handle (grant : Nat → Nat) (s : Reader) : Reader :=
  if s.resp_header.type = FCGI_STDOUT then
    skipPadding grant { s.advance grant s.resp_header.contentLen with
      buf := s.buf ++ s.got grant s.resp_header.contentLen }
  else if s.resp_header.type = FCGI_STDERR then
    skipPadding grant (s.advance grant s.resp_header.contentLen)
  else if s.resp_header.type = FCGI_END_REQUEST then
    s.advance grant 8
  else s

/-- One turn of the loop; none where the read of the header returns 0. -/
def turn (grant : Nat → Nat) (s : Reader) : Option Reader :=
  match s.got grant FCGI_HEADER_LEN with
  | [] => none
  | head :: more => some (handle grant
      { s.advance grant FCGI_HEADER_LEN with
        resp_header := s.resp_header.store (head :: more) })

def loop (grant : Nat → Nat) : Nat → Reader → Option Reader
  | 0, _ => none
  | fuel + 1, s => match turn grant s with
    | none => some (s.advance grant FCGI_HEADER_LEN)
    | some next => loop grant fuel next

end Reader

namespace FcgiConnection

/-- `readContent` on a stream that ends after `incoming`, into an empty buffer;
`resp_header` starts with whatever its memory holds.  Each turn of the loop
takes a byte, so the stream's length bounds the turns. -/
def readContent (grant : Nat → Nat) (resp_header : FCGI_Header)
    (incoming : Bytes) : Option Reader :=
  Reader.loop grant (incoming.length + 1) ⟨incoming, 0, resp_header, [], 0⟩

end FcgiConnection

end Sone

end LinuxTest
