/-
The request parser of `http_server/HttpServer.cpp` with `util::URLDecode`: the
three parse functions, the line test and the loop of `onMessage` that drives
them over the input buffer of a connection.
-/
import LinuxTest.HttpMessage
import LinuxTest.HttpQueue

namespace LinuxTest

namespace Sone

def cr : UInt8 := 13
def lf : UInt8 := 10
def space : UInt8 := 32
def percent : UInt8 := 37
def ampersand : UInt8 := 38
def colon : UInt8 := 58
def equals : UInt8 := 61
def question : UInt8 := 63

/-- `HEXMAP[c]`; `operator[]` gives a character without an entry the value 0,
and `'0'` has none. -/
def hexMap (c : UInt8) : Nat :=
  if 49 ≤ c ∧ c ≤ 57 then c.toNat - 48
  else if 97 ≤ c ∧ c ≤ 102 then c.toNat - 87
  else if 65 ≤ c ∧ c ≤ 70 then c.toNat - 55
  else 0

/-- The loop of `URLDecode`; it returns `nullptr` at a `%` with fewer than two
bytes behind it. -/
def urlDecodeLoop : Bytes → Except Raise Bytes
  | [] => .ok []
  | c :: rest =>
      if c = percent then
        match rest with
        | high :: low :: rest => (urlDecodeLoop rest).map
            (UInt8.ofNat (hexMap high * 16 + hexMap low) :: ·)
        | _ => .error .nullString
      else (urlDecodeLoop rest).map (c :: ·)

/-- `util::URLDecode`: the loop runs to `(int)s.size()`, and the result is made
from a C string. -/
def urlDecode (s : Bytes) : Except Raise Bytes :=
  (urlDecodeLoop (s.take (intBound s.length))).map cString

/-- `req_check_state`. -/
inductive ReqCheckState where
  | checkRequestLine | checkHeader | checkContent
deriving DecidableEq, Repr

/-- `http_line_state`. -/
inductive HttpLineState where
  | lineOk | lineError | lineMore
deriving DecidableEq, Repr

/-- The part of a connection the parser works on: its input buffer, taken as a
byte queue, its parse state and its one request object. -/
structure HttpConn where
  queue : Bytes
  state : ReqCheckState
  request : HttpRequest

/-- A connection just accepted. -/
def HttpConn.init : HttpConn := ⟨[], .checkRequestLine, .init⟩

/-- How a parse function ends: `true`, `false`, or no value. -/
inductive Verdict where
  | accept | reject | raise (cause : Raise)
deriving DecidableEq, Repr

/-- Go on with the value of a call that may throw.  A throw leaves what was
stored before it. -/
def orRaise {V : Type} {T : Type} (value : Except Raise V) (stored : T)
    (next : V → T × Verdict) : T × Verdict :=
  match value with
  | .error cause => (stored, .raise cause)
  | .ok v => next v

/-- Go on after a step that ended with `true`. -/
def onAccept {T S : Type} (result : T × Verdict) (other : T → S)
    (next : T → S × Verdict) : S × Verdict :=
  match result with
  | (stored, .accept) => next stored
  | (stored, verdict) => (other stored, verdict)

/-- `HttpServer::parseLine`. -/
def parseLine (q : Bytes) : Except Raise HttpLineState :=
  let pos := Queue.findChar q cr 0
  if pos = -1 then .ok .lineMore
  else if pos + 1 = q.length then .ok .lineMore
  else (Queue.byteAt q (pos + 1)).map fun byte =>
    if byte = lf then .lineOk else .lineError

/-- The parameter loop that `parseRequestLine` and `parseContent` share, over
the pieces between `&`. -/
def parsePairs : List Bytes → HttpRequest → HttpRequest × Verdict
  | [], req => (req, .accept)
  | piece :: rest, req =>
      match cut equals piece with
      | none => (req, .reject)
      | some (key, val) =>
          orRaise (urlDecode key) req fun key =>
            orRaise (urlDecode val) req fun val =>
              parsePairs rest (req.setParam key val)

/-- The URL and query part of `parseRequestLine`. -/
def parseTarget (q : Bytes) (firstSpace secondSpace lineEnd : Int)
    (req : HttpRequest) : HttpRequest × Verdict :=
  let index := Queue.findCharIn q question (firstSpace + 1) lineEnd
  if index < 0 then
    orRaise (Queue.getDataToString q (secondSpace - firstSpace - 1)
      (firstSpace + 1)) req fun text =>
    orRaise (urlDecode text) req fun url =>
    ({ req with url := url }, .accept)
  else
    orRaise (Queue.getDataToString q (index - firstSpace - 1)
      (firstSpace + 1)) req fun text =>
    orRaise (urlDecode text) req fun url =>
    orRaise (Queue.getDataToString q (secondSpace - index - 1)
      (index + 1)) { req with url := url } fun params =>
    orRaise (urlDecode params) { req with url := url } fun query =>
    parsePairs (params.splitOn ampersand)
      { req with url := url, queryString := query }

/-- The version test of `parseRequestLine`: the last byte of the line, and for
`'0'` the byte two before it. -/
def parseVersion (q : Bytes) (lineEnd : Int) :
    Except Raise (Option HttpVersion) :=
  (Queue.byteAt q (lineEnd - 1)).bind fun last =>
    if last = 49 then .ok (some .http11)
    else if last = 48 then
      (Queue.byteAt q (lineEnd - 1 - 2)).map fun major =>
        if major = 49 then some .http10 else none
    else .ok none

/-- `HttpServer::parseRequestLine`. -/
def parseRequestLine (c : HttpConn) : HttpConn × Verdict :=
  let lineEnd := Queue.findChar c.queue cr 0
  let firstSpace := Queue.findCharIn c.queue space 0 lineEnd
  if firstSpace < 0 then (c, .reject)
  else
    orRaise (Queue.getDataToString c.queue firstSpace 0) c fun name =>
    if convertStringToMethod name = .unknow then (c, .reject)
    else
      let req := { c.request with method := convertStringToMethod name }
      let secondSpace :=
        Queue.findCharIn c.queue space (firstSpace + 1) lineEnd
      if secondSpace < 0 then ({ c with request := req }, .reject)
      else
        onAccept (parseTarget c.queue firstSpace secondSpace lineEnd req)
          (fun req => { c with request := req }) fun req =>
        orRaise (parseVersion c.queue lineEnd) { c with request := req }
          fun version =>
        match version with
        | none => ({ c with request := req }, .reject)
        | some version =>
            ({ queue := (Queue.moveLow c.queue (lineEnd + 2)).1
               state := .checkHeader
               request := { req with version := version } }, .accept)

/-- `HttpServer::parseHeaderLine`. -/
def parseHeaderLine (c : HttpConn) : HttpConn × Verdict :=
  let lineEnd := Queue.findChar c.queue cr 0
  let index := Queue.findCharIn c.queue colon 0 lineEnd
  if index < 0 then
    if lineEnd = 0 then
      ({ c with
          queue := (Queue.moveLow c.queue 2).1
          state := .checkContent }, .accept)
    else (c, .reject)
  else
    orRaise (Queue.getDataToString c.queue index 0) c fun key =>
    if convertStringToHeader key = .unknow then (c, .reject)
    else
      orRaise (Queue.getDataToString c.queue (lineEnd - index - 1)
        (index + 1)) c fun val =>
      let val := if val.head? = some space then val.tail else val
      ({ c with
          queue := (Queue.moveLow c.queue (lineEnd + 2)).1
          request := c.request.setHeader
            (convertHeaderToString (convertStringToHeader key)) val },
        .accept)

def formType : Bytes := lit "application/x-www-form-urlencoded"

/-- Whether `parseContent` reads the content as form parameters. -/
def HttpRequest.isForm (req : HttpRequest) : Bool :=
  req.method = .post ∧ req.getHeader (lit "Content-Type") = formType

/-- `HttpServer::parseContent`: whatever the buffer holds is the content. -/
def parseContent (c : HttpConn) : HttpConn × Verdict :=
  orRaise (Queue.getDataToString c.queue c.queue.length 0) c fun content =>
    let req := { c.request with content := content }
    onAccept
      (if req.isForm then parsePairs (content.splitOn ampersand) req
        else (req, .accept))
      (fun req => { c with request := req }) fun req =>
    ({ queue := (Queue.moveLow c.queue c.queue.length).1
       state := .checkRequestLine
       request := req }, .accept)

/-- How the loop of `onMessage` stops. -/
inductive LoopEnd where
  | more | malformed | rejected | raised (cause : Raise) | outOfFuel
deriving DecidableEq, Repr

/-- Where a parse function's verdict leaves the loop: on, or out of it. -/
def Verdict.loopEnd : Verdict → Option LoopEnd
  | .accept => none
  | .reject => some .rejected
  | .raise cause => some (.raised cause)

/-- The loop body after `parseLine` has looked at the buffer. -/
def lineTurn (parse : HttpConn → HttpConn × Verdict) (c : HttpConn) :
    HttpConn × Option LoopEnd :=
  match parseLine c.queue with
  | .error cause => (c, some (.raised cause))
  | .ok .lineMore => (c, some .more)
  | .ok .lineError => (c, some .malformed)
  | .ok .lineOk => ((parse c).1, (parse c).2.loopEnd)

/-- One evaluation of the loop's condition and body; `none` goes round again. -/
def turn (c : HttpConn) : HttpConn × Option LoopEnd :=
  match c.state with
  | .checkContent => ((parseContent c).1, (parseContent c).2.loopEnd)
  | .checkRequestLine => lineTurn parseRequestLine c
  | .checkHeader => lineTurn parseHeaderLine c

/-- The loop, with the `flag` that records a parsed content. -/
def parseLoop : Nat → HttpConn → Bool → HttpConn × Bool × LoopEnd
  | 0, c, flag => (c, flag, .outOfFuel)
  | fuel + 1, c, flag =>
      match turn c with
      | (next, some stop) => (next, flag, stop)
      | (next, none) =>
          parseLoop fuel next (flag || c.state = .checkContent)

/-- What a call of `onMessage` goes on to do. -/
inductive Reply where
  | wait
  | errorPage
  | respond (req : HttpRequest)
  | raise (cause : Raise)
  | stuck

/-- The connection with a chunk read into its input buffer. -/
def HttpConn.deliver (c : HttpConn) (chunk : Bytes) : HttpConn :=
  { c with queue := c.queue ++ chunk }

/-- The effect of `retErrResponse` on the request: the connection is to close
after the error page. -/
def HttpConn.closing (c : HttpConn) : HttpConn :=
  { c with request := c.request.setHeader (lit "Connection") (lit "close") }

/-- What `onMessage` does behind its loop, or at a return out of it. -/
def loopReply : HttpConn × Bool × LoopEnd → HttpConn × Reply
  | (c, _, .raised cause) => (c, .raise cause)
  | (c, _, .outOfFuel) => (c, .stuck)
  | (c, flag, .more) => (c, if flag then .respond c.request else .wait)
  | (c, _, .malformed) => (c.closing, .errorPage)
  | (c, _, .rejected) => (c.closing, .errorPage)

/-- The parsing part of `HttpServer::onMessage`. -/
def parseMessage (c : HttpConn) : HttpConn × Reply :=
  loopReply (parseLoop (c.queue.length + 2) c false)

end Sone

end LinuxTest
