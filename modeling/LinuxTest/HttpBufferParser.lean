/-
The parser of `http_server/HttpServer.cpp` over the `Buffer` of a connection,
call by call as the source makes them.  While the cursors of the buffer are in
order, every parse function does to the buffer what the one over the byte queue
does to its visible data.
-/
import LinuxTest.HttpParserStream

namespace LinuxTest

namespace Sone

namespace Buffer

/-- `getDataToString` with the `ssize_t` values that the parser computes. -/
def dataToString (b : Buffer) (n pos : Int) : Except Raise Bytes :=
  match b.getDataToString (asSize n) (asSize pos) with
  | none => .error .nullString
  | some text => .ok text

/-- `peek()[i]`; outside the data there is nothing to read. -/
def byteAt (b : Buffer) (i : Int) : Except Raise UInt8 :=
  if i < 0 ∨ b.dataLen ≤ i then .error .outOfData
  else .ok (b.mem (b.low + i))

end Buffer

/-- What an `HttpConnection` has for its input: `input_buffer`, the parse state
and the request object. -/
structure HttpInput where
  buffer : Buffer
  state : ReqCheckState
  request : HttpRequest

namespace HttpInput

def init : HttpInput := ⟨.init, .checkRequestLine, .init⟩

/-- The same connection over the visible data of its buffer. -/
def view (c : HttpInput) : HttpConn :=
  ⟨c.buffer.data, c.state, c.request⟩

/-- `HttpServer::parseLine`. -/
def parseLine (buf : Buffer) : Except Raise HttpLineState :=
  let pos := buf.findChar cr 0
  if pos = -1 then .ok .lineMore
  else if pos + 1 = buf.dataLen then .ok .lineMore
  else (buf.byteAt (pos + 1)).map fun byte =>
    if byte = lf then .lineOk else .lineError

/-- The URL and query part of `parseRequestLine`. -/
def parseTarget (buf : Buffer) (firstSpace secondSpace lineEnd : Int)
    (req : HttpRequest) : HttpRequest × Verdict :=
  let index :=
    buf.findCharIn question (asSize (firstSpace + 1)) (asSize lineEnd)
  if index < 0 then
    orRaise (buf.dataToString (secondSpace - firstSpace - 1)
      (firstSpace + 1)) req fun text =>
    orRaise (urlDecode text) req fun url =>
    ({ req with url := url }, .accept)
  else
    orRaise (buf.dataToString (index - firstSpace - 1) (firstSpace + 1)) req
      fun text =>
    orRaise (urlDecode text) req fun url =>
    orRaise (buf.dataToString (secondSpace - index - 1) (index + 1))
      { req with url := url } fun params =>
    orRaise (urlDecode params) { req with url := url } fun query =>
    parsePairs (params.splitOn ampersand)
      { req with url := url, queryString := query }

/-- The version test of `parseRequestLine`. -/
def parseVersion (buf : Buffer) (lineEnd : Int) :
    Except Raise (Option HttpVersion) :=
  (buf.byteAt (lineEnd - 1)).bind fun last =>
    if last = 49 then .ok (some .http11)
    else if last = 48 then
      (buf.byteAt (lineEnd - 1 - 2)).map fun major =>
        if major = 49 then some .http10 else none
    else .ok none

/-- `HttpServer::parseRequestLine`. -/
def parseRequestLine (c : HttpInput) : HttpInput × Verdict :=
  let buf := c.buffer
  let lineEnd := buf.findChar cr 0
  let firstSpace := buf.findCharIn space 0 (asSize lineEnd)
  if firstSpace < 0 then (c, .reject)
  else
    orRaise (buf.dataToString firstSpace 0) c fun name =>
    if convertStringToMethod name = .unknow then (c, .reject)
    else
      let req := { c.request with method := convertStringToMethod name }
      let secondSpace :=
        buf.findCharIn space (asSize (firstSpace + 1)) (asSize lineEnd)
      if secondSpace < 0 then ({ c with request := req }, .reject)
      else
        onAccept (parseTarget buf firstSpace secondSpace lineEnd req)
          (fun req => { c with request := req }) fun req =>
        orRaise (parseVersion buf lineEnd) { c with request := req }
          fun version =>
        match version with
        | none => ({ c with request := req }, .reject)
        | some version =>
            ({ buffer := (buf.moveLow (asSize (lineEnd + 2))).1
               state := .checkHeader
               request := { req with version := version } }, .accept)

/-- `HttpServer::parseHeaderLine`. -/
def parseHeaderLine (c : HttpInput) : HttpInput × Verdict :=
  let buf := c.buffer
  let lineEnd := buf.findChar cr 0
  let index := buf.findCharIn colon 0 (asSize lineEnd)
  if index < 0 then
    if lineEnd = 0 then
      ({ c with
          buffer := (buf.moveLow 2).1
          state := .checkContent }, .accept)
    else (c, .reject)
  else
    orRaise (buf.dataToString index 0) c fun key =>
    if convertStringToHeader key = .unknow then (c, .reject)
    else
      orRaise (buf.dataToString (lineEnd - index - 1) (index + 1)) c
        fun val =>
      let val := if val.head? = some space then val.tail else val
      ({ c with
          buffer := (buf.moveLow (asSize (lineEnd + 2))).1
          request := c.request.setHeader
            (convertHeaderToString (convertStringToHeader key)) val },
        .accept)

/-- `HttpServer::parseContent`. -/
def parseContent (c : HttpInput) : HttpInput × Verdict :=
  let buf := c.buffer
  orRaise (buf.dataToString buf.dataLen 0) c fun content =>
    let req := { c.request with content := content }
    onAccept
      (if req.isForm then parsePairs (content.splitOn ampersand) req
        else (req, .accept))
      (fun req => { c with request := req }) fun req =>
    ({ buffer := (buf.moveLow (asSize buf.dataLen)).1
       state := .checkRequestLine
       request := req }, .accept)

/-- The loop body after `parseLine` has looked at the buffer. -/
def lineTurn (parse : HttpInput → HttpInput × Verdict) (c : HttpInput) :
    HttpInput × Option LoopEnd :=
  match parseLine c.buffer with
  | .error cause => (c, some (.raised cause))
  | .ok .lineMore => (c, some .more)
  | .ok .lineError => (c, some .malformed)
  | .ok .lineOk => ((parse c).1, (parse c).2.loopEnd)

/-- One evaluation of the loop's condition and body. -/
def turn (c : HttpInput) : HttpInput × Option LoopEnd :=
  match c.state with
  | .checkContent => ((parseContent c).1, (parseContent c).2.loopEnd)
  | .checkRequestLine => lineTurn parseRequestLine c
  | .checkHeader => lineTurn parseHeaderLine c

/-- The loop of `onMessage`, with its `flag`. -/
def parseLoop : Nat → HttpInput → Bool → HttpInput × Bool × LoopEnd
  | 0, c, flag => (c, flag, .outOfFuel)
  | fuel + 1, c, flag =>
      match turn c with
      | (next, some stop) => (next, flag, stop)
      | (next, none) =>
          parseLoop fuel next (flag || c.state = .checkContent)

def closing (c : HttpInput) : HttpInput :=
  { c with request := c.request.setHeader (lit "Connection") (lit "close") }

/-- What `onMessage` does behind its loop, or at a return out of it. -/
def loopReply : HttpInput × Bool × LoopEnd → HttpInput × Reply
  | (c, _, .raised cause) => (c, .raise cause)
  | (c, _, .outOfFuel) => (c, .stuck)
  | (c, flag, .more) => (c, if flag then .respond c.request else .wait)
  | (c, _, .malformed) => (c.closing, .errorPage)
  | (c, _, .rejected) => (c.closing, .errorPage)

/-- The parsing part of `HttpServer::onMessage`. -/
def parseMessage (c : HttpInput) : HttpInput × Reply :=
  loopReply (parseLoop (c.buffer.dataLen.toNat + 2) c false)

end HttpInput

/-! ### The calls on the buffer -/

namespace Buffer

variable {b : Buffer}

theorem Valid.data_length_lt (hb : b.Valid) : b.data.length < 2 ^ 31 := by
  have hlow := hb.low_nonneg
  have hlt := hb.high_lt
  have hlen := hb.dataLen_eq
  omega

/-- Searching up to a position that was searched for, or not found. -/
theorem findCharIn_eq_queue_int (hb : b.Valid) (c : UInt8) {first last : Int}
    (hfirst : 0 ≤ first) (hlow : -1 ≤ last) (hhigh : last < 2 ^ 31)
    (hle : first < 2 ^ 31) :
    b.findCharIn c (asSize first) (asSize last) =
      Queue.findCharIn b.data c first last := by
  have hlength := hb.data_length_lt
  have hfirstSize := asSize_of_nonneg first hfirst (by omega)
  rw [findCharIn_eq_queue hb, hfirstSize]
  by_cases hneg : last = -1
  · have hlast := asSize_of_neg last (by omega) (by omega)
    rw [Queue.findCharIn, Queue.findCharIn, if_pos (by omega),
      if_pos (by omega)]
  · rw [asSize_of_nonneg last (by omega) (by omega)]

theorem dataToString_eq_queue (hb : b.Valid) {n pos : Int}
    (hmin : -2 ^ 31 ≤ n) (hmax : n < 2 ^ 31) (hpos : 0 ≤ pos)
    (hle : pos ≤ b.data.length) :
    b.dataToString n pos = Queue.getDataToString b.data n pos := by
  have hlength := hb.data_length_lt
  have hsize := asSize_of_nonneg pos hpos (by omega)
  have hposSize : asSize pos ≤ b.data.length := by omega
  have hqueue := getDataToString_eq_queue hb hmin hmax hposSize
  rw [hsize] at hqueue
  rw [dataToString, hqueue, Queue.getDataToString, if_neg (by omega)]
  by_cases hbad : n < 0 ∨ n > b.data.length - pos
  · rw [if_pos hbad]
    rfl
  · rw [if_neg hbad]
    rfl

theorem byteAt_eq_queue (hb : b.Valid) (i : Int) :
    b.byteAt i = Queue.byteAt b.data i := by
  have hlen := hb.dataLen_eq
  rw [byteAt, Queue.byteAt]
  by_cases hneg : i < 0
  · rw [if_pos (Or.inl hneg), if_pos hneg]
  · by_cases hout : b.dataLen ≤ i
    · rw [if_pos (Or.inr hout), if_neg hneg,
        List.getElem?_eq_none (by rw [dataLen] at hout; omega)]
    · have hin : i.toNat < b.data.length := by
        rw [dataLen] at hout
        omega
      rw [if_neg (by omega), if_neg hneg, List.getElem?_eq_getElem hin]
      simp only [data, cells, List.getElem_map, List.getElem_range]
      rw [Int.toNat_of_nonneg (by omega)]

/-- A buffer with the data `q`, in order, that differs from `b` in `low` at the
most. -/
structure Advanced (b next : Buffer) (q : Bytes) : Prop where
  valid : next.Valid
  data_eq : next.data = q
  high_eq : next.high = b.high
  size_eq : next.size = b.size
  capacity_eq : next.capacity = b.capacity

theorem Valid.advanced (hb : b.Valid) : Advanced b b b.data :=
  ⟨hb, rfl, rfl, rfl, rfl⟩

theorem moveLow_advanced (hb : b.Valid) {n : Int} (hn : 0 ≤ n)
    (hlt : n < 2 ^ 32) :
    Advanced b (b.moveLow (asSize n)).1 (Queue.moveLow b.data n).1 := by
  have hsize := asSize_of_nonneg n hn (by omega)
  have hlow := hb.low_nonneg
  have hle := hb.low_le_high
  have hhigh := hb.high_lt
  have hmove := moveLow_eq hb (n := asSize n) (by omega)
  have hqueue := moveLow_eq_queue hb (n := asSize n) (by omega)
  rw [hsize] at hqueue
  have hdata := congrArg Prod.fst hqueue
  rw [hmove] at hdata ⊢
  by_cases hfit : (asSize n : Int) ≤ b.high - b.low
  · rw [if_pos hfit] at hdata ⊢
    exact ⟨hb.advance hfit, hdata, rfl, rfl, rfl⟩
  · rw [if_neg hfit] at hdata ⊢
    exact ⟨hb, hdata, rfl, rfl, rfl⟩

end Buffer

namespace HttpInput

variable {buf : Buffer}

theorem parseLine_eq (hbuf : buf.Valid) :
    parseLine buf = Sone.parseLine buf.data := by
  have hlen := hbuf.dataLen_eq
  rw [parseLine, Sone.parseLine, Buffer.findChar_eq_queue hbuf, hlen]
  simp only [Buffer.byteAt_eq_queue hbuf, Buffer.dataLen]

/-- What `findChar` finds from the start on lies in the data. -/
theorem findChar_bounds (q : Bytes) (c : UInt8) :
    -1 ≤ Queue.findChar q c 0 ∧ Queue.findChar q c 0 ≤ q.length := by
  rw [Queue.findChar]
  split
  · have hidx := List.idxOf_le_length (a := c) (l := q.drop 0)
    rw [List.drop_zero] at hidx ⊢
    dsimp only
    split <;> omega
  · omega

theorem parseTarget_eq (hbuf : buf.Valid) {firstSpace secondSpace lineEnd : Int}
    (hfirst : 0 ≤ firstSpace) (hsecond : firstSpace + 1 ≤ secondSpace)
    (hspaces : secondSpace < lineEnd) (hend : lineEnd ≤ buf.data.length)
    (req : HttpRequest) :
    parseTarget buf firstSpace secondSpace lineEnd req =
      Sone.parseTarget buf.data firstSpace secondSpace lineEnd req := by
  have hlength := hbuf.data_length_lt
  rw [parseTarget, Sone.parseTarget, Buffer.findCharIn_eq_queue_int hbuf
    question (by omega) (by omega) (by omega) (by omega)]
  generalize hindex : Queue.findCharIn buf.data question (firstSpace + 1)
    lineEnd = index
  by_cases hneg : index < 0
  · rw [if_pos hneg, if_pos hneg, Buffer.dataToString_eq_queue hbuf (by omega)
      (by omega) (by omega) (by omega)]
  · have hbounds := Queue.findCharIn_bounds hindex hneg
    rw [if_neg hneg, if_neg hneg, Buffer.dataToString_eq_queue hbuf (by omega)
      (by omega) (by omega) (by omega), Buffer.dataToString_eq_queue hbuf
      (by omega) (by omega) (by omega) (by omega)]

theorem parseVersion_eq (hbuf : buf.Valid) (lineEnd : Int) :
    parseVersion buf lineEnd = Sone.parseVersion buf.data lineEnd := by
  simp only [parseVersion, Sone.parseVersion, Buffer.byteAt_eq_queue hbuf]

/-! ### The parse functions -/

/-- A call on the connection `c` ends as one on its view does, with `low` moved
at the most. -/
structure Agrees {V : Type} (c : HttpInput) (result : HttpInput × V)
    (other : HttpConn × V) : Prop where
  advanced : c.buffer.Advanced result.1.buffer other.1.queue
  state_eq : result.1.state = other.1.state
  request_eq : result.1.request = other.1.request
  value_eq : result.2 = other.2

variable {V : Type} {c : HttpInput}

/-- What leaves the buffer alone. -/
theorem Agrees.kept (hc : c.buffer.Valid) (state : ReqCheckState)
    (req : HttpRequest) (value : V) :
    Agrees c (⟨c.buffer, state, req⟩, value)
      (⟨c.buffer.data, state, req⟩, value) :=
  ⟨hc.advanced, rfl, rfl, rfl⟩

theorem Agrees.orRaise {value : Except Raise V} {stored : HttpInput}
    {other : HttpConn}
    (hstored : ∀ cause, Agrees c (stored, Verdict.raise cause)
      (other, .raise cause))
    {next : V → HttpInput × Verdict} {next' : V → HttpConn × Verdict}
    (hnext : ∀ v, Agrees c (next v) (next' v)) :
    Agrees c (orRaise value stored next) (orRaise value other next') := by
  cases value with
  | error cause => exact hstored cause
  | ok v => exact hnext v

theorem Agrees.onAccept {result : V × Verdict} {stored : V → HttpInput}
    {other : V → HttpConn}
    (hstored : ∀ v (verdict : Verdict), Agrees c (stored v, verdict)
      (other v, verdict))
    {next : V → HttpInput × Verdict} {next' : V → HttpConn × Verdict}
    (hnext : ∀ v, Agrees c (next v) (next' v)) :
    Agrees c (onAccept result stored next) (onAccept result other next') := by
  obtain ⟨v, verdict⟩ := result
  cases verdict with
  | accept => exact hnext v
  | reject => exact hstored v _
  | raise cause => exact hstored v _

theorem parseRequestLine_agrees (hc : c.buffer.Valid) :
    Agrees c (parseRequestLine c) (Sone.parseRequestLine c.view) := by
  have hlength := hc.data_length_lt
  have hend := findChar_bounds c.buffer.data cr
  rw [parseRequestLine, Sone.parseRequestLine, view]
  dsimp only
  rw [Buffer.findChar_eq_queue hc]
  generalize Queue.findChar c.buffer.data cr 0 = lineEnd at hend ⊢
  have hzero : (0 : Nat) = asSize 0 := rfl
  rw [hzero, Buffer.findCharIn_eq_queue_int hc space (le_refl 0) hend.1
    (by omega) (by omega)]
  generalize hfirst : Queue.findCharIn c.buffer.data space 0 lineEnd =
    firstSpace
  by_cases hneg : firstSpace < 0
  · rw [if_pos hneg, if_pos hneg]
    exact .kept hc _ _ _
  have hfirstBounds := Queue.findCharIn_bounds hfirst hneg
  rw [if_neg hneg, if_neg hneg, Buffer.dataToString_eq_queue hc (by omega)
    (by omega) (le_refl 0) (by omega)]
  refine .orRaise (fun _ => .kept hc _ _ _) fun name => ?_
  by_cases hunknow : convertStringToMethod name = .unknow
  · rw [if_pos hunknow, if_pos hunknow]
    exact .kept hc _ _ _
  rw [if_neg hunknow, if_neg hunknow, Buffer.findCharIn_eq_queue_int hc space
    (by omega) (by omega) (by omega) (by omega)]
  generalize hsecond : Queue.findCharIn c.buffer.data space (firstSpace + 1)
    lineEnd = secondSpace
  by_cases hneg' : secondSpace < 0
  · rw [if_pos hneg', if_pos hneg']
    exact .kept hc _ _ _
  have hsecondBounds := Queue.findCharIn_bounds hsecond hneg'
  rw [if_neg hneg', if_neg hneg', parseTarget_eq hc (by omega) (by omega)
    (by omega) (by omega), parseVersion_eq hc]
  refine .onAccept (fun _ _ => .kept hc _ _ _) fun req => ?_
  refine .orRaise (fun _ => .kept hc _ _ _) fun version => ?_
  cases version with
  | none => exact .kept hc _ _ _
  | some version =>
      exact ⟨Buffer.moveLow_advanced hc (by omega) (by omega), rfl, rfl, rfl⟩

theorem parseHeaderLine_agrees (hc : c.buffer.Valid) :
    Agrees c (parseHeaderLine c) (Sone.parseHeaderLine c.view) := by
  have hlength := hc.data_length_lt
  have hend := findChar_bounds c.buffer.data cr
  rw [parseHeaderLine, Sone.parseHeaderLine, view]
  dsimp only
  rw [Buffer.findChar_eq_queue hc]
  generalize Queue.findChar c.buffer.data cr 0 = lineEnd at hend ⊢
  have hzero : (0 : Nat) = asSize 0 := rfl
  rw [hzero, Buffer.findCharIn_eq_queue_int hc colon (le_refl 0) hend.1
    (by omega) (by omega)]
  generalize hindex : Queue.findCharIn c.buffer.data colon 0 lineEnd = index
  by_cases hneg : index < 0
  · rw [if_pos hneg, if_pos hneg]
    by_cases hblank : lineEnd = 0
    · rw [if_pos hblank, if_pos hblank]
      exact ⟨Buffer.moveLow_advanced hc (n := 2) (by omega) (by omega), rfl,
        rfl, rfl⟩
    · rw [if_neg hblank, if_neg hblank]
      exact .kept hc _ _ _
  have hbounds := Queue.findCharIn_bounds hindex hneg
  rw [if_neg hneg, if_neg hneg, Buffer.dataToString_eq_queue hc (by omega)
    (by omega) (le_refl 0) (by omega)]
  refine .orRaise (fun _ => .kept hc _ _ _) fun key => ?_
  by_cases hunknow : convertStringToHeader key = .unknow
  · rw [if_pos hunknow, if_pos hunknow]
    exact .kept hc _ _ _
  rw [if_neg hunknow, if_neg hunknow, Buffer.dataToString_eq_queue hc
    (by omega) (by omega) (by omega) (by omega)]
  refine .orRaise (fun _ => .kept hc _ _ _) fun val => ?_
  exact ⟨Buffer.moveLow_advanced hc (by omega) (by omega), rfl, rfl, rfl⟩

theorem parseContent_agrees (hc : c.buffer.Valid) :
    Agrees c (parseContent c) (Sone.parseContent c.view) := by
  have hlength := hc.data_length_lt
  have hlen : c.buffer.dataLen = c.buffer.data.length := hc.dataLen_eq.symm
  rw [parseContent, Sone.parseContent, view]
  dsimp only
  rw [hlen, Buffer.dataToString_eq_queue hc (by omega) (by omega) (le_refl 0)
    (by omega)]
  refine .orRaise (fun _ => .kept hc _ _ _) fun content => ?_
  refine .onAccept (fun _ _ => .kept hc _ _ _) fun req => ?_
  exact ⟨Buffer.moveLow_advanced hc (by omega) (by omega), rfl, rfl, rfl⟩

/-! ### The loop of `onMessage` -/

theorem Agrees.map {W : Type} {result : HttpInput × V} {other : HttpConn × V}
    (hagrees : Agrees c result other) (f : V → W) :
    Agrees c (result.1, f result.2) (other.1, f other.2) :=
  ⟨hagrees.advanced, hagrees.state_eq, hagrees.request_eq,
    congrArg f hagrees.value_eq⟩

theorem lineTurn_agrees (hc : c.buffer.Valid)
    {parse : HttpInput → HttpInput × Verdict}
    {parse' : HttpConn → HttpConn × Verdict}
    (hparse : Agrees c (parse c) (parse' c.view)) :
    Agrees c (lineTurn parse c) (Sone.lineTurn parse' c.view) := by
  rw [lineTurn, Sone.lineTurn, parseLine_eq hc]
  change Agrees c _ (match Sone.parseLine c.buffer.data with
    | .error cause => (c.view, some (.raised cause))
    | .ok .lineMore => (c.view, some .more)
    | .ok .lineError => (c.view, some .malformed)
    | .ok .lineOk => ((parse' c.view).1, (parse' c.view).2.loopEnd))
  rcases Sone.parseLine c.buffer.data with cause | line
  · exact .kept hc _ _ _
  · cases line with
    | lineOk => exact hparse.map Verdict.loopEnd
    | lineError => exact .kept hc _ _ _
    | lineMore => exact .kept hc _ _ _

theorem turn_agrees (hc : c.buffer.Valid) :
    Agrees c (turn c) (Sone.turn c.view) := by
  rw [turn, Sone.turn, show c.view.state = c.state from rfl]
  cases c.state with
  | checkContent => exact (parseContent_agrees hc).map Verdict.loopEnd
  | checkRequestLine => exact lineTurn_agrees hc (parseRequestLine_agrees hc)
  | checkHeader => exact lineTurn_agrees hc (parseHeaderLine_agrees hc)

theorem Agrees.view_eq {result : HttpInput × V} {other : HttpConn × V}
    (hagrees : Agrees c result other) : result.1.view = other.1 := by
  rw [view, hagrees.advanced.data_eq, hagrees.state_eq, hagrees.request_eq]

theorem Agrees.trans {result : HttpInput × V} {W : Type}
    {other : HttpConn × V} (hagrees : Agrees c result other)
    {last : HttpInput × W} {last' : HttpConn × W}
    (hlast : Agrees result.1 last last') : Agrees c last last' :=
  ⟨⟨hlast.advanced.valid, hlast.advanced.data_eq,
    hlast.advanced.high_eq.trans hagrees.advanced.high_eq,
    hlast.advanced.size_eq.trans hagrees.advanced.size_eq,
    hlast.advanced.capacity_eq.trans hagrees.advanced.capacity_eq⟩,
    hlast.state_eq, hlast.request_eq, hlast.value_eq⟩

theorem parseLoop_agrees (fuel : Nat) (hc : c.buffer.Valid) (flag : Bool) :
    Agrees c (parseLoop fuel c flag) (Sone.parseLoop fuel c.view flag) := by
  induction fuel generalizing c flag with
  | zero => exact .kept hc _ _ _
  | succ fuel ih =>
      have hturn := turn_agrees hc
      rw [parseLoop, Sone.parseLoop]
      rcases hmine : turn c with ⟨next, stop⟩
      rcases hother : Sone.turn c.view with ⟨next', stop'⟩
      rw [hmine, hother] at hturn
      obtain rfl : stop = stop' := hturn.value_eq
      cases stop with
      | some stop => exact hturn.map fun stop => (flag, _)
      | none =>
          have hview : next.view = next' := hturn.view_eq
          have hrest := ih hturn.advanced.valid
            (flag || c.state = .checkContent)
          rw [hview] at hrest
          exact hturn.trans hrest

/-- A call of `onMessage` replies as it would over the visible data. -/
theorem parseMessage_agrees (hc : c.buffer.Valid) :
    Agrees c (parseMessage c) (Sone.parseMessage c.view) := by
  have hloop := parseLoop_agrees (c.buffer.dataLen.toNat + 2) hc false
  rw [parseMessage, Sone.parseMessage]
  change Agrees c _ (Sone.loopReply (Sone.parseLoop
    (c.buffer.data.length + 2) c.view false))
  rw [Buffer.data_length]
  generalize parseLoop (c.buffer.dataLen.toNat + 2) c false = result at hloop ⊢
  generalize Sone.parseLoop (c.buffer.dataLen.toNat + 2) c.view false =
    other at hloop ⊢
  obtain ⟨next, flag, stop⟩ := result
  obtain ⟨next', flag', stop'⟩ := other
  cases hloop.value_eq
  have hrequest : next.request = next'.request := hloop.request_eq
  cases stop with
  | more =>
      rw [loopReply, Sone.loopReply, hrequest]
      exact hloop.map fun _ => _
  | malformed =>
      exact ⟨hloop.advanced, hloop.state_eq,
        congrArg (fun req : HttpRequest =>
          req.setHeader (lit "Connection") (lit "close")) hrequest, rfl⟩
  | rejected =>
      exact ⟨hloop.advanced, hloop.state_eq,
        congrArg (fun req : HttpRequest =>
          req.setHeader (lit "Connection") (lit "close")) hrequest, rfl⟩
  | raised cause => exact hloop.map fun _ => _
  | outOfFuel => exact hloop.map fun _ => _

end HttpInput

end Sone

end LinuxTest
