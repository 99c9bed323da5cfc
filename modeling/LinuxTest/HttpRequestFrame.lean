/-
A request as its sender means it: a request line, header lines and a body.  The
head can be read back from the bytes in one way only, and a call of `onMessage`
that finds a whole head takes everything behind it for the body.
-/
import LinuxTest.HttpRequestText

namespace LinuxTest

namespace Sone

/-- The header lines of a message and the blank line behind them. -/
def headerBlock : List Bytes → Bytes
  | [] => [cr, lf]
  | header :: rest => header ++ cr :: lf :: headerBlock rest

/-- The three parts of a message, as they are sent. -/
structure Message where
  line : Bytes
  headers : List Bytes
  body : Bytes

/-- Lines that can be told apart: no carriage return inside one, and no header
line that looks like the end of the head. -/
def HeaderLines (headers : List Bytes) : Prop :=
  ∀ header ∈ headers, cr ∉ header ∧ header ≠ []

namespace Message

def head (m : Message) : Bytes :=
  m.line ++ cr :: lf :: headerBlock m.headers

def encode (m : Message) : Bytes := m.head ++ m.body

structure Lines (m : Message) : Prop where
  line : cr ∉ m.line
  headers : HeaderLines m.headers

end Message

theorem headerBlock_inj {headers others : List Bytes} {rest tail : Bytes}
    (hheaders : HeaderLines headers) (hothers : HeaderLines others)
    (heq : headerBlock headers ++ rest = headerBlock others ++ tail) :
    headers = others ∧ rest = tail := by
  induction headers generalizing others with
  | nil =>
      cases others with
      | nil => exact ⟨rfl, by simpa [headerBlock] using heq⟩
      | cons other more =>
          have hother := hothers other List.mem_cons_self
          have hsplit : [] ++ cr :: (lf :: rest) =
              other ++ cr :: (lf :: (headerBlock more ++ tail)) := by
            simpa [headerBlock] using heq
          exact absurd (append_sep_inj (by simp) hother.1 hsplit).1.symm
            hother.2
  | cons header more ih =>
      have hheader := hheaders header List.mem_cons_self
      have hmore : HeaderLines more := fun line hline =>
        hheaders line (List.mem_cons_of_mem header hline)
      cases others with
      | nil =>
          have hsplit : header ++ cr :: (lf :: (headerBlock more ++ rest)) =
              [] ++ cr :: (lf :: tail) := by
            simpa [headerBlock] using heq
          exact absurd (append_sep_inj hheader.1 (by simp) hsplit).1
            hheader.2
      | cons other others =>
          have hother := hothers other List.mem_cons_self
          have hsplit : header ++ cr :: (lf :: (headerBlock more ++ rest)) =
              other ++ cr :: (lf :: (headerBlock others ++ tail)) := by
            simpa [headerBlock] using heq
          obtain ⟨rfl, hblocks⟩ := append_sep_inj hheader.1 hother.1 hsplit
          obtain ⟨rfl, hrest⟩ := ih hmore
            (fun line hline => hothers line (List.mem_cons_of_mem _ hline))
            (List.cons.inj hblocks).2
          exact ⟨rfl, hrest⟩

/-- Bytes that begin with a head begin with one head only. -/
theorem Message.head_inj {m other : Message} (hm : m.Lines)
    (hother : other.Lines) {rest tail : Bytes}
    (heq : m.head ++ rest = other.head ++ tail) :
    m.line = other.line ∧ m.headers = other.headers ∧ rest = tail := by
  have hsplit : m.line ++ cr :: (lf :: (headerBlock m.headers ++ rest)) =
      other.line ++ cr :: (lf :: (headerBlock other.headers ++ tail)) := by
    simpa [Message.head] using heq
  obtain ⟨hline, hblocks⟩ := append_sep_inj hm.line hother.line hsplit
  exact ⟨hline, headerBlock_inj hm.headers hother.headers
    (List.cons.inj hblocks).2⟩

/-! ### What a head says -/

def headerTexts : List Bytes → Option (List (HttpHeader × Bytes))
  | [] => some []
  | header :: rest => (headerLineText header).bind fun text =>
      (headerTexts rest).map (text :: ·)

/-- What the lines of an accepted head say. -/
structure HeadText where
  line : RequestLine
  headers : List (HttpHeader × Bytes)
deriving DecidableEq

def Message.text (m : Message) : Option HeadText :=
  (requestLineText m.line).bind fun line =>
    (headerTexts m.headers).map fun headers => ⟨line, headers⟩

/-- Headers under the names that the map keeps them by. -/
def namedHeaders (headers : List (HttpHeader × Bytes)) :
    List (Bytes × Bytes) :=
  headers.map fun header => (convertHeaderToString header.1, header.2)

/-- The request with the headers set, in this order. -/
def HttpRequest.setHeaders (req : HttpRequest)
    (headers : List (HttpHeader × Bytes)) : HttpRequest :=
  headers.foldl (fun req header =>
    req.setHeader (convertHeaderToString header.1) header.2) req

namespace HeadText

/-- The request object after the head. -/
def store (text : HeadText) (req : HttpRequest) : HttpRequest :=
  (text.line.store req).setHeaders text.headers

def named (text : HeadText) : List (Bytes × Bytes) :=
  namedHeaders text.headers

/-- The content type in force behind the head, when `carried` was before. -/
def contentType (text : HeadText) (carried : Bytes) : Bytes :=
  (OrderedMap.lastGiven caseKey text.named (lit "Content-Type")).getD carried

/-- Whether the body is read as form parameters. -/
def isForm (text : HeadText) (carried : Bytes) : Bool :=
  text.line.method = .post ∧ text.contentType carried = formType

end HeadText

theorem headerTexts_known {headers : List Bytes}
    {texts : List (HttpHeader × Bytes)}
    (htexts : headerTexts headers = some texts) :
    ∀ text ∈ texts, text.1 ≠ .unknow := by
  induction headers generalizing texts with
  | nil =>
      cases htexts
      simp
  | cons header rest ih =>
      simp only [headerTexts, Option.bind_eq_some_iff,
        Option.map_eq_some_iff] at htexts
      obtain ⟨⟨name, val⟩, hheader, more, hmore, rfl⟩ := htexts
      rw [List.forall_mem_cons]
      exact ⟨headerLineText_known hheader, ih hmore⟩

theorem HttpRequest.setHeaders_cons (req : HttpRequest)
    (header : HttpHeader) (val : Bytes)
    (rest : List (HttpHeader × Bytes)) :
    req.setHeaders ((header, val) :: rest) =
      (req.setHeader (convertHeaderToString header) val).setHeaders rest := by
  simp only [HttpRequest.setHeaders, List.foldl_cons]

theorem HttpRequest.setHeaders_eq (req : HttpRequest)
    {headers : List (HttpHeader × Bytes)}
    (hknown : ∀ header ∈ headers, header.1 ≠ .unknow) :
    req.setHeaders headers =
      { req with headers := req.headers.insertAll (namedHeaders headers) } :=
    by
  induction headers generalizing req with
  | nil => rfl
  | cons header rest ih =>
      rw [List.forall_mem_cons] at hknown
      have hset : req.setHeader (convertHeaderToString header.1) header.2 =
          { req with
            headers := req.headers.insert (convertHeaderToString header.1)
              header.2 } := by
        rw [HttpRequest.setHeader, findHeader_own hknown.1]
      rw [HttpRequest.setHeaders_cons, ih _ hknown.2, hset]
      rfl

theorem Message.text_eq_some_iff {m : Message} {text : HeadText} :
    m.text = some text ↔
      requestLineText m.line = some text.line ∧
        headerTexts m.headers = some text.headers := by
  simp only [Message.text, Option.bind_eq_some_iff, Option.map_eq_some_iff]
  constructor
  · rintro ⟨line, hline, headers, hheaders, rfl⟩
    exact ⟨hline, hheaders⟩
  · rintro ⟨hline, hheaders⟩
    exact ⟨_, hline, _, hheaders, rfl⟩

/-- The request object after a head, field by field: what the head does not
mention is kept. -/
theorem HeadText.store_eq {m : Message} {text : HeadText}
    (htext : m.text = some text) (req : HttpRequest) :
    text.store req =
      { method := text.line.method
        version := text.line.version
        url := text.line.url
        queryString := text.line.query.getD req.queryString
        params := req.params.insertAll text.line.pairs
        headers := req.headers.insertAll text.named
        content := req.content } := by
  have hheaders := (Message.text_eq_some_iff.mp htext).2
  rw [HeadText.store, HttpRequest.setHeaders_eq _ (headerTexts_known hheaders),
    RequestLine.store, HttpRequest.setParams_eq]
  rfl

/-- A header behind the head: the value given last, or else the one before. -/
theorem HeadText.getHeader_store {m : Message} {text : HeadText}
    (htext : m.text = some text) (req : HttpRequest) {name : Bytes}
    (hname : (findHeader name).isSome) :
    (text.store req).getHeader name =
      (OrderedMap.lastGiven caseKey text.named name).getD
        (req.getHeader name) := by
  rw [HttpRequest.getHeader_eq _ hname, HttpRequest.getHeader_eq _ hname,
    HeadText.store_eq htext, readMap, OrderedMap.find?_insertAll, readMap]
  cases OrderedMap.lastGiven caseKey text.named name <;> rfl

theorem findHeader_contentType :
    (findHeader (lit "Content-Type")).isSome := by
  have hfind : findHeader (convertHeaderToString .contentType) =
      some .contentType := findHeader_own (by decide)
  rw [convertHeaderToString] at hfind
  rw [hfind]
  rfl

theorem HeadText.isForm_store {m : Message} {text : HeadText}
    (htext : m.text = some text) (req : HttpRequest) :
    (text.store req).isForm =
      text.isForm (req.getHeader (lit "Content-Type")) := by
  rw [HttpRequest.isForm, HeadText.isForm,
    HeadText.getHeader_store htext req findHeader_contentType,
    HeadText.store_eq htext]
  rfl

/-! ### The loop over a head -/

/-- From `CHECK_HEADER` on, the loop takes a block of header lines that say
something, and stores what they say. -/
theorem headLoop_headerBlock {headers : List Bytes}
    (hheaders : HeaderLines headers) {texts : List (HttpHeader × Bytes)}
    (htexts : headerTexts headers = some texts) (req : HttpRequest)
    (rest : Bytes) {fuel : Nat}
    (hfuel : (headerBlock headers ++ rest).length < fuel) (lines : Nat) :
    ∃ count, headLoop fuel ⟨headerBlock headers ++ rest, .checkHeader, req⟩
      lines = (⟨rest, .checkContent, req.setHeaders texts⟩, count, none) := by
  induction headers generalizing texts req fuel lines with
  | nil =>
      cases htexts
      obtain ⟨fuel, rfl⟩ : ∃ n, fuel = n + 2 := ⟨fuel - 2, by
        simp only [headerBlock, List.length_append, List.length_cons] at hfuel
        omega⟩
      have hqueue : (⟨headerBlock [] ++ rest, .checkHeader, req⟩ :
          HttpConn).queue = [] ++ cr :: lf :: rest := rfl
      have hturn := turn_eq_of_line (by simp) hqueue (by simp)
      rw [readLine, if_pos rfl] at hturn
      rw [headLoop_step (by simp) hturn]
      exact ⟨lines + 1, headLoop_content rfl _ _⟩
  | cons header more ih =>
      obtain ⟨hcr, hne⟩ := hheaders header List.mem_cons_self
      simp only [headerTexts, Option.bind_eq_some_iff,
        Option.map_eq_some_iff] at htexts
      obtain ⟨⟨name, val⟩, hheader, others, hothers, rfl⟩ := htexts
      have hread := (readHeaderLine_accept_iff header req _).mpr
        ⟨name, val, hheader, rfl⟩
      have hqueue : (⟨headerBlock (header :: more) ++ rest, .checkHeader,
          req⟩ : HttpConn).queue =
            header ++ cr :: lf :: (headerBlock more ++ rest) := by
        simp [headerBlock]
      have hturn := turn_eq_of_line (by simp) hqueue hcr
      rw [readLine, if_neg hne, hread] at hturn
      obtain ⟨fuel, rfl⟩ : ∃ n, fuel = n + 1 := ⟨fuel - 1, by omega⟩
      have hmore : HeaderLines more := fun line hline =>
        hheaders line (List.mem_cons_of_mem header hline)
      have hshort : (headerBlock more ++ rest).length < fuel := by
        simp only [headerBlock, List.length_append, List.length_cons] at hfuel ⊢
        omega
      rw [headLoop_step (by simp) hturn, HttpRequest.setHeaders_cons]
      exact ih hmore hothers _ hshort _

/-- Conversely, a loop that comes to `CHECK_CONTENT` has taken such a block. -/
theorem headLoop_takes_headerBlock {fuel : Nat} {queue : Bytes}
    {req : HttpRequest} {lines count : Nat} {next : HttpConn}
    (hhead : headLoop fuel ⟨queue, .checkHeader, req⟩ lines =
      (next, count, none)) :
    ∃ headers texts, queue = headerBlock headers ++ next.queue ∧
      HeaderLines headers ∧ headerTexts headers = some texts ∧
      next = ⟨next.queue, .checkContent, req.setHeaders texts⟩ := by
  induction fuel generalizing queue req lines with
  | zero => cases hhead
  | succ fuel ih =>
      rcases hturn : turn ⟨queue, .checkHeader, req⟩ with ⟨mid, _ | stop⟩
      · rw [headLoop_step (by simp) hturn] at hhead
        obtain ⟨line, hqueue, hline, hread⟩ := turn_takes (by simp) hturn
        by_cases hnil : line = []
        · subst hnil
          rw [readLine, if_pos rfl] at hread
          obtain ⟨rest, state, stored⟩ := mid
          cases hread
          cases fuel with
          | zero => cases hhead
          | succ fuel =>
              rw [headLoop_content rfl] at hhead
              cases hhead
              exact ⟨[], [], hqueue, by simp [HeaderLines], rfl, rfl⟩
        · obtain ⟨hstate, hheader⟩ := readLine_header hnil hread
          obtain ⟨name, val, htext, hstored⟩ :=
            (readHeaderLine_accept_iff line req _).mp hheader
          obtain ⟨rest, state, stored⟩ := mid
          obtain rfl : state = .checkHeader := hstate
          obtain rfl : stored = _ := hstored
          change queue = line ++ cr :: lf :: rest at hqueue
          obtain ⟨headers, texts, hrest, hheaders, htexts, hnext⟩ := ih hhead
          rw [← HttpRequest.setHeaders_cons req name val] at hnext
          refine ⟨line :: headers, (name, val) :: texts, ?_, ?_, ?_, hnext⟩
          · simp only [headerBlock, hqueue, hrest, List.append_assoc,
              List.cons_append]
          · intro header hmem
            rcases List.mem_cons.mp hmem with rfl | hmem
            · exact ⟨hline, hnil⟩
            · exact hheaders header hmem
          · simp [headerTexts, htext, htexts]
      · rw [headLoop_stop (by simp) hturn] at hhead
        cases hhead

/-- A connection between two messages. -/
structure HttpConn.Idle (c : HttpConn) : Prop where
  queue_nil : c.queue = []
  state_eq : c.state = .checkRequestLine

theorem HttpConn.init_idle : HttpConn.init.Idle := ⟨rfl, rfl⟩

theorem HttpConn.Idle.deliver_eq {c : HttpConn} (hc : c.Idle)
    (chunk : Bytes) :
    c.deliver chunk = ⟨chunk, .checkRequestLine, c.request⟩ := by
  simp [HttpConn.deliver, hc.queue_nil, hc.state_eq]

/-- The loop takes a whole head and stores what it says. -/
theorem headLoop_head {m : Message} (hm : m.Lines) {text : HeadText}
    (htext : m.text = some text) (req : HttpRequest) (rest : Bytes) :
    ∃ count, headLoop ((m.head ++ rest).length + 1)
      ⟨m.head ++ rest, .checkRequestLine, req⟩ 0 =
        (⟨rest, .checkContent, text.store req⟩, count, none) := by
  obtain ⟨hline, hheaders⟩ := Message.text_eq_some_iff.mp htext
  have hread := (readRequestLine_accept_iff m.line req _).mpr
    ⟨text.line, hline, rfl⟩
  have hqueue : (⟨m.head ++ rest, .checkRequestLine, req⟩ :
      HttpConn).queue =
        m.line ++ cr :: lf :: (headerBlock m.headers ++ rest) := by
    simp [Message.head]
  have hturn := turn_eq_of_line (by simp) hqueue hm.line
  rw [readLine, hread, onAccept_accept] at hturn
  have hfuel : (headerBlock m.headers ++ rest).length <
      (m.head ++ rest).length := by
    simp only [Message.head, List.length_append, List.length_cons]
    omega
  rw [headLoop_step (by simp) hturn]
  exact headLoop_headerBlock hm.headers hheaders (text.line.store req) rest
    hfuel 1

/-- Behind a whole head, the rest of the input is the content. -/
theorem parseMessage_head {c : HttpConn} (hc : c.Idle) {m : Message}
    (hm : m.Lines) {text : HeadText} (htext : m.text = some text)
    (rest : Bytes) :
    parseMessage (c.deliver (m.head ++ rest)) =
      contentReply ⟨rest, .checkContent, text.store c.request⟩ := by
  obtain ⟨count, hloop⟩ := headLoop_head hm htext c.request rest
  rw [hc.deliver_eq, parseMessage_eq, hloop, headReply]

/-! ### Dispatch -/

/-- The form parameters of a body, when it is read as a form. -/
def formPairs (form : Bool) (body : Bytes) : Option (List (Bytes × Bytes)) :=
  if form then decodePairs (body.splitOn ampersand) else some []

theorem readContent_accept_iff (content : Bytes) (req next : HttpRequest) :
    readContent content req = (next, .accept) ↔
      ∃ pairs, formPairs req.isForm content = some pairs ∧
        next = ({ req with content := content } :
          HttpRequest).setParams pairs := by
  rw [readContent, formPairs, HttpRequest.isForm_content]
  cases req.isForm with
  | true => exact parsePairs_accept_iff _ _ _
  | false => simp [HttpRequest.setParams, eq_comm]

theorem contentReply_respond_iff {c next : HttpConn} {req : HttpRequest} :
    contentReply c = (next, .respond req) ↔
      readContent c.queue c.request = (req, .accept) ∧
        next = ⟨[], .checkRequestLine, req⟩ := by
  rw [contentReply]
  rcases readContent c.queue c.request with ⟨stored, verdict⟩
  cases verdict with
  | accept =>
      simp only [Prod.mk.injEq, Reply.respond.injEq, and_true]
      constructor
      · rintro ⟨rfl, rfl⟩
        exact ⟨rfl, rfl⟩
      · rintro ⟨rfl, rfl⟩
        exact ⟨rfl, rfl⟩
  | reject => simp
  | raise cause => simp

/-- The request object when a message has been read into it: every field and
map entry the message does not give is the one kept from before. -/
def HeadText.receive (text : HeadText) (body : Bytes)
    (pairs : List (Bytes × Bytes)) (kept : HttpRequest) : HttpRequest where
  method := text.line.method
  version := text.line.version
  url := text.line.url
  queryString := text.line.query.getD kept.queryString
  params := kept.params.insertAll (text.line.pairs ++ pairs)
  headers := kept.headers.insertAll text.named
  content := body

/-- When a message in one chunk is answered, and with which request object. -/
theorem parseMessage_encode_respond_iff {c : HttpConn} (hc : c.Idle)
    {m : Message} (hm : m.Lines) {text : HeadText}
    (htext : m.text = some text) {next : HttpConn} {used : HttpRequest} :
    parseMessage (c.deliver m.encode) = (next, .respond used) ↔
      ∃ pairs, formPairs
          (text.isForm (c.request.getHeader (lit "Content-Type"))) m.body =
            some pairs ∧
        used = text.receive m.body pairs c.request ∧
        next = ⟨[], .checkRequestLine, used⟩ := by
  rw [Message.encode, parseMessage_head hc hm htext,
    contentReply_respond_iff, readContent_accept_iff,
    HeadText.isForm_store htext]
  have hreceive (pairs : List (Bytes × Bytes)) :
      ({ text.store c.request with content := m.body } :
        HttpRequest).setParams pairs =
          text.receive m.body pairs c.request := by
    rw [HttpRequest.setParams_eq, HeadText.store_eq htext,
      HeadText.receive, OrderedMap.insertAll_append]
  simp only [hreceive]
  constructor
  · rintro ⟨⟨pairs, hpairs, hused⟩, hnext⟩
    exact ⟨pairs, hpairs, hused, hnext⟩
  · rintro ⟨pairs, hpairs, hused, hnext⟩
    exact ⟨⟨pairs, hpairs, hused⟩, hnext⟩

/-- What is answered on an idle connection is a message with a head that says
something. -/
theorem parseMessage_respond {c next : HttpConn} (hc : c.Idle)
    {chunk : Bytes} {used : HttpRequest}
    (hreply : parseMessage (c.deliver chunk) = (next, .respond used)) :
    ∃ (m : Message) (text : HeadText),
      m.encode = chunk ∧ m.Lines ∧ m.text = some text := by
  rw [hc.deliver_eq, parseMessage_eq] at hreply
  rcases hhead : headLoop (chunk.length + 1)
      ⟨chunk, .checkRequestLine, c.request⟩ 0 with ⟨last, count, _ | stop⟩
  · rcases hturn : turn ⟨chunk, .checkRequestLine, c.request⟩ with
      ⟨mid, _ | stop⟩
    · rw [headLoop_step (by simp) hturn] at hhead
      obtain ⟨line, hqueue, hline, hread⟩ := turn_takes (by simp) hturn
      obtain ⟨hstate, hrequest⟩ := readLine_requestLine hread
      obtain ⟨text, htext, _⟩ :=
        (readRequestLine_accept_iff line c.request _).mp hrequest
      obtain ⟨rest, state, stored⟩ := mid
      obtain rfl : state = .checkHeader := hstate
      obtain ⟨headers, texts, hrest, hheaders, htexts, _⟩ :=
        headLoop_takes_headerBlock hhead
      refine ⟨⟨line, headers, last.queue⟩, ⟨text, texts⟩, ?_,
        ⟨hline, hheaders⟩, Message.text_eq_some_iff.mpr ⟨htext, htexts⟩⟩
      change chunk = line ++ cr :: lf :: rest at hqueue
      simp [Message.encode, Message.head, hqueue, hrest]
    · rw [headLoop_stop (by simp) hturn] at hhead
      cases hhead
  · rw [hhead] at hreply
    cases stop <;> cases hreply

end Sone

end LinuxTest
