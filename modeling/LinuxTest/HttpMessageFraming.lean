/-
Requests sent back to back over one connection, cut into chunks in any way.
The parser finds the end of a head by itself, but it takes the end of the chunk
for the end of the message.
-/
import LinuxTest.HttpRequestFrame

namespace LinuxTest

namespace Sone

/-- The number that a text of decimal digits writes. -/
def digitsValue (text : Bytes) : Nat :=
  text.foldl (fun value digit => 10 * value + (digit.toNat - 48)) 0

/-- A request of HTTP/1.1 as a keep-alive client may send it: a known method,
that version in its line (no other one keeps the connection unasked), known
header names, a body only under a `Content-Length` that gives its length, and no
wish to close the connection. -/
structure Message.WellFormed (m : Message) : Prop where
  lines : m.Lines
  line : ∃ name target,
    m.line = name ++ space :: (target ++ space :: lit "HTTP/1.1") ∧
      space ∉ name ∧ space ∉ target ∧ convertStringToMethod name ≠ .unknow
  headers : ∀ header ∈ m.headers, (headerLineText header).isSome
  body : m.body ≠ [] → ∃ header ∈ m.headers, ∃ val,
    headerLineText header = some (.contentLength, val) ∧ val ≠ [] ∧
      val.all isDigit ∧ digitsValue val = m.body.length
  alive : ∀ header ∈ m.headers,
    headerLineText header ≠ some (.connection, lit "close")

/-- The replies of the calls of `onMessage` that do not wait for more bytes. -/
def answers : HttpConn → List Bytes → List Reply
  | _, [] => []
  | c, chunk :: rest =>
      match parseMessage (c.deliver chunk) with
      | (next, .wait) => answers next rest
      | (next, reply) => reply :: answers next rest

/-- A request object that holds this message: its request line, the headers it
gives and its body.  Parameters follow from the query and the body. -/
structure Message.Held (m : Message) (text : HeadText) (req : HttpRequest) :
    Prop where
  text_eq : m.text = some text
  method_eq : req.method = text.line.method
  version_eq : req.version = text.line.version
  url_eq : req.url = text.line.url
  query_eq : ∀ query, text.line.query = some query → req.queryString = query
  header_eq : ∀ name val,
    OrderedMap.lastGiven caseKey text.named name = some val →
      req.getHeader name = val
  content_eq : req.content = m.body

/-- The reply goes on to build a response for this message. -/
def Message.AnsweredBy (m : Message) (reply : Reply) : Prop :=
  ∃ text req, reply = .respond req ∧ m.Held text req

/-- The chunks bring the messages one at a time.  Each message ends with a
chunk, the chunk that completes its head brings all of its body, its head says
something, and its body is a form where it is read as one; `carried` is the
content type in force before. -/
def Deliverable : Bytes → List Message → List Bytes → Prop
  | _, [], chunks => chunks = []
  | carried, m :: rest, chunks =>
      ∃ text before last others, chunks = before ++ last :: others ∧
        before.flatten ++ last = m.encode ∧
        before.flatten.length < m.head.length ∧
        m.text = some text ∧
        (formPairs (text.isForm carried) m.body).isSome ∧
        Deliverable (text.contentType carried) rest others

/-! ### Calls that wait -/

/-- `next` stands where calls on the bytes `received` leave `c` waiting. -/
structure Waiting (c : HttpConn) (received : Bytes) (next : HttpConn) :
    Prop where
  wait : (parseMessage (c.deliver received)).2 = .wait
  resume : ∀ chunk, parseMessage (next.deliver chunk) =
    parseMessage (c.deliver (received ++ chunk))

theorem HttpConn.Idle.waiting {c : HttpConn} (hc : c.Idle) :
    Waiting c [] c := by
  have hturn := turn_eq_of_more
    (c := ⟨[], .checkRequestLine, c.request⟩) (by simp)
    (parseLine_absent (by simp))
  refine ⟨?_, fun chunk => rfl⟩
  rw [hc.deliver_eq, parseMessage_eq, headLoop_stop (by simp) hturn,
    headReply]

theorem Waiting.step {c next mid : HttpConn} {received chunk : Bytes}
    (hnext : Waiting c received next)
    (hcall : parseMessage (next.deliver chunk) = (mid, .wait)) :
    Waiting c (received ++ chunk) mid := by
  constructor
  · rw [← hnext.resume, hcall]
  · intro more
    rw [parseMessage_deliver hcall, HttpConn.deliver_append, hnext.resume,
      List.append_assoc]

theorem answers_wait {c next : HttpConn} {chunk : Bytes}
    (hcall : parseMessage (c.deliver chunk) = (next, .wait))
    (rest : List Bytes) : answers c (chunk :: rest) = answers next rest := by
  rw [answers, hcall]

theorem answers_reply {c next : HttpConn} {chunk : Bytes} {reply : Reply}
    (hcall : parseMessage (c.deliver chunk) = (next, reply))
    (hreply : reply ≠ .wait) (rest : List Bytes) :
    answers c (chunk :: rest) = reply :: answers next rest := by
  rw [answers, hcall]
  cases reply with
  | wait => exact absurd rfl hreply
  | _ => rfl

/-- The first answer comes with some chunk; the calls before it wait. -/
theorem answers_cons_split {c next : HttpConn} {received : Bytes}
    (hnext : Waiting c received next) {chunks : List Bytes} {reply : Reply}
    {more : List Reply} (hanswers : answers next chunks = reply :: more) :
    ∃ before last others final, chunks = before ++ last :: others ∧
      (parseMessage (c.deliver (received ++ before.flatten))).2 = .wait ∧
      parseMessage (c.deliver (received ++ before.flatten ++ last)) =
        (final, reply) ∧
      more = answers final others := by
  induction chunks generalizing next received with
  | nil => cases hanswers
  | cons chunk rest ih =>
      rcases hcall : parseMessage (next.deliver chunk) with ⟨mid, answer⟩
      by_cases hwait : answer = .wait
      · subst hwait
        rw [answers_wait hcall] at hanswers
        obtain ⟨before, last, others, final, rfl, hbefore, hlast, hmore⟩ :=
          ih (hnext.step hcall) hanswers
        rw [List.append_assoc] at hbefore
        refine ⟨chunk :: before, last, others, final, rfl, hbefore, ?_,
          hmore⟩
        rw [← hlast, List.flatten_cons, List.append_assoc received chunk]
      · rw [answers_reply hcall hwait] at hanswers
        cases hanswers
        refine ⟨[], chunk, rest, mid, rfl, ?_, ?_, rfl⟩
        · simpa using hnext.wait
        · rw [List.flatten_nil, List.append_nil, ← hnext.resume, hcall]

/-- While all that has come is a part at which the parser waits, nothing is
answered. -/
theorem answers_of_waits {c next : HttpConn} {received : Bytes}
    (hnext : Waiting c received next) {before : List Bytes}
    (hwaits : ∀ part, part <+: before.flatten →
      (parseMessage (c.deliver (received ++ part))).2 = .wait)
    {last : Bytes} {final : HttpConn} {reply : Reply}
    (hlast : parseMessage (c.deliver (received ++ before.flatten ++ last)) =
      (final, reply))
    (hreply : reply ≠ .wait) (others : List Bytes) :
    answers next (before ++ last :: others) =
      reply :: answers final others := by
  induction before generalizing next received with
  | nil =>
      rw [List.flatten_nil, List.append_nil, ← hnext.resume] at hlast
      exact answers_reply hlast hreply others
  | cons chunk rest ih =>
      rcases hcall : parseMessage (next.deliver chunk) with ⟨mid, answer⟩
      have hfirst := hwaits chunk ⟨rest.flatten, rfl⟩
      rw [← hnext.resume, hcall] at hfirst
      obtain rfl : answer = .wait := hfirst
      rw [List.cons_append, answers_wait hcall]
      apply ih (hnext.step hcall)
      · intro part hpart
        rw [List.append_assoc]
        exact hwaits (chunk ++ part)
          ((List.prefix_append_right_inj chunk).mpr hpart)
      · rw [← hlast, List.flatten_cons, List.append_assoc received chunk]

/-! ### The end of a head -/

/-- The parser waits as long as the head is not complete. -/
theorem parseMessage_wait_of_short {c : HttpConn} (hc : c.Idle) {m : Message}
    (hm : m.Lines) {text : HeadText} (htext : m.text = some text)
    {part rest : Bytes} (hpart : part ++ rest = m.head) (hrest : rest ≠ []) :
    (parseMessage (c.deliver part)).2 = .wait := by
  obtain ⟨count, hloop⟩ := headLoop_head hm htext c.request []
  have hwhole : (c.deliver part).deliver rest =
      ⟨m.head ++ [], .checkRequestLine, c.request⟩ := by
    rw [HttpConn.deliver_append, hpart, hc.deliver_eq, List.append_nil]
  have hdeliver := headLoop_deliver 0 rest
    (Nat.lt_add_one (c.deliver part).queue.length)
    (Nat.lt_add_one ((c.deliver part).deliver rest).queue.length)
  rw [hwhole, hloop] at hdeliver
  rw [parseMessage_eq]
  rcases hshort : headLoop ((c.deliver part).queue.length + 1)
      (c.deliver part) 0 with ⟨next, lines, stop⟩
  rw [hshort] at hdeliver
  by_cases hmore : stop = some .more
  · rw [hmore, headReply]
  · -- a head decided early would leave `rest` behind it
    rw [if_neg hmore] at hdeliver
    have hqueue := congrArg (fun result => result.1.queue) hdeliver
    simp only [HttpConn.deliver] at hqueue
    exact absurd (List.append_eq_nil_iff.mp hqueue.symm).2 hrest

theorem short_of_wait {c : HttpConn} (hc : c.Idle) {m : Message}
    (hm : m.Lines) {text : HeadText} (htext : m.text = some text)
    {received last : Bytes} (hencode : received ++ last = m.encode)
    (hwait : (parseMessage (c.deliver received)).2 = .wait) :
    received.length < m.head.length := by
  by_contra hlong
  obtain ⟨rest, rfl⟩ : m.head <+: received :=
    List.prefix_of_prefix_length_le ⟨m.body, rfl⟩ ⟨last, hencode⟩
      (Nat.le_of_not_lt hlong)
  rw [parseMessage_head hc hm htext] at hwait
  exact contentReply_ne_wait _ hwait

theorem getHeader_receive {m : Message} {text : HeadText}
    (htext : m.text = some text) (body : Bytes)
    (pairs : List (Bytes × Bytes)) (kept : HttpRequest) {name : Bytes}
    (hname : (findHeader name).isSome) :
    (text.receive body pairs kept).getHeader name =
      (OrderedMap.lastGiven caseKey text.named name).getD
        (kept.getHeader name) := by
  rw [← HeadText.getHeader_store htext kept hname, HeadText.store_eq htext]
  rfl

/-- A name that the head gives a value to is in the table. -/
theorem findHeader_of_lastGiven {m : Message} {text : HeadText}
    (htext : m.text = some text) {name val : Bytes}
    (hval : OrderedMap.lastGiven caseKey text.named name = some val) :
    (findHeader name).isSome := by
  obtain ⟨pair, hpair, hrank⟩ := OrderedMap.mem_of_lastGiven hval
  obtain ⟨header, hheader, rfl⟩ := List.mem_map.mp hpair
  have hknown := headerTexts_known (Message.text_eq_some_iff.mp htext).2
    header hheader
  rw [← findHeader_congr hrank, findHeader_own hknown]
  rfl

/-- What a received message leaves in the request object is the message. -/
theorem Message.held_receive {m : Message} {text : HeadText}
    (htext : m.text = some text) (pairs : List (Bytes × Bytes))
    (kept : HttpRequest) :
    m.Held text (text.receive m.body pairs kept) := by
  refine ⟨htext, rfl, rfl, rfl, ?_, ?_, rfl⟩
  · intro query hquery
    rw [HeadText.receive, hquery, Option.getD_some]
  · intro name val hval
    have hname := findHeader_of_lastGiven htext hval
    rw [getHeader_receive htext _ _ _ hname, hval, Option.getD_some]

/-- A call that answers with the content of the message that was sent has got
the bytes of that message and no others. -/
theorem sent_eq_of_respond {c final : HttpConn} (hc : c.Idle) {m : Message}
    (hm : m.Lines) {received tail rest : Bytes}
    (hstream : received ++ tail = m.encode ++ rest) {text : HeadText}
    {req : HttpRequest} (hheld : m.Held text req)
    (hcall : parseMessage (c.deliver received) = (final, .respond req)) :
    received = m.encode ∧ ∃ pairs, formPairs
        (text.isForm (c.request.getHeader (lit "Content-Type"))) m.body =
          some pairs ∧
      req = text.receive m.body pairs c.request ∧
      final = ⟨[], .checkRequestLine, req⟩ := by
  obtain ⟨got, gotText, rfl, hgot, hgotText⟩ := parseMessage_respond hc hcall
  have hcontent : got.body = m.body := by
    obtain ⟨pairs, _, rfl, _⟩ :=
      (parseMessage_encode_respond_iff hc hgot hgotText).mp hcall
    exact hheld.content_eq
  simp only [Message.encode, List.append_assoc] at hstream
  obtain ⟨hline, hheaders, _⟩ := Message.head_inj hgot hm hstream
  have hsame : got = m := by
    cases got
    cases m
    simp only [Message.mk.injEq]
    exact ⟨hline, hheaders, hcontent⟩
  subst hsame
  exact ⟨rfl,
    (parseMessage_encode_respond_iff hc hgot hheld.text_eq).mp hcall⟩

/-! ### The run -/

/-- From an idle connection, the answers are the messages exactly when the
chunks bring them one at a time. -/
theorem answers_iff_deliverable {requests : List Message}
    (hlines : ∀ m ∈ requests, m.Lines) {chunks : List Bytes}
    (hchunks : ∀ chunk ∈ chunks, chunk ≠ [])
    (hstream : chunks.flatten = requests.flatMap Message.encode)
    {c : HttpConn} (hc : c.Idle) :
    List.Forall₂ Message.AnsweredBy requests (answers c chunks) ↔
      Deliverable (c.request.getHeader (lit "Content-Type")) requests
        chunks := by
  induction requests generalizing chunks c with
  | nil =>
      have hnil : chunks = [] := by
        cases chunks with
        | nil => rfl
        | cons chunk rest =>
            have hempty := List.append_eq_nil_iff.mp hstream
            exact absurd hempty.1 (hchunks chunk List.mem_cons_self)
      subst hnil
      simp [Deliverable, answers]
  | cons m rest ih =>
      obtain ⟨hm, hrest⟩ := List.forall_mem_cons.mp hlines
      rw [List.flatMap_cons] at hstream
      constructor
      · intro hanswers
        rcases hlist : answers c chunks with _ | ⟨reply, more⟩
        · rw [hlist] at hanswers
          cases hanswers
        · rw [hlist, List.forall₂_cons] at hanswers
          obtain ⟨⟨text, req, rfl, hheld⟩, hmore⟩ := hanswers
          obtain ⟨before, last, others, final, rfl, hwait, hlast, rfl⟩ :=
            answers_cons_split hc.waiting hlist
          rw [List.nil_append] at hwait hlast
          rw [List.flatten_append, List.flatten_cons, ← List.append_assoc]
            at hstream
          obtain ⟨hencode, pairs, hpairs, rfl, rfl⟩ :=
            sent_eq_of_respond hc hm hstream hheld hlast
          have htext := hheld.text_eq
          rw [hencode, List.append_cancel_left_eq] at hstream
          refine ⟨text, before, last, others, rfl, hencode,
            short_of_wait hc hm htext hencode hwait, htext,
            Option.isSome_iff_exists.mpr ⟨pairs, hpairs⟩, ?_⟩
          have hnext := (ih hrest
            (fun chunk hchunk => hchunks chunk (by simp [hchunk])) hstream
            ⟨rfl, rfl⟩).mp hmore
          rwa [getHeader_receive htext _ _ _ findHeader_contentType] at hnext
      · rintro ⟨text, before, last, others, rfl, hencode, hshort, htext, hform,
          hothers⟩
        have hsplit : others.flatten = rest.flatMap Message.encode := by
          rw [List.flatten_append, List.flatten_cons, ← List.append_assoc,
            hencode] at hstream
          exact List.append_cancel_left hstream
        obtain ⟨pairs, hpairs⟩ := Option.isSome_iff_exists.mp hform
        have hlast := (parseMessage_encode_respond_iff hc hm htext).mpr
          ⟨pairs, hpairs, rfl, rfl⟩
        rw [← hencode, ← List.nil_append before.flatten] at hlast
        have hwaits : ∀ part, part <+: before.flatten →
            (parseMessage (c.deliver ([] ++ part))).2 = .wait := by
          intro part hpart
          obtain ⟨tail, htail⟩ := hpart.trans
            (List.prefix_of_prefix_length_le ⟨last, hencode⟩
              ⟨m.body, rfl⟩ hshort.le)
          refine parseMessage_wait_of_short hc hm htext htail ?_
          rintro rfl
          have hle := hpart.length_le
          rw [← htail, List.append_nil] at hshort
          omega
        rw [answers_of_waits hc.waiting hwaits hlast (by simp) others,
          List.forall₂_cons]
        refine ⟨⟨text, _, rfl, Message.held_receive htext pairs c.request⟩, ?_⟩
        apply (ih hrest (fun chunk hchunk => hchunks chunk (by simp [hchunk]))
          hsplit ⟨rfl, rfl⟩).mpr
        rw [getHeader_receive htext _ _ _ findHeader_contentType]
        exact hothers

/-- The requests that `onMessage` goes on to build a response for are the ones
that were sent, in order and each with its body, exactly when the chunks bring
them one at a time: the code reads no `Content-Length`. -/
theorem requests_answered_iff_deliverable (requests : List Message)
    (hrequests : ∀ m ∈ requests, m.WellFormed) (chunks : List Bytes)
    (hchunks : ∀ chunk ∈ chunks, chunk ≠ [])
    (hstream : chunks.flatten = requests.flatMap Message.encode) :
    List.Forall₂ Message.AnsweredBy requests (answers .init chunks) ↔
      Deliverable [] requests chunks := by
  have hfresh : HttpConn.init.request.getHeader (lit "Content-Type") = [] :=
    HttpRequest.getHeader_init findHeader_contentType
  have hlines : ∀ m ∈ requests, m.Lines := fun m hm => (hrequests m hm).lines
  rw [answers_iff_deliverable hlines hchunks hstream HttpConn.init_idle,
    hfresh]

/-- A request with a body of three bytes. -/
def postAbc : Message :=
  ⟨lit "POST /a HTTP/1.1", [lit "Content-Length: 3"], lit "abc"⟩

/-- A request without a body. -/
def getPage : Message := ⟨lit "GET /b HTTP/1.1", [], []⟩

theorem contentLength_three :
    headerLineText (lit "Content-Length: 3") =
      some (.contentLength, lit "3") := by
  have hline : lit "Content-Length: 3" =
      convertHeaderToString .contentLength ++ colon :: space :: lit "3" := by
    decide
  rw [hline, headerLineText_own (by decide)]

theorem postAbc_text : postAbc.text = some
    ⟨⟨.post, lit "/a", none, [], .http11⟩, [(.contentLength, lit "3")]⟩ := by
  have hline : requestLineText (lit "POST /a HTTP/1.1") =
      some ⟨.post, lit "/a", none, [], .http11⟩ := by
    decide +kernel
  rw [Message.text_eq_some_iff]
  exact ⟨hline, by simp only [postAbc, headerTexts, contentLength_three,
    Option.bind_some, Option.map_some]⟩

theorem getPage_text :
    getPage.text = some ⟨⟨.get, lit "/b", none, [], .http11⟩, []⟩ := by
  decide +kernel

theorem postAbc_wellFormed : postAbc.WellFormed := by
  have hall {P : Bytes → Prop} (hone : P (lit "Content-Length: 3")) :
      ∀ header ∈ postAbc.headers, P header := by
    intro header hheader
    rw [List.mem_singleton.mp hheader]
    exact hone
  refine ⟨⟨by decide, hall (by decide)⟩, ⟨lit "POST", lit "/a", by decide,
    by decide, by decide, by decide⟩, hall ?_, ?_, hall ?_⟩
  · rw [contentLength_three]
    rfl
  · intro _
    exact ⟨_, List.mem_singleton_self _, _, contentLength_three, by decide,
      by decide, by decide⟩
  · rw [contentLength_three]
    decide

theorem getPage_wellFormed : getPage.WellFormed :=
  ⟨⟨by decide, by simp [getPage, HeaderLines]⟩,
    ⟨lit "GET", lit "/b", by decide, by decide, by decide, by decide⟩,
    by simp [getPage], by simp [getPage], by simp [getPage]⟩

theorem postAbc_getPage_wellFormed :
    ∀ m ∈ [postAbc, getPage], m.WellFormed := by
  simp only [List.forall_mem_cons, List.not_mem_nil, false_implies,
    implies_true, and_true]
  exact ⟨postAbc_wellFormed, getPage_wellFormed⟩

theorem requests_answered_iff_deliverable_two :
    List.Forall₂ Message.AnsweredBy [postAbc, getPage] (answers .init
      [lit "POST /a HTTP/1.1\r\nConte", lit "nt-Length: 3\r\n\r\nabc",
        lit "GET /b HTTP/1.1\r\n\r\n"]) := by
  refine (requests_answered_iff_deliverable _ postAbc_getPage_wellFormed _
    (by decide) (by decide)).mpr ?_
  refine ⟨_, [lit "POST /a HTTP/1.1\r\nConte"], _, _, rfl, by decide,
    by decide, postAbc_text, by decide +kernel, ?_⟩
  exact ⟨_, [], _, _, rfl, by decide, by decide, getPage_text,
    by decide +kernel, rfl⟩

/-- The content of the first answer. -/
def firstContent : List Reply → Option Bytes
  | .respond req :: _ => some req.content
  | _ => none

/-- A body that is no form is the rest of the chunk that completes the head. -/
theorem firstContent_answers {c : HttpConn} (hc : c.Idle) {m : Message}
    (hm : m.Lines) {text : HeadText} (htext : m.text = some text)
    (hform : text.isForm (c.request.getHeader (lit "Content-Type")) = false)
    (rest : Bytes) (more : List Bytes) :
    firstContent (answers c ((m.head ++ rest) :: more)) = some rest := by
  have hread := (readContent_accept_iff rest (text.store c.request) _).mpr
    ⟨[], by rw [HeadText.isForm_store htext, hform]; rfl, rfl⟩
  have hcall := parseMessage_head hc hm htext rest
  rw [contentReply, hread] at hcall
  rw [answers_reply hcall (by simp), firstContent]
  rfl

theorem not_answered_of_firstContent {m : Message} {rest : List Message}
    {replies : List Reply} (hfirst : firstContent replies ≠ some m.body) :
    ¬ List.Forall₂ Message.AnsweredBy (m :: rest) replies := by
  intro hanswers
  rcases hanswers with _ | ⟨⟨text, req, rfl, hheld⟩, _⟩
  exact hfirst (congrArg some hheld.content_eq)

/-- Two requests in one chunk are answered as one, and a body that comes behind
its head is not waited for. -/
theorem pipelined_and_late_body_not_answered :
    ([postAbc.encode ++ getPage.encode].flatten =
        [postAbc, getPage].flatMap Message.encode ∧
      (∀ m ∈ [postAbc, getPage], m.WellFormed) ∧
      ¬ List.Forall₂ Message.AnsweredBy [postAbc, getPage]
        (answers .init [postAbc.encode ++ getPage.encode])) ∧
    ([postAbc.head, postAbc.body].flatten =
        [postAbc].flatMap Message.encode ∧
      ¬ List.Forall₂ Message.AnsweredBy [postAbc]
        (answers .init [postAbc.head, postAbc.body])) := by
  have hform : HeadText.isForm
      ⟨⟨.post, lit "/a", none, [], .http11⟩, [(.contentLength, lit "3")]⟩
      (HttpConn.init.request.getHeader (lit "Content-Type")) = false := by
    rw [HttpConn.init, HttpRequest.getHeader_init findHeader_contentType]
    decide +kernel
  have hfirst := firstContent_answers HttpConn.init_idle
    postAbc_wellFormed.lines postAbc_text hform
  refine ⟨⟨by decide, postAbc_getPage_wellFormed,
    not_answered_of_firstContent ?_⟩, by decide,
    not_answered_of_firstContent ?_⟩
  · rw [Message.encode, List.append_assoc, hfirst]
    decide
  · rw [← List.append_nil postAbc.head, hfirst]
    decide

end Sone

end LinuxTest
