/-
Requests on a kept-alive connection.  The connection has one request object for
all of them, and a message overwrites in it what it gives and nothing else: the
request that goes to `createResponse` is the message's own exactly when all the
rest was empty before, and the bytes of the message find room in the buffer.
-/
import LinuxTest.HttpReadings
import LinuxTest.HttpRequestFrame

namespace LinuxTest

namespace Sone

/-- One call of `handleRead` on a connection that stays open: it waits for more
bytes, or it answers a request that does not close the connection. -/
def HttpInput.keepAliveCall (c : HttpInput) (r : Reading) :
    Option HttpInput :=
  match c.handleRead r with
  | some (next, .wait) => some next
  | some (next, .respond req) => if req.closes then none else some next
  | _ => none

/-- Two request objects that no getter tells apart. -/
structure SameRequest (req other : HttpRequest) : Prop where
  method_eq : req.method = other.method
  version_eq : req.version = other.version
  url_eq : req.url = other.url
  queryString_eq : req.queryString = other.queryString
  getParam_eq : ∀ key, req.getParam key = other.getParam key
  getHeader_eq : ∀ name, req.getHeader name = other.getHeader name
  content_eq : req.content = other.content

/-- Some pair has this key, as the maps compare keys. -/
def Given (pairs : List (Bytes × Bytes)) (key : Bytes) : Prop :=
  ∃ pair ∈ pairs, caseKey pair.1 = caseKey key

/-- The parameters a message gives: those of its query, and those of its body
when the message itself calls it a form. -/
def HeadText.ownPairs (text : HeadText) (body : Bytes) :
    List (Bytes × Bytes) :=
  text.line.pairs ++ (formPairs (text.isForm []) body).getD []

/-- The kept request object is empty wherever the message is silent. -/
structure CleanFor (kept : HttpRequest) (text : HeadText) (body : Bytes) :
    Prop where
  header : ∀ name, (findHeader name).isSome → ¬ Given text.named name →
    kept.getHeader name = []
  param : ∀ key, ¬ Given (text.ownPairs body) key → kept.getParam key = []
  query : text.line.query = none → kept.queryString = []

theorem lastGiven_eq_none_iff_not_given {pairs : List (Bytes × Bytes)}
    {key : Bytes} :
    OrderedMap.lastGiven caseKey pairs key = none ↔ ¬ Given pairs key := by
  rw [OrderedMap.lastGiven_eq_none_iff]
  simp [Given]

/-- A key reads the same in two maps after the same assignments exactly when it
was assigned or read the same before. -/
theorem readMap_insertAll_eq_iff (kept fresh : StringMap)
    (pairs : List (Bytes × Bytes)) (key : Bytes) :
    readMap (kept.insertAll pairs) key = readMap (fresh.insertAll pairs) key ↔
      (¬ Given pairs key → readMap kept key = readMap fresh key) := by
  rw [← lastGiven_eq_none_iff_not_given]
  simp only [readMap, OrderedMap.find?_insertAll]
  cases OrderedMap.lastGiven caseKey pairs key <;> simp

/-- Two maps answer `getHeader` alike when they agree on the names of the
table. -/
theorem getHeader_eq_of_known {req other : HttpRequest}
    (hknown : ∀ name, (findHeader name).isSome →
      req.getHeader name = other.getHeader name) (name : Bytes) :
    req.getHeader name = other.getHeader name := by
  by_cases hname : (findHeader name).isSome
  · exact hknown name hname
  · rw [Option.not_isSome_iff_eq_none] at hname
    simp only [HttpRequest.getHeader, hname]

section Receive

variable (text : HeadText) (body : Bytes) (pairs own : List (Bytes × Bytes))

/-- A header of the received message is its own when the message gives it, and
otherwise when the kept object had none. -/
theorem getHeader_receive_eq_iff (kept : HttpRequest) {name : Bytes}
    (hname : (findHeader name).isSome) :
    (text.receive body pairs kept).getHeader name =
        (text.receive body own .init).getHeader name ↔
      (¬ Given text.named name → kept.getHeader name = []) := by
  simp only [HttpRequest.getHeader_eq _ hname]
  have hread := readMap_insertAll_eq_iff kept.headers .empty text.named name
  rw [readMap_empty] at hread
  exact hread

theorem getParam_receive_eq_iff (kept : HttpRequest) (key : Bytes) :
    (text.receive body pairs kept).getParam key =
        (text.receive body pairs .init).getParam key ↔
      (¬ Given (text.line.pairs ++ pairs) key → kept.getParam key = []) := by
  have hread := readMap_insertAll_eq_iff kept.params .empty
    (text.line.pairs ++ pairs) key
  rw [readMap_empty] at hread
  exact hread

variable {text body own}

/-- Read with the same form parameters, a message comes out the same from the
kept and from a fresh object when the kept one is clean for it. -/
theorem sameRequest_receive_iff
    (hown : formPairs (text.isForm []) body = some own)
    (kept : HttpRequest) :
    SameRequest (text.receive body own kept) (text.receive body own .init) ↔
      CleanFor kept text body := by
  have hpairs : text.ownPairs body = text.line.pairs ++ own := by
    rw [HeadText.ownPairs, hown, Option.getD_some]
  have hquery : (text.receive body own kept).queryString =
      (text.receive body own .init).queryString ↔
        (text.line.query = none → kept.queryString = []) := by
    rw [HeadText.receive, HeadText.receive]
    cases text.line.query <;> simp [HttpRequest.init]
  constructor
  · intro hsame
    constructor
    · intro name hname
      exact (getHeader_receive_eq_iff text body own own kept hname).mp
        (hsame.getHeader_eq name)
    · intro key
      rw [hpairs]
      exact (getParam_receive_eq_iff text body own kept key).mp
        (hsame.getParam_eq key)
    · exact hquery.mp hsame.queryString_eq
  · intro hclean
    refine ⟨rfl, rfl, rfl, hquery.mpr hclean.query, ?_, ?_, rfl⟩
    · intro key
      apply (getParam_receive_eq_iff text body own kept key).mpr
      rw [← hpairs]
      exact hclean.param key
    · apply getHeader_eq_of_known
      intro name hname
      exact (getHeader_receive_eq_iff text body own own kept hname).mpr
        (hclean.header name hname)

end Receive

/-- What the receiving object had for a content type matters only when the
message gives none. -/
theorem HeadText.isForm_congr (text : HeadText) {carried : Bytes}
    (hcarried : ¬ Given text.named (lit "Content-Type") → carried = []) :
    text.isForm carried = text.isForm [] := by
  have htype : text.contentType carried = text.contentType [] := by
    rw [← lastGiven_eq_none_iff_not_given] at hcarried
    simp only [HeadText.contentType]
    cases hlast : OrderedMap.lastGiven caseKey text.named
        (lit "Content-Type") with
    | none => rw [hcarried hlast]
    | some val => rfl
  rw [HeadText.isForm, htype, HeadText.isForm]

theorem reply_eq_iff (c : HttpConn) (reply : Reply) :
    (parseMessage c).2 = reply ↔
      ∃ next, parseMessage c = (next, reply) := by
  rcases parseMessage c with ⟨next, other⟩
  simp

/-- Between two messages, the request object that a message gets is the one it
would get on a fresh connection, exactly when the object was clean for it. -/
theorem HttpConn.Idle.sameRequest_iff {c : HttpConn} (hc : c.Idle)
    {chunk : Bytes} {fresh : HttpRequest}
    (hfresh : (parseMessage (HttpConn.init.deliver chunk)).2 =
      .respond fresh) :
    (∃ used, (parseMessage (c.deliver chunk)).2 = .respond used ∧
        SameRequest used fresh) ↔
      ∃ (m : Message) (text : HeadText), m.encode = chunk ∧ m.Lines ∧
        m.text = some text ∧ CleanFor c.request text m.body := by
  simp only [reply_eq_iff] at hfresh ⊢
  obtain ⟨freshNext, hfresh⟩ := hfresh
  constructor
  · rintro ⟨used, ⟨next, hused⟩, hsame⟩
    obtain ⟨m, text, rfl, hm, htext⟩ :=
      parseMessage_respond HttpConn.init_idle hfresh
    refine ⟨m, text, rfl, hm, htext, ?_⟩
    obtain ⟨own, hown, rfl, _⟩ := (parseMessage_encode_respond_iff
      HttpConn.init_idle hm htext).mp hfresh
    obtain ⟨pairs, hpairs, rfl, _⟩ := (parseMessage_encode_respond_iff
      hc hm htext).mp hused
    -- the headers agree first, so both runs decide alike whether the body is
    -- a form and read the same pairs from it
    have htype := (getHeader_receive_eq_iff text m.body pairs own c.request
      findHeader_contentType).mp (hsame.getHeader_eq _)
    rw [HttpConn.init, HttpRequest.getHeader_init findHeader_contentType]
      at hown
    rw [text.isForm_congr htype, hown, Option.some.injEq] at hpairs
    subst hpairs
    exact (sameRequest_receive_iff hown c.request).mp hsame
  · rintro ⟨m, text, rfl, hm, htext, hclean⟩
    obtain ⟨own, hown, rfl, _⟩ := (parseMessage_encode_respond_iff
      HttpConn.init_idle hm htext).mp hfresh
    rw [HttpConn.init, HttpRequest.getHeader_init findHeader_contentType]
      at hown
    have hform := text.isForm_congr
      (hclean.header (lit "Content-Type") findHeader_contentType)
    refine ⟨text.receive m.body own c.request, ⟨_,
      (parseMessage_encode_respond_iff hc hm htext).mpr
        ⟨own, by rw [hform, hown], rfl, rfl⟩⟩, ?_⟩
    exact (sameRequest_receive_iff hown c.request).mpr hclean

/-! ### Over the readings of a connection -/

namespace HttpInput

variable {c : HttpInput} {r : Reading}

theorem keepAliveCall_eq_some {next : HttpInput}
    (hcall : c.keepAliveCall r = some next) :
    ∃ reply, c.handleRead r = some (next, reply) := by
  rw [keepAliveCall] at hcall
  split at hcall
  · rename_i next' hread
    cases hcall
    exact ⟨_, hread⟩
  · rename_i next' req hread
    split at hcall
    · cases hcall
    · cases hcall
      exact ⟨_, hread⟩
  · cases hcall

/-- A connection on which the requests of the history have been read, parsed
and answered, and which stayed open. -/
structure KeptAlive (history : List Reading) (c : HttpInput) : Prop where
  possible : Along keepAliveCall (fun c r => r.Possible c.buffer) .init
    history
  run_eq : run keepAliveCall .init history = some c
  idle : c.view.Idle

theorem KeptAlive.readInto {history : List Reading}
    (hkept : KeptAlive history c) : c.buffer.ReadInto := by
  have hstep : ∀ (state : HttpInput) (r : Reading) (next : HttpInput),
      state.buffer.ReadInto → r.Possible state.buffer →
      keepAliveCall state r = some next → next.buffer.ReadInto := by
    intro state r next hstate hpossible hcall
    obtain ⟨reply, hread⟩ := keepAliveCall_eq_some hcall
    exact (handleRead_cases hstate hpossible hread).2.1
  exact run_invariant_along hstep Buffer.init_readInto hkept.possible
    hkept.run_eq

/-- What can be read into a used buffer can be read into a fresh one. -/
theorem possible_init (hc : c.buffer.ReadInto)
    (hpossible : r.Possible c.buffer) : r.Possible HttpInput.init.buffer := by
  have hlow := hc.valid.low_nonneg
  have hle := hc.valid.low_le_high
  have hsize := hc.valid.size_eq
  have hcap := c.buffer.size_le
  have hinit : asSize HttpInput.init.buffer.writeLen = 4096 := by decide
  have hblock : HttpInput.init.buffer.capacity = 4096 := rfl
  cases hresult : r.result with
  | none =>
      rw [Reading.Possible, hresult]
      trivial
  | some bytes =>
      rw [Reading.possible_iff hresult] at hpossible ⊢
      rw [hinit, hblock]
      rcases hc.valid.asSize_writeLen with ⟨_, hwrite⟩ | ⟨_, hbig⟩
      · exact ⟨by omega, by omega, hpossible.2.2.1, by omega⟩
      · omega

/-- A message that is read whole, and answered. -/
theorem handleRead_respond (hc : c.buffer.ReadInto)
    (hpossible : r.Possible c.buffer) {next : HttpInput} {req : HttpRequest}
    (hread : c.handleRead r = some (next, .respond req)) :
    ∃ chunk, r.result = some chunk ∧ chunk ≠ [] ∧
      c.buffer.RoomFor chunk.length ∧
      (Sone.parseMessage (c.view.deliver chunk)).2 = .respond req := by
  obtain ⟨hfits, _, ⟨_, _, hwait⟩ | ⟨chunk, hresult, hsome, hparse⟩⟩ :=
    handleRead_cases hc hpossible hread
  · cases hwait
  · exact ⟨chunk, hresult, hsome, hfits chunk hresult, by rw [hparse]⟩

/-- The request object that a message gets on a kept-alive connection is the
one it would get on a fresh connection, exactly when its bytes find room in the
buffer and the object was clean for the message. -/
theorem request_isolated_iff_clean (history : List Reading) (c : HttpInput)
    (hkept : KeptAlive history c) (r : Reading)
    (hpossible : r.Possible c.buffer) (chunk : Bytes)
    (hchunk : r.result = some chunk) (freshNext : HttpInput)
    (fresh : HttpRequest)
    (hfresh : HttpInput.init.handleRead r =
      some (freshNext, .respond fresh)) :
    (∃ next used, c.handleRead r = some (next, .respond used) ∧
        SameRequest used fresh) ↔
      c.buffer.RoomFor chunk.length ∧
      ∃ (m : Message) (text : HeadText), m.encode = chunk ∧ m.Lines ∧
        m.text = some text ∧ CleanFor c.request text m.body := by
  have hc := hkept.readInto
  obtain ⟨_, hresult, hsome, _, hanswer⟩ := handleRead_respond
    Buffer.init_readInto (possible_init hc hpossible) hfresh
  cases hchunk.symm.trans hresult
  refine Iff.trans ?_
    (and_congr_right fun _ => hkept.idle.sameRequest_iff hanswer)
  constructor
  · rintro ⟨next, used, hread, hsame⟩
    obtain ⟨_, hresult', _, hroom, hused⟩ :=
      handleRead_respond hc hpossible hread
    cases hchunk.symm.trans hresult'
    exact ⟨hroom, used, hused, hsame⟩
  · rintro ⟨hroom, used, hused, hsame⟩
    obtain ⟨next, hread, _⟩ :=
      handleRead_of_fits hc hpossible hchunk hsome hroom
    exact ⟨next, used, by rw [hread, hused], hsame⟩

/-- A message in one reading is stored over what the request object held. -/
theorem handleRead_encode (hc : c.buffer.ReadInto) (hidle : c.view.Idle)
    {m : Message} (hm : m.Lines) {text : HeadText}
    (htext : m.text = some text) {pairs : List (Bytes × Bytes)}
    (hpairs : formPairs
      (text.isForm (c.request.getHeader (lit "Content-Type"))) m.body =
        some pairs)
    (hpossible : (Reading.of m.encode).Possible c.buffer)
    (hroom : c.buffer.RoomFor m.encode.length) :
    ∃ next, c.handleRead (.of m.encode) =
        some (next, .respond (text.receive m.body pairs c.request)) ∧
      next.buffer.ReadInto ∧
      next.view = ⟨[], .checkRequestLine,
        text.receive m.body pairs c.request⟩ := by
  have hsome : m.encode ≠ [] := by
    simp [Message.encode, Message.head]
  have hreply := (parseMessage_encode_respond_iff hidle hm htext).mpr
    ⟨pairs, hpairs, rfl, rfl⟩
  obtain ⟨next, hread, hkept, hview⟩ :=
    handleRead_of_fits hc hpossible rfl hsome hroom
  rw [hreply] at hread hview
  exact ⟨next, hread, hkept, hview⟩

theorem keepAliveCall_of_respond {next : HttpInput} {req : HttpRequest}
    (hread : c.handleRead r = some (next, .respond req))
    (hopen : req.closes = false) : c.keepAliveCall r = some next := by
  rw [keepAliveCall, hread]
  simp only [hopen]
  rfl

end HttpInput

/-- The object is clean for the second request of a connection when that gives
at least the keys that the first one gave. -/
theorem cleanFor_receive {earlier text : HeadText} {before body : Bytes}
    {pairs : List (Bytes × Bytes)}
    (hheaders : ∀ name, Given earlier.named name → Given text.named name)
    (hparams : ∀ key, Given (earlier.line.pairs ++ pairs) key →
      Given (text.ownPairs body) key)
    (hquery : text.line.query = none → earlier.line.query = none) :
    CleanFor (earlier.receive before pairs .init) text body := by
  have hread (given : List (Bytes × Bytes)) {key : Bytes}
      (hnot : ¬ Given given key) :
      readMap (OrderedMap.empty.insertAll given) key = [] := by
    rw [← lastGiven_eq_none_iff_not_given] at hnot
    simp [readMap, OrderedMap.find?_insertAll, hnot]
  constructor
  · intro name hname hnot
    rw [HttpRequest.getHeader_eq _ hname]
    exact hread _ fun hgiven => hnot (hheaders name hgiven)
  · intro key hnot
    exact hread _ fun hgiven => hnot (hparams key hgiven)
  · intro hnone
    rw [HeadText.receive, hquery hnone]
    rfl

/-- A `GET` request without a body. -/
def getMessage (target : Bytes) (headers : List Bytes) : Message :=
  ⟨lit "GET " ++ target ++ lit " HTTP/1.1", headers, []⟩

theorem getMessage_lines {target : Bytes} {headers : List Bytes}
    (htarget : cr ∉ target)
    (hheaders : ∀ header ∈ headers, cr ∉ header ∧ header ≠ []) :
    (getMessage target headers).Lines := by
  have hget : cr ∉ lit "GET " := by decide
  have hversion : cr ∉ lit " HTTP/1.1" := by decide
  exact ⟨by simp [getMessage, hget, htarget, hversion], hheaders⟩

namespace HttpInput

theorem formPairs_get {text : HeadText} (hget : text.line.method = .get)
    (carried body : Bytes) :
    formPairs (text.isForm carried) body = some [] := by
  simp [formPairs, HeadText.isForm, hget]

/-- Two requests without a form, read one after the other on a connection that
stays open, and the second one read on a fresh connection. -/
theorem keptAlive_two {first second : Message} (hfirst : first.Lines)
    (hsecond : second.Lines) {text other : HeadText}
    (htext : first.text = some text) (hother : second.text = some other)
    (hget : text.line.method = .get) (hgetOther : other.line.method = .get)
    (hopen : (text.receive first.body [] .init).closes = false)
    (hpossible : (Reading.of first.encode).Possible HttpInput.init.buffer)
    (hroom : HttpInput.init.buffer.RoomFor first.encode.length)
    (hnext : (HttpInput.init.keepAliveCall (.of first.encode)).all fun c =>
      decide ((Reading.of second.encode).Possible c.buffer ∧
        c.buffer.RoomFor second.encode.length)) :
    ∃ c next freshNext,
      KeptAlive [.of first.encode] c ∧
      (Reading.of second.encode).Possible c.buffer ∧
      c.buffer.RoomFor second.encode.length ∧
      c.request = text.receive first.body [] .init ∧
      c.handleRead (.of second.encode) = some (next, .respond
        (other.receive second.body [] c.request)) ∧
      HttpInput.init.handleRead (.of second.encode) = some (freshNext,
        .respond (other.receive second.body [] .init)) := by
  have hinit : HttpInput.init.view.Idle := HttpConn.init_idle
  obtain ⟨c, hread, hc, hview⟩ := handleRead_encode Buffer.init_readInto
    hinit hfirst htext (formPairs_get hget _ _) hpossible hroom
  have hcall := keepAliveCall_of_respond hread hopen
  rw [hcall, Option.all_some, decide_eq_true_eq] at hnext
  obtain ⟨hpossible', hroom'⟩ := hnext
  have hidle : c.view.Idle := by
    rw [hview]
    exact ⟨rfl, rfl⟩
  have hrequest : c.request = text.receive first.body [] .init :=
    congrArg HttpConn.request hview
  have hroomInit : HttpInput.init.buffer.RoomFor second.encode.length := by
    have hlow := hc.valid.low_nonneg
    have hle := hc.valid.low_le_high
    have hlt := hroom'.1
    simp only [Buffer.RoomFor, init, Buffer.init]
    omega
  obtain ⟨next, hsecondRead, _⟩ := handleRead_encode hc hidle hsecond hother
    (formPairs_get hgetOther _ _) hpossible' hroom'
  obtain ⟨freshNext, hfreshRead, _⟩ := handleRead_encode Buffer.init_readInto
    hinit hsecond hother (formPairs_get hgetOther _ _)
    (possible_init hc hpossible') hroomInit
  have halong : Along keepAliveCall (fun c r => r.Possible c.buffer) .init
      [.of first.encode] := ⟨hpossible, fun _ _ => trivial⟩
  exact ⟨c, next, freshNext, ⟨halong, by rw [run_cons, hcall]; rfl, hidle⟩,
    hpossible', hroom', hrequest, hsecondRead, hfreshRead⟩

theorem request_isolated_iff_clean_sameHeader :
    ∃ c next used freshNext fresh,
      KeptAlive [.of (getMessage (lit "/a") [lit "Host: h"]).encode] c ∧
      c.handleRead (.of (getMessage (lit "/b") [lit "Host: k"]).encode) =
        some (next, .respond used) ∧
      HttpInput.init.handleRead
          (.of (getMessage (lit "/b") [lit "Host: k"]).encode) =
        some (freshNext, .respond fresh) ∧
      SameRequest used fresh := by
  have hfirst : (getMessage (lit "/a") [lit "Host: h"]).text = some
      ⟨⟨.get, lit "/a", none, [], .http11⟩, [(.host, lit "h")]⟩ := by
    decide +kernel
  have hsecond : (getMessage (lit "/b") [lit "Host: k"]).text = some
      ⟨⟨.get, lit "/b", none, [], .http11⟩, [(.host, lit "k")]⟩ := by
    decide +kernel
  have hlines : (getMessage (lit "/b") [lit "Host: k"]).Lines :=
    getMessage_lines (by decide) (by decide)
  obtain ⟨c, _, freshNext, hkept, hpossible, hroom, hrequest, _, hfresh⟩ :=
    keptAlive_two (getMessage_lines (by decide) (by decide)) hlines hfirst
      hsecond rfl rfl (by decide +kernel) (by decide +kernel)
      (by decide +kernel) (by decide +kernel)
  obtain ⟨next, used, hused, hsame⟩ := (request_isolated_iff_clean _ c hkept
    _ hpossible _ rfl freshNext _ hfresh).mpr ⟨hroom, _, _, rfl, hlines,
      hsecond, hrequest ▸ cleanFor_receive
        (by simp [Given, HeadText.named, namedHeaders]) (by simp [Given])
        (by simp)⟩
  exact ⟨c, next, used, freshNext, _, hkept, hused, hfresh, hsame⟩

/-- The query, the parameters and the headers of one request are still there in
the next. -/
theorem next_request_keeps_query_and_headers :
    ∃ c next used freshNext fresh,
      KeptAlive [.of (getMessage (lit "/?a=1") [lit "Host: h"]).encode] c ∧
      c.handleRead (.of (getMessage (lit "/") []).encode) =
        some (next, .respond used) ∧
      HttpInput.init.handleRead (.of (getMessage (lit "/") []).encode) =
        some (freshNext, .respond fresh) ∧
      used.queryString = lit "a=1" ∧ used.getParam (lit "a") = lit "1" ∧
      used.getHeader (lit "Host") = lit "h" ∧ ¬ SameRequest used fresh := by
  have hfirst : (getMessage (lit "/?a=1") [lit "Host: h"]).text = some
      ⟨⟨.get, lit "/", some (lit "a=1"), [(lit "a", lit "1")], .http11⟩,
        [(.host, lit "h")]⟩ := by
    decide +kernel
  have hsecond : (getMessage (lit "/") []).text = some
      ⟨⟨.get, lit "/", none, [], .http11⟩, []⟩ := by
    decide +kernel
  obtain ⟨c, next, freshNext, hkept, _, _, hrequest, hused, hfresh⟩ :=
    keptAlive_two (getMessage_lines (by decide) (by decide))
      (getMessage_lines (by decide) (by simp)) hfirst hsecond rfl rfl
      (by decide +kernel) (by decide +kernel) (by decide +kernel)
      (by decide +kernel)
  rw [hrequest] at hused
  refine ⟨c, next, _, freshNext, _, hkept, hused, hfresh, rfl,
    by decide +kernel, by decide +kernel, ?_⟩
  intro hsame
  exact absurd hsame.queryString_eq (by decide)

end HttpInput

end Sone

end LinuxTest
