/-
Which responses are well formed: all but the error page.  Whether a call of
`onMessage` answers with that page is a matter of the text that it finds in the
buffer, from the parse state on.
-/
import LinuxTest.HttpRequestFrame
import LinuxTest.HttpRequestGrammar
import LinuxTest.HttpResponseForm

namespace LinuxTest

namespace Sone

/-! ### Input that is not refused -/

/-- A content that is read as a form has a `=` in each of its pieces. -/
def PairedContent (req : HttpRequest) (content : Bytes) : Prop :=
  req.isForm → AllPairs content

/-- Header lines with known names, a blank line, and behind it a content that
is paired if it is read as a form. -/
def AcceptableHeaders (req : HttpRequest) (queue : Bytes) : Prop :=
  ∃ headers texts content, queue = headerBlock headers ++ content ∧
    HeaderLines headers ∧ headerTexts headers = some texts ∧
    PairedContent (req.setHeaders texts) content

/-- A request line with a known method up to its first space, a second space, a
`=` in each piece of its query and a version at its end, and then such
headers. -/
def AcceptableMessage (req : HttpRequest) (queue : Bytes) : Prop :=
  ∃ line name target version rest, queue = line ++ cr :: lf :: rest ∧
    cr ∉ line ∧ SplitLine line name target version ∧
    convertStringToMethod name ≠ .unknow ∧ PairedTarget target ∧
    (lineVersion line).isSome ∧
    AcceptableHeaders { req with method := convertStringToMethod name } rest

/-- What the input holds from the parse state on is the rest of such a
message. -/
def Acceptable (c : HttpConn) : Prop :=
  match c.state with
  | .checkRequestLine => AcceptableMessage c.request c.queue
  | .checkHeader => AcceptableHeaders c.request c.queue
  | .checkContent => PairedContent c.request c.queue

/-- Only the method and the headers decide whether there is a form. -/
theorem HttpRequest.isForm_congr {req other : HttpRequest}
    (hmethod : req.method = other.method)
    (hheaders : req.headers = other.headers) : req.isForm = other.isForm := by
  rw [HttpRequest.isForm, HttpRequest.isForm, hmethod,
    HttpRequest.getHeader_eq _ findHeader_contentType,
    HttpRequest.getHeader_eq _ findHeader_contentType, hheaders]

theorem isForm_setHeaders_congr {req other : HttpRequest}
    (hmethod : req.method = other.method)
    (hheaders : req.headers = other.headers) {headers : List Bytes}
    {texts : List (HttpHeader × Bytes)}
    (htexts : headerTexts headers = some texts) :
    (req.setHeaders texts).isForm = (other.setHeaders texts).isForm := by
  rw [HttpRequest.setHeaders_eq _ (headerTexts_known htexts),
    HttpRequest.setHeaders_eq _ (headerTexts_known htexts)]
  exact HttpRequest.isForm_congr hmethod (by rw [hheaders])

theorem AcceptableHeaders.congr {req other : HttpRequest} {queue : Bytes}
    (hreq : AcceptableHeaders req queue)
    (hmethod : req.method = other.method)
    (hheaders : req.headers = other.headers) :
    AcceptableHeaders other queue := by
  obtain ⟨headers, texts, content, hqueue, hlines, htexts, hpaired⟩ := hreq
  refine ⟨headers, texts, content, hqueue, hlines, htexts, ?_⟩
  rw [PairedContent, ← isForm_setHeaders_congr hmethod hheaders htexts]
  exact hpaired

/-- Pieces that all have a `=` are not rejected, and only these are taken. -/
theorem parsePairs_not_reject {pieces : List Bytes} (req : HttpRequest)
    (hpieces : ∀ piece ∈ pieces, equals ∈ piece) :
    (parsePairs pieces req).2 ≠ .reject := by
  intro hreject
  have hraises := parsePairs_raises_iff pieces req
  have haccept := parsePairs_verdict_iff pieces req
  rw [hreject] at hraises haccept
  by_cases hsafe : SafePairs pieces
  · cases haccept.mpr ⟨hsafe, hpieces⟩
  · exact not_raises_reject (hraises.mpr hsafe)

theorem readContent_not_reject {content : Bytes} {req : HttpRequest}
    (hpaired : PairedContent req content) :
    (readContent content req).2 ≠ .reject := by
  rw [readContent, HttpRequest.isForm_content]
  by_cases hform : req.isForm = true
  · rw [if_pos hform]
    exact parsePairs_not_reject _ (hpaired hform)
  · rw [if_neg hform]
    simp

theorem readContent_paired {content : Bytes} {req next : HttpRequest}
    (haccept : readContent content req = (next, .accept)) :
    PairedContent req content := by
  intro hform
  rw [readContent, HttpRequest.isForm_content, if_pos hform] at haccept
  have hverdict := parsePairs_verdict_iff (content.splitOn ampersand)
    { req with content := content }
  rw [haccept] at hverdict
  exact (hverdict.mp rfl).2

/-- A line with two spaces is rejected for its method, its query or its end. -/
theorem SplitLine.not_reject {line name target version : Bytes}
    (hsplit : SplitLine line name target version) (req : HttpRequest)
    (hmethod : convertStringToMethod name ≠ .unknow)
    (hpaired : PairedTarget target) (hending : (lineVersion line).isSome) :
    (readRequestLine line req).2 ≠ .reject := by
  intro hreject
  have hraises := readRequestLine_raises_iff line req
  have haccept := hsplit.verdict_iff req
  rw [hreject] at hraises haccept
  by_cases hsafe : SafeTarget target version
  · cases haccept.mpr ⟨hsplit, hmethod, hsafe, hpaired, hending⟩
  · refine not_raises_reject (hraises.mpr ?_)
    rw [SafeRequestLine, hsplit.cut_line]
    simp [hsplit.cut_rest, hmethod, hsafe]

/-- An accepted line stores its method, and leaves the headers. -/
theorem SplitLine.store_eq {line name target version : Bytes}
    (hsplit : SplitLine line name target version) {text : RequestLine}
    (htext : requestLineText line = some text) (req : HttpRequest) :
    (text.store req).method = convertStringToMethod name ∧
      (text.store req).headers = req.headers := by
  have hmethod : text.method = convertStringToMethod name := by
    rw [requestLineText, hsplit.cut_line, Option.bind_some, hsplit.cut_rest,
      Option.bind_some] at htext
    split at htext
    · cases htext
    · simp only [Option.bind_eq_some_iff, Option.map_eq_some_iff] at htext
      obtain ⟨_, _, _, _, rfl⟩ := htext
      rfl
  rw [RequestLine.store, HttpRequest.setParams_eq]
  exact ⟨hmethod, rfl⟩

/-- The answer goes on to build a response, or there is none. -/
def Reply.Answers (reply : Reply) : Prop :=
  (∃ req, reply = .respond req) ∨ ∃ cause, reply = .raise cause

theorem contentReply_answers {c : HttpConn}
    (hpaired : PairedContent c.request c.queue) :
    (contentReply c).2.Answers := by
  have hreject := readContent_not_reject hpaired
  rw [contentReply]
  rcases hread : readContent c.queue c.request with ⟨req, verdict⟩
  rw [hread] at hreject
  cases verdict with
  | accept => exact Or.inl ⟨req, rfl⟩
  | reject => exact absurd rfl hreject
  | raise cause => exact Or.inr ⟨cause, rfl⟩

/-- From `CHECK_HEADER` on, acceptable input is not refused. -/
theorem headReply_answers {req : HttpRequest} {queue : Bytes}
    (hqueue : AcceptableHeaders req queue) {fuel : Nat}
    (hfuel : queue.length < fuel) (lines : Nat) :
    (headReply (headLoop fuel ⟨queue, .checkHeader, req⟩ lines)).2.Answers := by
  obtain ⟨headers, texts, content, rfl, hlines, htexts, hpaired⟩ := hqueue
  obtain ⟨count, hloop⟩ :=
    headLoop_headerBlock hlines htexts req content hfuel lines
  rw [hloop]
  exact contentReply_answers hpaired

theorem parseMessage_answers {c : HttpConn} (hc : Acceptable c) :
    (parseMessage c).2.Answers := by
  obtain ⟨queue, state, req⟩ := c
  rw [parseMessage_eq]
  cases state with
  | checkContent =>
      rw [headLoop_content rfl]
      exact contentReply_answers hc
  | checkHeader => exact headReply_answers hc (Nat.lt_add_one _) 0
  | checkRequestLine =>
      obtain ⟨line, name, target, version, rest, hqueue, hline, hsplit,
        hmethod, hpaired, hending, hheaders⟩ := hc
      change queue = line ++ cr :: lf :: rest at hqueue
      have hreject := hsplit.not_reject req hmethod hpaired hending
      have hturn := turn_eq_of_line (c := ⟨queue, .checkRequestLine, req⟩)
        (by simp) hqueue hline
      rw [readLine] at hturn
      rcases hread : readRequestLine line req with ⟨stored, verdict⟩
      rw [hread] at hturn hreject
      cases verdict with
      | reject => exact absurd rfl hreject
      | raise cause =>
          rw [headLoop_stop (by simp) hturn]
          exact Or.inr ⟨cause, rfl⟩
      | accept =>
          obtain ⟨text, htext, rfl⟩ :=
            (readRequestLine_accept_iff line req stored).mp hread
          obtain ⟨hstored, hkept⟩ := hsplit.store_eq htext req
          have hshort : rest.length < queue.length := by
            simp only [hqueue, List.length_append, List.length_cons]
            omega
          rw [headLoop_step (by simp) hturn]
          exact headReply_answers (hheaders.congr hstored.symm hkept.symm)
            hshort 1

theorem acceptableHeaders_of_headLoop {fuel lines count : Nat}
    {queue : Bytes} {req : HttpRequest} {next : HttpConn}
    (hloop : headLoop fuel ⟨queue, .checkHeader, req⟩ lines =
      (next, count, none))
    (hpaired : PairedContent next.request next.queue) :
    AcceptableHeaders req queue := by
  obtain ⟨headers, texts, hqueue, hlines, htexts, hnext⟩ :=
    headLoop_takes_headerBlock hloop
  rw [hnext] at hpaired
  exact ⟨headers, texts, next.queue, hqueue, hlines, htexts, hpaired⟩

/-- What is answered with a response was acceptable. -/
theorem acceptable_of_respond {c next : HttpConn} {req : HttpRequest}
    (hparse : parseMessage c = (next, .respond req)) : Acceptable c := by
  rw [parseMessage_eq] at hparse
  rcases hloop : headLoop (c.queue.length + 1) c 0 with
    ⟨last, count, _ | stop⟩
  · rw [hloop, headReply, contentReply_respond_iff] at hparse
    have hpaired := readContent_paired hparse.1
    obtain ⟨queue, state, stored⟩ := c
    cases state with
    | checkContent =>
        rw [headLoop_content rfl] at hloop
        cases hloop
        exact hpaired
    | checkHeader => exact acceptableHeaders_of_headLoop hloop hpaired
    | checkRequestLine =>
        rcases hturn : turn ⟨queue, .checkRequestLine, stored⟩ with
          ⟨mid, _ | stop⟩
        · rw [headLoop_step (by simp) hturn] at hloop
          obtain ⟨line, hqueue, hline, hread⟩ := turn_takes (by simp) hturn
          obtain ⟨hstate, hrequest⟩ := readLine_requestLine hread
          obtain ⟨rest, state, kept⟩ := mid
          obtain rfl : state = .checkHeader := hstate
          obtain ⟨text, htext, rfl⟩ :=
            (readRequestLine_accept_iff line stored kept).mp hrequest
          have haccept := congrArg Prod.snd hrequest
          obtain ⟨name, target, version, hsplit⟩ :=
            exists_split_of_accept haccept
          have hpasses := (hsplit.verdict_iff stored).mp haccept
          obtain ⟨hmethod, hheaders⟩ := hsplit.store_eq htext stored
          exact ⟨line, name, target, version, rest, hqueue, hline, hsplit,
            hpasses.method, hpasses.paired, hpasses.ending,
            (acceptableHeaders_of_headLoop hloop hpaired).congr hmethod
              hheaders⟩
        · rw [headLoop_stop (by simp) hturn] at hloop
          cases hloop
  · rw [hloop] at hparse
    cases stop <;> cases hparse

/-! ### Runs -/

/-- Once a request line has been accepted, the version is known. -/
def HttpConn.VersionKnown (c : HttpConn) : Prop :=
  c.state ≠ .checkRequestLine → c.request.version ≠ .unknow

theorem parsePairs_version (pieces : List Bytes) (req : HttpRequest) :
    (parsePairs pieces req).1.version = req.version := by
  induction pieces generalizing req with
  | nil => rfl
  | cons piece rest ih =>
      rw [parsePairs]
      cases cut equals piece with
      | none => rfl
      | some parts =>
          obtain ⟨key, val⟩ := parts
          simp only []
          cases urlDecode key with
          | error cause => rfl
          | ok decodedKey =>
              rw [orRaise_ok]
              cases urlDecode val with
              | error cause => rfl
              | ok decodedVal =>
                  rw [orRaise_ok, ih]
                  rfl

theorem readContent_version (content : Bytes) (req : HttpRequest) :
    (readContent content req).1.version = req.version := by
  rw [readContent]
  split
  · exact parsePairs_version _ _
  · rfl

theorem readHeaderLine_version (line : Bytes) (req : HttpRequest) :
    (readHeaderLine line req).1.version = req.version := by
  rw [readHeaderLine]
  cases cut colon line with
  | none => rfl
  | some parts =>
      obtain ⟨key, val⟩ := parts
      simp only []
      split
      · rfl
      · rw [HttpRequest.setHeader_frame]

theorem readLine_versionKnown {state : ReqCheckState} {line : Bytes}
    {req : HttpRequest} (hcontent : state ≠ .checkContent)
    (hreq : state ≠ .checkRequestLine → req.version ≠ .unknow)
    (hnext : (readLine state line req).1.1 ≠ .checkRequestLine) :
    (readLine state line req).1.2.version ≠ .unknow := by
  cases state with
  | checkContent => exact absurd rfl hcontent
  | checkHeader =>
      have hknown := hreq (by simp)
      by_cases hnil : line = []
      · simpa [readLine, hnil] using hknown
      · simpa [readLine, hnil, readHeaderLine_version] using hknown
  | checkRequestLine =>
      rcases hread : readRequestLine line req with ⟨stored, verdict⟩
      cases verdict with
      | accept =>
          obtain ⟨text, htext, rfl⟩ :=
            (readRequestLine_accept_iff line req stored).mp hread
          have hversion : (text.store req).version = text.version := rfl
          simpa [readLine, hread, onAccept, hversion] using
            requestLineText_version htext
      | reject => simp [readLine, hread, onAccept] at hnext
      | raise cause => simp [readLine, hread, onAccept] at hnext

theorem turn_versionKnown {c : HttpConn} (hc : c.VersionKnown) :
    (turn c).1.VersionKnown := by
  by_cases hstate : c.state = .checkContent
  · rw [turn_eq_of_content hstate]
    intro _
    rw [readContent_version]
    exact hc (by simp [hstate])
  · obtain ⟨view, hparse, hview⟩ := parseLine_view c.queue
    cases hview with
    | more _ =>
        rw [turn_eq_of_more hstate hparse]
        exact hc
    | error line rest byte hqueue hline hbyte =>
        rw [turn_eq_of_error hstate hparse]
        exact hc
    | ok line rest hqueue hline =>
        rw [turn_eq_of_line hstate hqueue hline]
        exact readLine_versionKnown hstate hc

theorem headLoop_versionKnown {c : HttpConn} (hc : c.VersionKnown)
    (fuel lines : Nat) :
    (headLoop fuel c lines).1.VersionKnown ∧
      ((headLoop fuel c lines).2.2 = none →
        (headLoop fuel c lines).1.state = .checkContent) := by
  induction fuel generalizing c lines with
  | zero => exact ⟨hc, by simp [headLoop]⟩
  | succ fuel ih =>
      by_cases hstate : c.state = .checkContent
      · rw [headLoop_content hstate]
        exact ⟨hc, fun _ => hstate⟩
      · have hturnKnown := turn_versionKnown hc
        rcases hturn : turn c with ⟨next, _ | stop⟩
        · rw [hturn] at hturnKnown
          rw [headLoop_step hstate hturn]
          exact ih hturnKnown (lines + 1)
        · rw [hturn] at hturnKnown
          rw [headLoop_stop hstate hturn]
          exact ⟨hturnKnown, by simp⟩

theorem closing_versionKnown {c : HttpConn} (hc : c.VersionKnown) :
    c.closing.VersionKnown := by
  intro hstate
  rw [HttpConn.closing, HttpRequest.setHeader_frame]
  exact hc hstate

/-- A call keeps the version known, and answers only requests with a known
version. -/
theorem parseMessage_versionKnown {c : HttpConn} (hc : c.VersionKnown) :
    (parseMessage c).1.VersionKnown ∧
      ∀ req, (parseMessage c).2 = .respond req → req.version ≠ .unknow := by
  rw [parseMessage_eq]
  obtain ⟨hknown, hcontent⟩ := headLoop_versionKnown hc (c.queue.length + 1) 0
  rcases hhead : headLoop (c.queue.length + 1) c 0 with
    ⟨next, lines, _ | stop⟩
  · rw [hhead] at hknown hcontent
    have hversion := readContent_version next.queue next.request
    have hstate : next.state = .checkContent := hcontent rfl
    have hreq := hknown (by simp [hstate])
    rw [headReply, contentReply]
    rcases hread : readContent next.queue next.request with ⟨req, verdict⟩
    rw [hread] at hversion
    simp only [] at hversion hreq
    cases verdict with
    | accept =>
        refine ⟨fun hstate => absurd rfl hstate, ?_⟩
        intro answered hanswered
        cases hanswered
        rwa [hversion]
    | reject =>
        refine ⟨closing_versionKnown fun _ => ?_, by simp⟩
        rwa [hversion]
    | raise cause =>
        refine ⟨fun _ => ?_, by simp⟩
        rwa [hversion]
  · rw [hhead] at hknown
    cases stop with
    | malformed => exact ⟨closing_versionKnown hknown, by simp [headReply]⟩
    | rejected => exact ⟨closing_versionKnown hknown, by simp [headReply]⟩
    | _ => exact ⟨hknown, by simp [headReply]⟩

namespace HttpInput

variable {c next : HttpInput} {r : Reading} {reply : Reply}

theorem handleRead_versionKnown (hc : c.buffer.ReadInto)
    (hpossible : r.Possible c.buffer) (hknown : c.view.VersionKnown)
    (hread : c.handleRead r = some (next, reply)) :
    next.view.VersionKnown ∧
      ∀ req, reply = .respond req → req.version ≠ .unknow := by
  obtain ⟨_, _, ⟨_, hview, rfl⟩ | ⟨bytes, _, _, hparse⟩⟩ :=
    handleRead_cases hc hpossible hread
  · exact ⟨hview ▸ hknown, by simp⟩
  · have hdelivered : (c.view.deliver bytes).VersionKnown := hknown
    have hmessage := parseMessage_versionKnown hdelivered
    rwa [hparse] at hmessage

theorem Reached.versionKnown {readings : List Reading}
    (hc : Reached readings c) : c.view.VersionKnown := by
  have hinit : HttpInput.init.view.VersionKnown :=
    fun hstate => absurd rfl hstate
  have hkept : ∀ (state : HttpInput) (r : Reading) (next : HttpInput),
      state.buffer.ReadInto ∧ state.view.VersionKnown →
      r.Possible state.buffer → step state r = some next →
      next.buffer.ReadInto ∧ next.view.VersionKnown := by
    rintro state r next ⟨hstate, hknown⟩ hpossible hstep
    obtain ⟨reply, hread⟩ := step_eq_some hstep
    exact ⟨step_readInto hstate hpossible hstep,
      (handleRead_versionKnown hstate hpossible hknown hread).1⟩
  exact (run_invariant_along hkept ⟨Buffer.init_readInto, hinit⟩
    hc.possible hc.run_eq).2

/-- Over every run of readings, a response that is not made by PHP is well
formed exactly when what the buffer held for the call was acceptable. -/
theorem response_wellFormed_iff_acceptable (w : World) (reqTime : Int)
    (readings : List Reading) (c : HttpInput) (hc : Reached readings c)
    (r : Reading) (hpossible : r.Possible c.buffer) (next : HttpInput)
    (reply : Reply) (hread : c.handleRead r = some (next, reply))
    (bytes : Bytes)
    (hsent : sentMessage w reqTime next.request.version reply = some bytes) :
    WellFormedResponse bytes ↔
      Acceptable (c.view.deliver (r.result.getD [])) := by
  have hversion := (handleRead_versionKnown hc.readInto hpossible
    hc.versionKnown hread).2
  obtain ⟨_, _, ⟨_, _, rfl⟩ | ⟨chunk, hresult, _, hparse⟩⟩ :=
    handleRead_cases hc.readInto hpossible hread
  · cases hsent
  rw [hresult, Option.getD_some]
  cases reply with
  | errorPage =>
      cases hsent
      refine iff_of_false (retErrResponse_not_wellFormed w _) ?_
      intro hacceptable
      have hanswers := parseMessage_answers hacceptable
      rw [hparse] at hanswers
      simp [Reply.Answers] at hanswers
  | respond req =>
      refine iff_of_true ?_ (acceptable_of_respond hparse)
      simp only [sentMessage] at hsent
      split at hsent
      · cases hsent
      · cases hsent
        exact (createResponse_ready w req reqTime).wellFormed
          (hversion req rfl)
  | wait => cases hsent
  | raise cause => cases hsent
  | stuck => cases hsent

/-- The answer to a request that comes in two readings. -/
theorem response_wellFormed_iff_acceptable_notFound :
    ∃ c next reply bytes,
      Reached [.of (lit "GET / HT")] c ∧
      c.handleRead (.of (lit "TP/1.1\r\n\r\n")) = some (next, reply) ∧
      sentMessage emptyWorld 0 next.request.version reply = some bytes ∧
      WellFormedResponse bytes := by
  have hpossible : PossibleRun .init
      [.of (lit "GET / HT"), .of (lit "TP/1.1\r\n\r\n")] := by
    decide +kernel
  have hsome : ((HttpInput.init.step (.of (lit "GET / HT"))).bind fun c =>
      (c.handleRead (.of (lit "TP/1.1\r\n\r\n"))).bind fun result =>
        sentMessage emptyWorld 0 result.1.request.version
          result.2).isSome := by
    decide +kernel
  obtain ⟨bytes, hbytes⟩ := Option.isSome_iff_exists.mp hsome
  obtain ⟨c, hstep, hrest⟩ := Option.bind_eq_some_iff.mp hbytes
  obtain ⟨⟨next, reply⟩, hread, hsent⟩ := Option.bind_eq_some_iff.mp hrest
  have hc : Reached [.of (lit "GET / HT")] c :=
    ⟨⟨hpossible.1, fun _ _ => trivial⟩, by rw [run_cons, hstep]; rfl⟩
  refine ⟨c, next, reply, bytes, hc, hread, hsent, ?_⟩
  refine (response_wellFormed_iff_acceptable emptyWorld 0 _ c hc _
    (hpossible.2 c hstep).1 next reply hread bytes hsent).mpr ?_
  -- the first reading was no line yet
  have hwait : Sone.parseMessage (HttpInput.init.view.deliver
      (lit "GET / HT")) =
        (HttpInput.init.view.deliver (lit "GET / HT"), .wait) := by
    rw [parseMessage_eq, headLoop_stop (by decide)
      (turn_eq_of_more (by decide) (parseLine_absent (by decide)))]
    rfl
  obtain ⟨first, hfirst⟩ := step_eq_some hstep
  obtain ⟨_, _, ⟨hnothing, _⟩ | ⟨chunk, hchunk, _, hparse⟩⟩ :=
    handleRead_cases Buffer.init_readInto hpossible.1 hfirst
  · exact absurd hnothing (by decide)
  cases hchunk
  rw [hwait] at hparse
  rw [← (Prod.mk.inj hparse).1]
  have hmethod : convertStringToMethod (lit "GET") ≠ .unknow := by decide
  have hpaired : PairedTarget (lit "/") := by
    intro path query hcut
    rw [show cut question (lit "/") = none by decide] at hcut
    cases hcut
  exact ⟨lit "GET / HTTP/1.1", lit "GET", lit "/", lit "HTTP/1.1",
    lit "\r\n", by decide, by decide, ⟨by decide, by decide, by decide⟩,
    hmethod, hpaired, by decide, [], [], [], rfl, by simp [HeaderLines], rfl,
    fun hform => by cases hform⟩

/-- A request line without a space is answered with a page that has no version,
no status code and no reason. -/
theorem bad_request_not_wellFormed :
    ∃ next reply bytes,
      (Reading.of (lit "BAD\r\n")).Possible HttpInput.init.buffer ∧
      HttpInput.init.handleRead (.of (lit "BAD\r\n")) =
        some (next, reply) ∧
      sentMessage emptyWorld 0 next.request.version reply = some bytes ∧
      ¬ WellFormedResponse bytes := by
  have hpage : (HttpInput.init.handleRead (.of (lit "BAD\r\n"))).any
      (fun result => match result.2 with
        | .errorPage => true
        | _ => false) = true := by
    decide +kernel
  obtain ⟨⟨next, reply⟩, hread, hreply⟩ := (Option.any_eq_true _ _).mp hpage
  cases reply with
  | errorPage =>
      exact ⟨next, .errorPage, _, by decide +kernel, hread, rfl,
        retErrResponse_not_wellFormed emptyWorld _⟩
  | _ => cases hreply

end HttpInput

end Sone

end LinuxTest
