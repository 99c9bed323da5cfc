/-
The calls that `createPhpResponse` makes on its FastCGI connection before it
reads the answer: whether the content length it announces is that of the body
it sends, and whether each parameter fits the buffer of `sendParams`.
-/
import LinuxTest.FcgiRequest
import LinuxTest.HttpDates
import LinuxTest.HttpUrlDecode
import LinuxTest.HttpRequestFrame

namespace LinuxTest

namespace Sone

/-! ### The calls -/

/-- The sending calls of a FastCGI connection. -/
inductive FcgiCall where
  | sendBeginRequest
  | sendParams (key value : Bytes)
  | sendEndRequest
  | sendContentHeader (content : Bytes) (cLen : Nat)
deriving DecidableEq, Repr

/-- The connection after a call; none where `sendParams` writes past its
buffer. -/
def FcgiConnection.call (c : FcgiConnection) :
    FcgiCall → Option FcgiConnection
  | .sendBeginRequest => some c.sendBeginRequest
  | .sendParams key value => c.sendParams key value
  | .sendEndRequest => some c.sendEndRequest
  | .sendContentHeader content cLen => some (c.sendContentHeader content cLen)

/-- The parameters that `createPhpResponse` sends, in their order; `body` is the
decoded content. -/
def phpParams (req : HttpRequest) (body : Bytes) : List (Bytes × Bytes) :=
  [(lit "SCRIPT_FILENAME", webRoot ++ req.url),
    (lit "SERVER_PROTOCOL",
      if req.version = .http11 then lit "HTTP/1.1" else lit "HTTP/1.0"),
    (lit "REQUEST_METHOD",
      if req.method = .get then lit "GET" else lit "POST")] ++
  if req.method = .get then [(lit "QUERY_STRING", req.queryString)]
  else [(lit "CONTENT_LENGTH", decimal body.length),
    (lit "CONTENT_TYPE", lit "application/x-www-form-urlencoded")]

/-- The sending part of `HttpServer::createPhpResponse`; it throws where
`URLDecode` of the content does. -/
def createPhpRequest (req : HttpRequest) : Except Raise (List FcgiCall) :=
  (urlDecode req.content).map fun body =>
    [.sendBeginRequest] ++
      (phpParams req body).map (fun param =>
        .sendParams param.1 param.2) ++
      [.sendEndRequest] ++
      if req.method = .post then
        [.sendContentHeader req.content req.content.length]
      else []

theorem call_params (c : FcgiConnection) (params : List (Bytes × Bytes)) :
    (params.map fun param => FcgiCall.sendParams param.1 param.2).foldlM
      FcgiConnection.call c = c.sendAllParams params := by
  induction params generalizing c with
  | nil => rfl
  | cons param rest ih =>
      rw [List.map_cons, List.foldlM_cons, FcgiConnection.sendAllParams]
      exact Option.bind_congr fun next _ => ih next

/-- The calls, made one after another, are those of `sendRequest`. -/
theorem createPhpRequest_sends {req : HttpRequest} {calls : List FcgiCall}
    (hcalls : createPhpRequest req = .ok calls) (requestId : Nat) :
    ∃ body, urlDecode req.content = .ok body ∧
      calls.foldlM FcgiConnection.call (.init requestId) =
        FcgiConnection.sendRequest requestId (phpParams req body)
          (req.method = .post) req.content := by
  rw [createPhpRequest] at hcalls
  cases hbody : urlDecode req.content with
  | error cause =>
      rw [hbody] at hcalls
      cases hcalls
  | ok body =>
      rw [hbody] at hcalls
      cases hcalls
      refine ⟨body, rfl, ?_⟩
      simp only [List.foldlM_append, List.foldlM_cons, List.foldlM_nil,
        call_params, FcgiConnection.call, FcgiConnection.sendRequest,
        Option.bind_eq_bind, Option.bind_some, Option.pure_def]
      rcases ((FcgiConnection.init requestId).sendBeginRequest.sendAllParams
        (phpParams req body)) with _ | c
      · rfl
      · by_cases hpost : req.method = .post
        · simp [hpost, FcgiConnection.call]
        · simp [hpost]

/-! ### The content length -/

/-- Decoding never makes a text longer, and keeps the length only where there
is nothing to decode. -/
theorem urlDecodeLoop_length {text decoded : Bytes}
    (hdecode : urlDecodeLoop text = .ok decoded) :
    decoded.length ≤ text.length ∧
      (decoded.length = text.length → percent ∉ text ∧ decoded = text) := by
  fun_induction urlDecodeLoop text generalizing decoded with
  | case1 =>
      cases hdecode
      simp
  | case2 high low rest ih =>
      cases hrest : urlDecodeLoop rest with
      | error cause =>
          rw [hrest] at hdecode
          cases hdecode
      | ok tail =>
          rw [hrest] at hdecode
          cases hdecode
          have hle := (ih hrest).1
          simp only [List.length_cons]
          exact ⟨by omega, fun heq => by omega⟩
  | case3 rest hrest => cases hdecode
  | case4 c rest hc ih =>
      cases hrest : urlDecodeLoop rest with
      | error cause =>
          rw [hrest] at hdecode
          cases hdecode
      | ok tail =>
          rw [hrest] at hdecode
          cases hdecode
          obtain ⟨hle, hsame⟩ := ih hrest
          simp only [List.length_cons, Nat.add_right_cancel_iff]
          refine ⟨by omega, fun heq => ?_⟩
          obtain ⟨habsent, htail⟩ := hsame heq
          exact ⟨by simp [habsent, Ne.symm hc], by rw [htail]⟩

theorem urlDecodeLoop_plainText {text : Bytes} (habsent : percent ∉ text) :
    urlDecodeLoop text = .ok text := by
  induction text with
  | nil => rfl
  | cons c rest ih =>
      rw [List.mem_cons, not_or] at habsent
      rw [urlDecodeLoop_plain (Ne.symm habsent.1), ih habsent.2]
      rfl

theorem intBound_le (n : Nat) : intBound n ≤ n ∧ intBound n < 2 ^ 31 := by
  have hlt := asInt_lt n
  rw [intBound]
  split <;> omega

theorem cString_length (text : Bytes) :
    (cString text).length ≤ text.length ∧
      ((cString text).length = text.length → 0 ∉ text) := by
  have hfront : cString text <+: text := List.takeWhile_prefix _
  refine ⟨hfront.length_le, fun heq => ?_⟩
  rw [← hfront.eq_of_length heq]
  exact zero_notMem_cString text

/-- A POST request to a PHP page, with the given body. -/
def postPhp (content : Bytes) : HttpRequest :=
  { HttpRequest.init with
    method := .post
    version := .http11
    url := lit "/a.php"
    content := content }

/-- Each call of `sendParams` stays in its buffer, and its record's length field
can count what it writes. -/
def ParamsFit (calls : List FcgiCall) : Prop :=
  ∀ key value, .sendParams key value ∈ calls →
    (FcgiConnection.makeValueBody key value).length ≤ BUFSIZE ∧
      (FcgiConnection.makeValueBody key value).length < 65536

/-- How long a value may be behind a name of fewer than 128 bytes. -/
theorem makeValueBody_fits_iff {key value : Bytes}
    (hkey : key.length < 128) :
    (FcgiConnection.makeValueBody key value).length ≤ BUFSIZE ∧
        (FcgiConnection.makeValueBody key value).length < 65536 ↔
      value.length ≤ 8187 - key.length := by
  have hname : (FcgiConnection.lengthBytes key.length).length = 1 := by
    rw [FcgiConnection.lengthBytes, if_pos hkey]
    rfl
  rw [FcgiConnection.length_makeValueBody, hname, BUFSIZE,
    FcgiConnection.lengthBytes]
  split
  · simp only [List.length_cons, List.length_nil]
    omega
  · simp only [List.length_cons, List.length_nil]
    omega

/-- The decoded content is at most as long as an `int` can count, which takes
ten digits. -/
theorem decimal_urlDecode {text decoded : Bytes}
    (hdecode : urlDecode text = .ok decoded) :
    (decimal decoded.length).length ≤ 10 := by
  rw [urlDecode] at hdecode
  cases hloop : urlDecodeLoop (text.take (intBound text.length)) with
  | error cause =>
      rw [hloop] at hdecode
      cases hdecode
  | ok tail =>
      rw [hloop] at hdecode
      cases hdecode
      have hle := (urlDecodeLoop_length hloop).1
      have hcut := (cString_length tail).1
      have hbound := (intBound_le text.length).2
      rw [List.length_take] at hle
      rw [decimal, List.length_map,
        Nat.length_toDigits_le_iff (by decide) (by decide)]
      omega

/-- The names of the parameters take one byte for their length. -/
theorem phpParams_names (req : HttpRequest) (body : Bytes) :
    ∀ param ∈ phpParams req body, param.1.length < 128 := by
  intro param hparam
  have hnames : param.1 ∈ [lit "SCRIPT_FILENAME", lit "SERVER_PROTOCOL",
      lit "REQUEST_METHOD", lit "QUERY_STRING", lit "CONTENT_LENGTH",
      lit "CONTENT_TYPE"] := by
    simp only [phpParams, List.mem_append, List.mem_cons,
      List.not_mem_nil, or_false] at hparam
    rcases hparam with (rfl | rfl | rfl) | hparam
    · simp
    · simp
    · simp
    · split at hparam
      · rw [List.mem_singleton.mp hparam]
        simp
      · rcases List.mem_cons.mp hparam with rfl | hparam
        · simp
        · rw [List.mem_singleton.mp hparam]
          simp
  revert hnames
  generalize param.1 = name
  revert name
  decide

/-- Which parameters fit. -/
theorem phpParams_fit_iff {req : HttpRequest} {body : Bytes}
    (hdigits : (decimal body.length).length ≤ 10) :
    (∀ param ∈ phpParams req body,
        param.2.length ≤ 8187 - param.1.length) ↔
      req.url.length ≤ 8151 ∧
        (req.method = .get → req.queryString.length ≤ 8175) := by
  have hscript : (webRoot ++ req.url).length ≤
      8187 - (lit "SCRIPT_FILENAME").length ↔ req.url.length ≤ 8151 := by
    have hroot : webRoot.length = 21 := by decide
    have hname : (lit "SCRIPT_FILENAME").length = 15 := by decide
    rw [List.length_append, hroot, hname]
    omega
  have hprotocol : (if req.version = .http11 then lit "HTTP/1.1"
      else lit "HTTP/1.0").length ≤
        8187 - (lit "SERVER_PROTOCOL").length := by
    split <;> decide
  have hmethod : (if req.method = .get then lit "GET"
      else lit "POST").length ≤ 8187 - (lit "REQUEST_METHOD").length := by
    split <;> decide
  have hquery : 8187 - (lit "QUERY_STRING").length = 8175 := by decide
  have hlength : (decimal body.length).length ≤
      8187 - (lit "CONTENT_LENGTH").length :=
    hdigits.trans (by decide)
  have htype : (lit "application/x-www-form-urlencoded").length ≤
      8187 - (lit "CONTENT_TYPE").length := by decide
  rw [phpParams, List.forall_mem_append]
  simp only [List.forall_mem_cons, hscript, hprotocol, hmethod,
    List.not_mem_nil, false_implies, implies_true, and_true]
  refine and_congr_right fun _ => ?_
  by_cases hget : req.method = .get
  · simp [hget, hquery]
  · simp [hget, hlength, htype]

/-- The calls of `sendParams` are those for the parameters. -/
theorem mem_createPhpRequest {req : HttpRequest} {calls : List FcgiCall}
    (hcalls : createPhpRequest req = .ok calls) :
    ∃ body, urlDecode req.content = .ok body ∧
      ∀ key value, .sendParams key value ∈ calls ↔
        (key, value) ∈ phpParams req body := by
  obtain ⟨body, hbody, _⟩ := createPhpRequest_sends hcalls 0
  refine ⟨body, hbody, fun key value => ?_⟩
  rw [createPhpRequest, hbody] at hcalls
  cases hcalls
  by_cases hpost : req.method = .post
  · simp [hpost]
  · simp [hpost]

/-- The parameters of a request fit their buffers exactly when its URL, and for
a GET request its query string, are short enough. -/
theorem createPhpRequest_fits_iff (req : HttpRequest)
    (calls : List FcgiCall) (hcalls : createPhpRequest req = .ok calls) :
    ParamsFit calls ↔
      req.url.length ≤ 8151 ∧
        (req.method = .get → req.queryString.length ≤ 8175) := by
  obtain ⟨body, hbody, hmem⟩ := mem_createPhpRequest hcalls
  rw [← phpParams_fit_iff (decimal_urlDecode hbody), ParamsFit]
  constructor
  · intro hfit param hparam
    have hname := phpParams_names req body param hparam
    exact (makeValueBody_fits_iff hname).mp
      (hfit param.1 param.2 ((hmem _ _).mpr hparam))
  · intro hfit key value hcall
    have hparam := (hmem key value).mp hcall
    have hname := phpParams_names req body _ hparam
    exact (makeValueBody_fits_iff hname).mpr (hfit _ hparam)

theorem createPhpRequest_fits_short :
    ∃ calls, createPhpRequest (postPhp (lit "a=1")) = .ok calls ∧
      (ParamsFit calls ↔
        (postPhp (lit "a=1")).url.length ≤ 8151 ∧
          ((postPhp (lit "a=1")).method = .get →
            (postPhp (lit "a=1")).queryString.length ≤ 8175)) := by
  have hbody : urlDecode (postPhp (lit "a=1")).content =
      .ok (lit "a=1") := by
    decide
  have hcalls : ∃ calls, createPhpRequest (postPhp (lit "a=1")) =
      .ok calls := by
    rw [createPhpRequest, hbody]
    exact ⟨_, rfl⟩
  obtain ⟨calls, hcalls⟩ := hcalls
  exact ⟨calls, hcalls,
    createPhpRequest_fits_iff (postPhp (lit "a=1")) calls hcalls⟩

/-- The request line of a GET request for a target without escapes. -/
theorem requestLineText_get {target : Bytes} (hspace : space ∉ target)
    (hquestion : question ∉ target) (hpercent : percent ∉ target)
    (hnul : 0 ∉ target) (hlength : target.length < 2 ^ 31) :
    requestLineText (lit "GET" ++ space :: (target ++ space ::
        lit "HTTP/1.1")) =
      some ⟨.get, target, none, [], .http11⟩ := by
  have hdecode : urlDecode target = .ok target := by
    rw [urlDecode, intBound_of_lt hlength, List.take_length,
      urlDecodeLoop_plainText hpercent]
    exact congrArg Except.ok (cString_eq_self hnul)
  have hname : convertStringToMethod (lit "GET") = .get := by decide
  have htarget : targetText target (lit "HTTP/1.1") =
      some (target, none, []) := by
    rw [targetText, cut_eq_none_iff.mpr hquestion]
    simp only []
    rw [if_neg (by decide), hdecode]
    rfl
  have hversion : lineVersion (lit "GET" ++ space :: (target ++ space ::
      lit "HTTP/1.1")) = some .http11 := by
    have happend := lineVersion_append (lit "GET" ++ space :: (target ++
      [space])) (show namedVersion (lit "HTTP/1.1") = some .http11 by decide)
    simpa using happend
  rw [requestLineText, cut_append (by decide), Option.bind_some,
    cut_append hspace, Option.bind_some, hname, if_neg (by decide), htarget,
    Option.bind_some, hversion]
  rfl

/-- The path `/aaa….php` with `n` letters before its extension. -/
def longPhp (n : Nat) : Bytes :=
  lit "/" ++ List.replicate n 97 ++ lit ".php"

theorem longPhp_length (n : Nat) : (longPhp n).length = n + 5 := by
  simp [longPhp, lit]

theorem mem_longPhp {n : Nat} {byte : UInt8} (hbyte : byte ∈ longPhp n) :
    byte ∈ lit "/a.php" := by
  simp only [longPhp, List.mem_append, List.mem_replicate] at hbyte
  rcases hbyte with (hbyte | ⟨_, rfl⟩) | hbyte
  · exact List.mem_append_left (lit "a.php") hbyte
  · decide
  · exact List.mem_append_right (lit "/a") hbyte

theorem isPhp_longPhp (n : Nat) : isPhp (longPhp n) := by
  have hlength := longPhp_length n
  have hfront : (longPhp n).take (n + 1) = lit "/" ++ List.replicate n 97 :=
    List.take_left' (by simp [lit])
  have hback : (longPhp n).drop (n + 1) = lit ".php" :=
    List.drop_left' (by simp [lit])
  have hcr : cr ∉ longPhp n := fun hmem =>
    absurd (mem_longPhp hmem) (by decide)
  have hlf : lf ∉ longPhp n := fun hmem =>
    absurd (mem_longPhp hmem) (by decide)
  have hlower : (lit ".php").map toLower = lit ".php" := by decide
  simp only [isPhp, hlength, Nat.reduceSubDiff, hback, decide_eq_true_eq]
  exact ⟨by omega, hlower, fun hmem => hcr (List.mem_of_mem_take hmem),
    fun hmem => hlf (List.mem_of_mem_take hmem)⟩

/-- The message that asks for a path. -/
def pathMessage (target : Bytes) : Message :=
  ⟨lit "GET" ++ space :: (target ++ space :: lit "HTTP/1.1"), [], []⟩

/-- A path is accepted however long it is. -/
theorem parseMessage_longPhp {n : Nat} (hn : n + 5 < 2 ^ 31) :
    ∃ next req, parseMessage (HttpConn.init.deliver
        (pathMessage (longPhp n)).encode) = (next, .respond req) ∧
      req.method = .get ∧ req.url = longPhp n ∧ req.content = [] := by
  have habsent (byte : UInt8) (hbyte : byte ∉ lit "/a.php") :
      byte ∉ longPhp n := fun hmem => hbyte (mem_longPhp hmem)
  have hlength := longPhp_length n
  have hline := requestLineText_get (habsent space (by decide))
    (habsent question (by decide)) (habsent percent (by decide))
    (habsent 0 (by decide)) (by omega)
  have htext : (pathMessage (longPhp n)).text =
      some ⟨⟨.get, longPhp n, none, [], .http11⟩, []⟩ :=
    Message.text_eq_some_iff.mpr ⟨hline, rfl⟩
  have hlines : (pathMessage (longPhp n)).Lines := by
    constructor
    · have hfront : cr ∉ lit "GET" := by decide
      have hback : cr ∉ lit "HTTP/1.1" := by decide
      have hspace : cr ≠ space := by decide
      simp [pathMessage, hfront, hback, hspace, habsent cr (by decide)]
    · intro header hheader
      cases hheader
  refine ⟨_, _, (parseMessage_encode_respond_iff HttpConn.init_idle hlines
    htext).mpr ⟨[], ?_, rfl, rfl⟩, rfl, rfl, rfl⟩
  simp [formPairs, HeadText.isForm]

/-- A GET request for a path of 8205 bytes is accepted, and the parameter made
from it is written past the end of the buffer. -/
theorem accepted_request_overflows_params :
    ∃ (next : HttpConn) (req : HttpRequest) (calls : List FcgiCall),
      parseMessage (HttpConn.init.deliver
        (pathMessage (longPhp 8200)).encode) = (next, .respond req) ∧
        isPhp req.url ∧ createPhpRequest req = .ok calls ∧
        ¬ ParamsFit calls := by
  obtain ⟨next, req, hreply, _, hurl, hcontent⟩ :=
    parseMessage_longPhp (n := 8200) (by omega)
  have hcalls : ∃ calls, createPhpRequest req = .ok calls := by
    rw [createPhpRequest, hcontent]
    exact ⟨_, rfl⟩
  obtain ⟨calls, hcalls⟩ := hcalls
  refine ⟨next, req, calls, hreply, hurl ▸ isPhp_longPhp 8200, hcalls, ?_⟩
  intro hfit
  obtain ⟨body, _, hmem⟩ := mem_createPhpRequest hcalls
  have hscript := hfit (lit "SCRIPT_FILENAME") (webRoot ++ req.url)
    ((hmem _ _).mpr (by simp [phpParams]))
  rw [makeValueBody_fits_iff (by decide), List.length_append, hurl]
    at hscript
  have hlength := longPhp_length 8200
  omega

end Sone

end LinuxTest
