/-
The form of the responses.  A response is well formed when it is a status line,
header lines, an empty line and a body of the length its headers give.
-/
import LinuxTest.HttpParserSafety
import LinuxTest.HttpRequestText
import LinuxTest.HttpServer

namespace LinuxTest

namespace Sone

/-! ### The form of a response -/

def NoBreak (text : Bytes) : Prop :=
  cr ∉ text ∧ lf ∉ text

def FieldName (name : Bytes) : Prop :=
  name ≠ [] ∧ NoBreak name ∧ colon ∉ name ∧ space ∉ name

instance (text : Bytes) : Decidable (NoBreak text) :=
  inferInstanceAs (Decidable (_ ∧ _))

instance (name : Bytes) : Decidable (FieldName name) :=
  inferInstanceAs (Decidable (_ ∧ _))

/-- The bytes of a status line, headers and a body. -/
def responseText (version code reason : Bytes)
    (headers : List (Bytes × Bytes)) (body : Bytes) : Bytes :=
  version ++ (code ++ lit " " ++ reason ++ lit "\r\n") ++
    headers.flatMap (fun entry =>
      entry.1 ++ lit ": " ++ entry.2 ++ lit "\r\n") ++
    (lit "\r\n" ++ body)

/-- The headers stand in one line each and give the length of the body, if they
give one. -/
def HeadersFit (headers : List (Bytes × Bytes)) (length : Nat) : Prop :=
  ∀ entry ∈ headers, FieldName entry.1 ∧ NoBreak entry.2 ∧
    (caseKey entry.1 = caseKey (lit "Content-Length") →
      entry.2 = decimal length)

def WellFormedResponse (bytes : Bytes) : Prop :=
  ∃ version code reason headers body,
    (version = lit "HTTP/1.0 " ∨ version = lit "HTTP/1.1 ") ∧
    code.length = 3 ∧ (∀ byte ∈ code, isDigit byte) ∧ NoBreak reason ∧
    HeadersFit headers body.length ∧
    bytes = responseText version code reason headers body

/-! ### Texts without line breaks -/

theorem noBreak_append {first last : Bytes} :
    NoBreak (first ++ last) ↔ NoBreak first ∧ NoBreak last := by
  simp only [NoBreak, List.mem_append, not_or]
  constructor
  · rintro ⟨⟨hfirst, hlast⟩, hfirst', hlast'⟩
    exact ⟨⟨hfirst, hfirst'⟩, hlast, hlast'⟩
  · rintro ⟨⟨hfirst, hfirst'⟩, hlast, hlast'⟩
    exact ⟨⟨hfirst, hlast⟩, hfirst', hlast'⟩

theorem noBreak_decimal (n : Nat) : NoBreak (decimal n) := by
  have hdigit : ∀ byte ∈ decimal n, 48 ≤ byte.toNat := by
    intro byte hbyte
    obtain ⟨c, hc, rfl⟩ := List.mem_map.mp hbyte
    have hisDigit := Nat.isDigit_of_mem_toDigits (by decide) (by decide) hc
    simp only [Char.isDigit, Bool.and_eq_true, decide_eq_true_eq] at hisDigit
    have hlow : 48 ≤ c.toNat := hisDigit.1
    have hhigh : c.toNat ≤ 57 := hisDigit.2
    rw [UInt8.toNat_ofNat']
    omega
  constructor
  · intro hmem
    exact absurd (hdigit cr hmem) (by decide)
  · intro hmem
    exact absurd (hdigit lf hmem) (by decide)

theorem noBreak_twoDigits (n : Nat) : NoBreak (twoDigits n) := by
  rw [twoDigits]
  split
  · exact noBreak_append.mpr ⟨by decide, noBreak_decimal n⟩
  · exact noBreak_decimal n

theorem noBreak_dayName (day : Fin 7) : NoBreak (dayName day) := by
  revert day
  decide

theorem noBreak_monthName (month : Fin 12) : NoBreak (monthName month) := by
  revert month
  decide

theorem noBreak_toGMTString (w : World) (sec : Int) :
    NoBreak (w.toGMTString sec) := by
  have hcomma : NoBreak (lit ", ") := by decide
  have hspace : NoBreak (lit " ") := by decide
  have hcolon : NoBreak (lit ":") := by decide
  have hzone : NoBreak (lit " GMT") := by decide
  simp only [World.toGMTString, Tm.toGMTString, noBreak_append,
    noBreak_dayName, noBreak_monthName, noBreak_decimal, noBreak_twoDigits,
    hcomma, hspace, hcolon, hzone, and_self]

theorem fieldName_convertHeaderToString (header : HttpHeader) :
    FieldName (convertHeaderToString header) := by
  revert header
  apply forall_header
  decide +kernel

/-! ### The responses that the server builds -/

theorem HttpHeader.contentLength_ne : contentLength ≠ .unknow := by
  decide

/-- Setting a header of the table keeps the headers fitting. -/
theorem HttpResponse.setHeader_fits {resp : HttpResponse} {length : Nat}
    (hresp : HeadersFit resp.headers.entries length) {key : Bytes}
    {header : HttpHeader} (hfind : findHeader key = some header)
    {val : Bytes} (hval : NoBreak val)
    (hlength : caseKey key = caseKey (lit "Content-Length") →
      val = decimal length) :
    HeadersFit (resp.setHeader key val).headers.entries length := by
  have hrank := findHeader_rank hfind
  rw [HttpResponse.setHeader, hfind]
  apply resp.headers.forall_insert _ _ hresp
  · exact ⟨fieldName_convertHeaderToString header, hval,
      fun hkey => hlength (hrank ▸ hkey)⟩
  · intro entry hentry hsame
    refine ⟨(hresp entry hentry).1, hval, fun hkey => hlength ?_⟩
    rw [← hrank, ← hsame, hkey]

/-- A header other than the content length may hold any one line. -/
theorem HttpResponse.setHeader_fits_other {resp : HttpResponse}
    {length : Nat} (hresp : HeadersFit resp.headers.entries length)
    (header : HttpHeader) (hknown : header ≠ .unknow)
    (hother : header ≠ .contentLength) {val : Bytes} (hval : NoBreak val) :
    HeadersFit (resp.setHeader (convertHeaderToString header)
      val).headers.entries length := by
  apply setHeader_fits hresp (findHeader_own hknown) hval
  intro hkey
  exact absurd (convertHeaderToString_rank_inj hknown
    HttpHeader.contentLength_ne hkey) hother

theorem HttpResponse.setHeader_contentLength_fits {resp : HttpResponse}
    {length : Nat} (hresp : HeadersFit resp.headers.entries length) :
    HeadersFit (resp.setHeader (lit "Content-Length")
      (decimal length)).headers.entries length := by
  have hfind := findHeader_own HttpHeader.contentLength_ne
  rw [convertHeaderToString] at hfind
  exact setHeader_fits hresp hfind (noBreak_decimal length) fun _ => rfl

@[simp] theorem HttpResponse.setHeader_content (resp : HttpResponse)
    (key val : Bytes) : (resp.setHeader key val).content = resp.content := by
  rw [setHeader]
  split <;> rfl

@[simp] theorem HttpResponse.setHeader_version (resp : HttpResponse)
    (key val : Bytes) : (resp.setHeader key val).version = resp.version := by
  rw [setHeader]
  split <;> rfl

@[simp] theorem HttpResponse.setHeader_state (resp : HttpResponse)
    (key val : Bytes) : (resp.setHeader key val).state = resp.state := by
  rw [setHeader]
  split <;> rfl

theorem noBreak_contentType (type : Bytes) : NoBreak (contentType type) := by
  rw [contentType]
  repeat' split
  all_goals decide

/-- The headers fit a body of any length: none of them gives one. -/
def LengthFree (resp : HttpResponse) : Prop :=
  ∀ length, HeadersFit resp.headers.entries length

theorem LengthFree.setHeader {resp : HttpResponse} (hresp : LengthFree resp)
    (header : HttpHeader) (hknown : header ≠ .unknow)
    (hother : header ≠ .contentLength) {val : Bytes} (hval : NoBreak val) :
    LengthFree (resp.setHeader (convertHeaderToString header) val) :=
  fun length => HttpResponse.setHeader_fits_other (hresp length) header
    hknown hother hval

theorem commonResponse_lengthFree (w : World) (version : HttpVersion) :
    LengthFree (commonResponse w version) := by
  have hinit : LengthFree { HttpResponse.init with version := version } := by
    intro length entry hentry
    cases hentry
  have hserver := hinit.setHeader .server (by decide) (by decide)
    (show NoBreak serverVersion by decide)
  exact hserver.setHeader .date (by decide) (by decide)
    (noBreak_toGMTString w w.now)

theorem setCacheHeaders_lengthFree (w : World) (mtime reqTime : Int)
    {resp : HttpResponse} (hresp : LengthFree resp) :
    LengthFree (setCacheHeaders w mtime reqTime resp) := by
  have hmaxAge : NoBreak (lit "max-age=" ++ decimal httpCacheMaxAge) :=
    noBreak_append.mpr ⟨by decide, noBreak_decimal _⟩
  have hmodified := hresp.setHeader .lastModified (by decide) (by decide)
    (noBreak_toGMTString w mtime)
  have hexpires := hmodified.setHeader .expires (by decide) (by decide)
    (noBreak_toGMTString w (reqTime + httpCacheMaxAge))
  exact hexpires.setHeader .cacheControl (by decide) (by decide) hmaxAge

/-- A response ready to be sent: with a state, for the version it was made
for, and with headers that fit its content. -/
structure Ready (version : HttpVersion) (resp : HttpResponse) : Prop where
  version_eq : resp.version = version
  state_known : resp.state ≠ .unknow
  fits : HeadersFit resp.headers.entries resp.content.length

theorem notFoundResponse_ready {resp : HttpResponse}
    (hresp : LengthFree resp) :
    Ready resp.version (notFoundResponse resp) := by
  refine ⟨by simp [notFoundResponse], by simp [notFoundResponse], ?_⟩
  rw [notFoundResponse, HttpResponse.setHeader_content]
  dsimp only
  apply HttpResponse.setHeader_contentLength_fits
  exact hresp notFoundPage.length

/-- The headers that `fileResponse` sets last fit the content. -/
theorem encodedResponse_fits {resp : HttpResponse} (hresp : LengthFree resp)
    (content : Bytes) :
    HeadersFit ((({ resp with content := content } : HttpResponse).setHeader
      (lit "Content-Length") (decimal content.length)).setHeader
        (lit "Content-Encoding") (lit "gzip")).headers.entries
      content.length := by
  apply HttpResponse.setHeader_fits_other _ .contentEncoding (by decide)
    (by decide) (by decide)
  apply HttpResponse.setHeader_contentLength_fits
  exact hresp _

theorem fileResponse_ready (w : World) (req : HttpRequest)
    {resp : HttpResponse} (hresp : LengthFree resp) :
    Ready resp.version (fileResponse w req resp) := by
  constructor
  · rw [fileResponse]
    cases extension req.url <;> simp
  · simp [fileResponse]
  · simp only [fileResponse, HttpResponse.setHeader_content]
    cases extension req.url with
    | none =>
        dsimp only
        exact encodedResponse_fits hresp _
    | some type =>
        dsimp only
        apply encodedResponse_fits
        exact hresp.setHeader .contentType (by decide) (by decide)
          (noBreak_contentType type)

/-- What `createResponse` fills in, for every request and every outcome of
opening the resource. -/
theorem createResponse_ready (w : World) (req : HttpRequest)
    (reqTime : Int) :
    Ready req.version (createResponse w req reqTime) := by
  have hcommon := commonResponse_lengthFree w req.version
  have hversion : (commonResponse w req.version).version = req.version := by
    simp [commonResponse]
  have hcache (mtime : Int) :=
    setCacheHeaders_lengthFree w mtime reqTime hcommon
  have hcacheVersion (mtime : Int) : (setCacheHeaders w mtime reqTime
      (commonResponse w req.version)).version = req.version := by
    simp [setCacheHeaders, hversion]
  rw [createResponse]
  split
  · constructor <;> dsimp only
    · exact hversion
    · simp
    · exact hcommon _
  · cases w.openFile (openedPath req) with
    | none =>
        have hready := notFoundResponse_ready (hcache (none.getD w.unsetTime))
        rwa [hcacheVersion] at hready
    | some mtime =>
        have hready := fileResponse_ready w req
          (hcache ((some mtime).getD w.unsetTime))
        rwa [hcacheVersion] at hready

/-- A code of three digits, a reason and the end of the line. -/
theorem statusForm {text : Bytes} (code reason : Bytes)
    (htext : text = code ++ lit " " ++ reason ++ lit "\r\n")
    (hlength : code.length = 3) (hdigits : code.all isDigit)
    (hreason : NoBreak reason) :
    ∃ code reason, text = code ++ lit " " ++ reason ++ lit "\r\n" ∧
      code.length = 3 ∧ (∀ byte ∈ code, isDigit byte) ∧ NoBreak reason :=
  ⟨code, reason, htext, hlength, List.all_eq_true.mp hdigits, hreason⟩

theorem statusText_form {state : HttpRespState} (hstate : state ≠ .unknow) :
    ∃ code reason, HttpResponse.statusText state =
        code ++ lit " " ++ reason ++ lit "\r\n" ∧
      code.length = 3 ∧ (∀ byte ∈ code, isDigit byte) ∧ NoBreak reason := by
  cases state with
  | unknow => exact absurd rfl hstate
  | goOn =>
      apply statusForm (lit "100") (lit "Continue") <;> decide
  | ok =>
      apply statusForm (lit "200") (lit "OK") <;> decide
  | notModified =>
      apply statusForm (lit "304") (lit "Not Modified") <;> decide
  | notFound =>
      apply statusForm (lit "404") (lit "Not Found") <;> decide
  | badRequest =>
      apply statusForm (lit "400") (lit "Bad Request") <;> decide
  | forbidden =>
      apply statusForm (lit "403") (lit "Forbidden") <;> decide
  | internalServerError =>
      apply statusForm (lit "500") (lit "Internal Server Error") <;> decide
  | httpVersionNotSupported =>
      apply statusForm (lit "505") (lit "HTTP Version Not Supported") <;> decide

/-- With a known version, the text of a ready response is well formed. -/
theorem Ready.wellFormed {version : HttpVersion} {resp : HttpResponse}
    (hready : Ready version resp) (hversion : version ≠ .unknow) :
    WellFormedResponse resp.toBytes := by
  obtain ⟨code, reason, hstatus, hlength, hdigits, hreason⟩ :=
    statusText_form hready.state_known
  refine ⟨HttpResponse.versionText resp.version, code, reason,
    resp.headers.entries, resp.content, ?_, hlength, hdigits, hreason,
    hready.fits, ?_⟩
  · rw [hready.version_eq]
    cases version with
    | unknow => exact absurd rfl hversion
    | http10 => exact Or.inl rfl
    | http11 => exact Or.inr rfl
  · rw [HttpResponse.toBytes, hstatus, responseText]

/-! ### The error page -/

/-- A name that starts with `C`, `D` or `S`. -/
def StartsCDS (name : Bytes) : Prop :=
  ∃ first rest, name = first :: rest ∧ (first = 67 ∨ first = 68 ∨ first = 83)

theorem HttpResponse.setHeader_startsCDS {resp : HttpResponse}
    (hresp : ∀ entry ∈ resp.headers.entries, StartsCDS entry.1)
    (header : HttpHeader) (hknown : header ≠ .unknow)
    (hstarts : StartsCDS (convertHeaderToString header)) (val : Bytes) :
    ∀ entry ∈ (resp.setHeader (convertHeaderToString header)
      val).headers.entries, StartsCDS entry.1 := by
  rw [setHeader, findHeader_own hknown]
  apply resp.headers.forall_insert _ _ hresp hstarts
  intro entry hentry _
  exact hresp entry hentry

theorem retErrResponse_startsCDS (w : World) (version : HttpVersion) :
    ∀ entry ∈ (retErrResponse w version).headers.entries,
      StartsCDS entry.1 := by
  have hinit : ∀ entry ∈ ({ HttpResponse.init with version := version } :
      HttpResponse).headers.entries, StartsCDS entry.1 := by
    intro entry hentry
    cases hentry
  have htype := HttpResponse.setHeader_startsCDS hinit .contentType
    (by decide) ⟨_, _, rfl, by decide⟩ (lit "text/html;charset=utf-8")
  have hserver := HttpResponse.setHeader_startsCDS htype .server (by decide)
    ⟨_, _, rfl, by decide⟩ serverVersion
  have hdate := HttpResponse.setHeader_startsCDS hserver .date (by decide)
    ⟨_, _, rfl, by decide⟩ (w.toGMTString w.now)
  rw [retErrResponse]
  apply HttpResponse.setHeader_startsCDS _ .contentLength (by decide)
    ⟨_, _, rfl, by decide⟩
  dsimp only
  exact hdate

theorem HttpResponse.setHeader_ne_nil (resp : HttpResponse)
    (header : HttpHeader) (hknown : header ≠ .unknow) (val : Bytes) :
    (resp.setHeader (convertHeaderToString header) val).headers.entries ≠
      [] := by
  rw [setHeader, findHeader_own hknown]
  exact resp.headers.insert_ne_nil _ val

/-- Where a status code should stand, the error page has a header name; when the
version is unknown it starts with that name. -/
theorem retErrResponse_not_wellFormed (w : World) (version : HttpVersion) :
    ¬ WellFormedResponse (retErrResponse w version).toBytes := by
  rintro ⟨ver, code, reason, headers, body, hver, hlength, hdigits, _, _,
    hbytes⟩
  have hne : (retErrResponse w version).headers.entries ≠ [] :=
    HttpResponse.setHeader_ne_nil _ .contentLength (by decide) _
  obtain ⟨entry, rest, hentries⟩ := List.exists_cons_of_ne_nil hne
  obtain ⟨first, tail, hname, hfirst⟩ :=
    retErrResponse_startsCDS w version entry (by simp [hentries])
  obtain ⟨digit, more, hcode⟩ : ∃ digit more, code = digit :: more := by
    cases code with
    | nil => cases hlength
    | cons digit more => exact ⟨digit, more, rfl⟩
  have hdigit : isDigit digit := hdigits digit (by simp [hcode])
  have hstate : (retErrResponse w version).state = .unknow := by
    simp [retErrResponse, HttpResponse.init]
  have hversion : (retErrResponse w version).version = version := by
    simp [retErrResponse]
  have hten : lit "HTTP/1.0 " = [72, 84, 84, 80, 47, 49, 46, 48, 32] := by
    decide
  have heleven : lit "HTTP/1.1 " = [72, 84, 84, 80, 47, 49, 46, 49, 32] := by
    decide
  have hnot : first ≠ digit := by
    rintro rfl
    rcases hfirst with rfl | rfl | rfl <;> cases hdigit
  have hhead : first ≠ 72 := by
    rcases hfirst with rfl | rfl | rfl <;> decide
  rw [HttpResponse.toBytes, hstate, hversion, hentries, responseText,
    List.flatMap_cons, hname, hcode] at hbytes
  cases version with
  | unknow =>
      rcases hver with rfl | rfl
      · simp [HttpResponse.versionText, HttpResponse.statusText, hten,
          hhead] at hbytes
      · simp [HttpResponse.versionText, HttpResponse.statusText, heleven,
          hhead] at hbytes
  | http10 =>
      rcases hver with rfl | rfl
      · simp [HttpResponse.versionText, HttpResponse.statusText, hten,
          hnot] at hbytes
      · simp [HttpResponse.versionText, HttpResponse.statusText, hten,
          heleven] at hbytes
  | http11 =>
      rcases hver with rfl | rfl
      · simp [HttpResponse.versionText, HttpResponse.statusText, hten,
          heleven] at hbytes
      · simp [HttpResponse.versionText, HttpResponse.statusText, heleven,
          hnot] at hbytes

/-- A server without files, on the first day of its clock. -/
def emptyWorld : World where
  now := 0
  localtime := fun _ => ⟨4, 1, 0, 1970, 0, 0, 0⟩
  openFile := fun _ => none
  unsetTime := 0
  compareGMTStr := fun _ _ => false
  cacheValue := fun _ => []
  gzipCompress := fun text => text

end Sone

end LinuxTest
