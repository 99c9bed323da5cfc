/-
The message types of `http_server/http.h` and `http.cpp`: methods, header names
and states, the request object a connection parses into, and the response with
its serialisation.  `_scheme` and the cookie maps are left out: nothing that is
modelled here reads them.
-/
import LinuxTest.ByteString
import LinuxTest.OrderedMap

namespace LinuxTest

namespace Sone

/-- `http_method`. -/
inductive HttpMethod where
  | unknow | get | head | post | put | trace | options | delete
deriving DecidableEq, Repr

/-- `http_version`. -/
inductive HttpVersion where
  | unknow | http10 | http11
deriving DecidableEq, Repr

/-- `http_headers`. -/
inductive HttpHeader where
  | unknow | connection | date | mimeVersion | trailer | transferEncoding
  | update | via | cacheControl | pragma | clientIp | host | userAgent
  | accept | acceptCharset | acceptEncoding | acceptLanguage | authorization
  | cookie | upgradeInsecureRequests | secFetchUser | secFetchSite
  | secFetchMode | purpose | ifModifiedSince | referer | origin | age
  | publicMethods | server | title | setCookie | expires | location
  | contentBase | contentEncoding | contentLanguage | contentLength
  | contentLocation | contentMD5 | contentRange | contentType | lastModified
deriving DecidableEq, Repr

/-- `http_resp_state`. -/
inductive HttpRespState where
  | unknow | goOn | ok | notModified | notFound | badRequest | forbidden
  | internalServerError | httpVersionNotSupported
deriving DecidableEq, Repr

/-- `ConvertHeaderToString`. -/
def convertHeaderToString : HttpHeader → Bytes
  | .unknow => lit "UNKNOW"
  | .connection => lit "Connection"
  | .date => lit "Date"
  | .mimeVersion => lit "MIME-Version"
  | .trailer => lit "Trailer"
  | .transferEncoding => lit "Transfer-Encoding"
  | .update => lit "Update"
  | .via => lit "Via"
  | .cacheControl => lit "Cache-Control"
  | .pragma => lit "Pragma"
  | .clientIp => lit "Client-Ip"
  | .host => lit "Host"
  | .userAgent => lit "User-Agent"
  | .accept => lit "Accept"
  | .acceptCharset => lit "Accept-Charset"
  | .acceptEncoding => lit "Accept-Encoding"
  | .acceptLanguage => lit "Accept-Language"
  | .authorization => lit "Authorization"
  | .cookie => lit "Cookie"
  | .upgradeInsecureRequests => lit "Upgrade-Insecure-Requests"
  | .secFetchMode => lit "Sec-Fetch-Mode"
  | .secFetchSite => lit "Sec-Fetch-Site"
  | .secFetchUser => lit "Sec-Fetch-User"
  | .purpose => lit "Purpose"
  | .ifModifiedSince => lit "If-Modified-Since"
  | .referer => lit "Referer"
  | .origin => lit "Origin"
  | .age => lit "Age"
  | .publicMethods => lit "Public"
  | .server => lit "Server"
  | .title => lit "Title"
  | .setCookie => lit "Set-Cookie"
  | .expires => lit "Expires"
  | .location => lit "Location"
  | .contentBase => lit "Content-Base"
  | .contentEncoding => lit "Content-Encoding"
  | .contentLanguage => lit "Content-Language"
  | .contentLength => lit "Content-Length"
  | .contentLocation => lit "Content-Location"
  | .contentMD5 => lit "Content-MD5"
  | .contentRange => lit "Content-Range"
  | .contentType => lit "Content-Type"
  | .lastModified => lit "Last-Modified"

/-- The headers entered in the `HEADERS` table, each under its own name. -/
def knownHeaders : List HttpHeader :=
  [.connection, .date, .mimeVersion, .trailer, .transferEncoding, .update,
    .via, .cacheControl, .pragma, .clientIp, .host, .userAgent, .accept,
    .acceptCharset, .acceptEncoding, .acceptLanguage, .authorization,
    .cookie, .upgradeInsecureRequests, .secFetchUser, .secFetchSite,
    .secFetchMode, .purpose, .ifModifiedSince, .referer, .origin, .age,
    .publicMethods, .server, .title, .setCookie, .expires, .location,
    .contentBase, .contentEncoding, .contentLanguage, .contentLength,
    .contentLocation, .contentMD5, .contentRange, .contentType,
    .lastModified]

/-- `HEADERS.find(key)`. -/
def findHeader (key : Bytes) : Option HttpHeader :=
  knownHeaders.find? fun header =>
    caseKey (convertHeaderToString header) = caseKey key

/-- `ConvertStringToHeader`. -/
def convertStringToHeader (key : Bytes) : HttpHeader :=
  (findHeader key).getD .unknow

/-- The `METHODS` table. -/
def methods : List (Bytes × HttpMethod) :=
  [(lit "GET", .get), (lit "POST", .post), (lit "HEAD", .head),
    (lit "PUT", .put), (lit "TRACE", .trace), (lit "OPTIONS", .options),
    (lit "DELETE", .delete)]

/-- `ConvertStringToMethod`. -/
def convertStringToMethod (name : Bytes) : HttpMethod :=
  ((methods.find? fun entry => caseKey entry.1 = caseKey name).map
    Prod.snd).getD .unknow

/-- `std::map<std::string, std::string, CaseInsensitiveLess>`. -/
abbrev StringMap := OrderedMap Bytes caseKey

/-- `_map[key]`: an absent key reads as the empty string.  The entry that
`operator[]` then creates holds that same empty string and is not modelled. -/
def readMap (map : StringMap) (key : Bytes) : Bytes :=
  (map.find? key).getD []

/-- `HttpRequest`. -/
structure HttpRequest where
  method : HttpMethod
  version : HttpVersion
  url : Bytes
  queryString : Bytes
  params : StringMap
  headers : StringMap
  content : Bytes

namespace HttpRequest

/-- `HttpRequest::HttpRequest()`. -/
def init : HttpRequest :=
  ⟨.unknow, .unknow, [], [], .empty, .empty, []⟩

def getHeader (req : HttpRequest) (name : Bytes) : Bytes :=
  match findHeader name with
  | none => lit "UNKNOW"
  | some header => readMap req.headers (convertHeaderToString header)

def setHeader (req : HttpRequest) (key val : Bytes) : HttpRequest :=
  match findHeader key with
  | none => req
  | some header => { req with
      headers := req.headers.insert (convertHeaderToString header) val }

def getParam (req : HttpRequest) (key : Bytes) : Bytes :=
  readMap req.params key

def setParam (req : HttpRequest) (key val : Bytes) : HttpRequest :=
  { req with params := req.params.insert key val }

/-- The test behind a response that has been written out: close the connection,
or keep it alive. -/
def closes (req : HttpRequest) : Bool :=
  req.getHeader (lit "Connection") = lit "close" ∨ req.version = .http10

end HttpRequest

/-- `HttpResponse`. -/
structure HttpResponse where
  state : HttpRespState
  version : HttpVersion
  headers : StringMap
  content : Bytes

namespace HttpResponse

/-- `HttpResponse::HttpResponse()`. -/
def init : HttpResponse := ⟨.unknow, .unknow, .empty, []⟩

def setHeader (resp : HttpResponse) (key val : Bytes) : HttpResponse :=
  match findHeader key with
  | none => resp
  | some header => { resp with
      headers := resp.headers.insert (convertHeaderToString header) val }

/-- The version at the head of the status line; nothing when it is unknown. -/
def versionText : HttpVersion → Bytes
  | .http10 => lit "HTTP/1.0 "
  | .http11 => lit "HTTP/1.1 "
  | .unknow => []

/-- The rest of the status line; nothing when the state was never set. -/
def statusText : HttpRespState → Bytes
  | .goOn => lit "100 Continue\r\n"
  | .ok => lit "200 OK\r\n"
  | .notModified => lit "304 Not Modified\r\n"
  | .notFound => lit "404 Not Found\r\n"
  | .badRequest => lit "400 Bad Request\r\n"
  | .forbidden => lit "403 Forbidden\r\n"
  | .internalServerError => lit "500 Internal Server Error\r\n"
  | .httpVersionNotSupported => lit "505 HTTP Version Not Supported\r\n"
  | .unknow => []

/-- `HttpResponse::toString`. -/
def toBytes (resp : HttpResponse) : Bytes :=
  versionText resp.version ++ statusText resp.state ++
    resp.headers.entries.flatMap (fun entry =>
      entry.1 ++ lit ": " ++ entry.2 ++ lit "\r\n") ++
    (lit "\r\n" ++ resp.content)

end HttpResponse

theorem readMap_empty (key : Bytes) : readMap .empty key = [] := by
  simp [readMap]

theorem findHeader_rank {key : Bytes} {header : HttpHeader}
    (hfind : findHeader key = some header) :
    caseKey (convertHeaderToString header) = caseKey key := by
  simpa using List.find?_some hfind

theorem findHeader_congr {key other : Bytes}
    (hrank : caseKey key = caseKey other) :
    findHeader key = findHeader other := by
  simp only [findHeader, hrank]

theorem mem_knownHeaders {header : HttpHeader} (hknown : header ≠ .unknow) :
    header ∈ knownHeaders := by
  revert hknown
  cases header <;> decide

/-- A property of all headers is checked on the table and on `unknow`. -/
theorem forall_header {P : HttpHeader → Prop}
    (hall : ∀ header ∈ HttpHeader.unknow :: knownHeaders, P header)
    (header : HttpHeader) : P header := by
  apply hall
  by_cases hknown : header = .unknow
  · exact hknown ▸ List.mem_cons_self
  · exact List.mem_cons_of_mem _ (mem_knownHeaders hknown)

theorem findHeader_own {header : HttpHeader} (hknown : header ≠ .unknow) :
    findHeader (convertHeaderToString header) = some header := by
  have hall : ∀ header ∈ knownHeaders,
      findHeader (convertHeaderToString header) = some header := by
    decide +kernel
  exact hall header (mem_knownHeaders hknown)

/-- Two headers of the table differ in more than the case of their names. -/
theorem convertHeaderToString_rank_inj {header other : HttpHeader}
    (hheader : header ≠ .unknow) (hother : other ≠ .unknow)
    (hrank : caseKey (convertHeaderToString header) =
      caseKey (convertHeaderToString other)) : header = other := by
  have hfind := findHeader_congr hrank
  rw [findHeader_own hheader, findHeader_own hother] at hfind
  exact Option.some.inj hfind

namespace HttpRequest

/-- For a name of the table, reading a header is reading the map. -/
theorem getHeader_eq (req : HttpRequest) {name : Bytes}
    (hknown : (findHeader name).isSome) :
    req.getHeader name = readMap req.headers name := by
  obtain ⟨header, hfind⟩ := Option.isSome_iff_exists.mp hknown
  rw [getHeader, hfind]
  simp only [readMap, req.headers.find?_congr (findHeader_rank hfind)]

theorem getHeader_init {name : Bytes} (hname : (findHeader name).isSome) :
    init.getHeader name = [] := by
  rw [getHeader_eq _ hname]
  exact readMap_empty name

end HttpRequest

end Sone

end LinuxTest
