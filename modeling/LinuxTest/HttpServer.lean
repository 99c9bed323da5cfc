/-
The answering side of `http_server/HttpServer.cpp`: `createResponse`,
`retErrResponse` and the end of `onMessage`, with the constants of `consts.h`.
What the file system, the clock, the file cache and the compressor answer is the
`World`.
-/
import LinuxTest.HttpParser

namespace LinuxTest

namespace Sone

def serverVersion : Bytes := lit "sone/1.0"

/-- The root directory of the resources. -/
def webRoot : Bytes := lit "/home/ubuntu/web_root"

def notFoundPage : Bytes := lit
  "<html><title>404 Not Found</title><body><h1>Not Found!</h1></body></html>"

def errorReqPage : Bytes := lit
  "<html><title>400 Bad Request</title><body><h1>Bad Request!</h1></body></html>"

def httpCacheMaxAge : Nat := 86400

/-- `std::to_string` of a `size_t`. -/
def decimal (n : Nat) : Bytes :=
  (Nat.toDigits 10 n).map fun c => UInt8.ofNat c.toNat

/-- The fields of `struct tm` that `toGMTString` prints. -/
structure Tm where
  weekday : Fin 7
  day : Nat
  month : Fin 12
  year : Nat
  hour : Nat
  minute : Nat
  second : Nat

/-- `%a` in the C locale. -/
def dayName (day : Fin 7) : Bytes :=
  ["Sun", "Mon", "Tue", "Wed", "Thu", "Fri", "Sat"].map lit |>.get day

/-- `%b` in the C locale. -/
def monthName (month : Fin 12) : Bytes :=
  ["Jan", "Feb", "Mar", "Apr", "May", "Jun", "Jul", "Aug", "Sep", "Oct",
    "Nov", "Dec"].map lit |>.get month

/-- A number in at least two digits. -/
def twoDigits (n : Nat) : Bytes :=
  if n < 10 then lit "0" ++ decimal n else decimal n

/-- `strftime` with the format of `toGMTString`. -/
def Tm.toGMTString (t : Tm) : Bytes :=
  dayName t.weekday ++ lit ", " ++ twoDigits t.day ++ lit " " ++
    monthName t.month ++ lit " " ++ decimal t.year ++ lit " " ++
    twoDigits t.hour ++ lit ":" ++ twoDigits t.minute ++ lit ":" ++
    twoDigits t.second ++ lit " GMT"

/-- What is outside the server while it builds one response. -/
structure World where
  /-- The clock. -/
  now : Int
  /-- `localtime_r`. -/
  localtime : Int → Tm
  /-- The modification time of the file that `open` finds; none if it fails. -/
  openFile : Bytes → Option Int
  /-- What `st_mtim` holds after an `fstat` that failed. -/
  unsetTime : Int
  /-- `util::compareGMTStr`. -/
  compareGMTStr : Bytes → Bytes → Bool
  /-- The bytes that `getValue` and `getSize` of the file cache give. -/
  cacheValue : Bytes → Bytes
  /-- `gzipCompress`. -/
  gzipCompress : Bytes → Bytes

/-- `Timestamp::toGMTString`. -/
def World.toGMTString (w : World) (sec : Int) : Bytes :=
  (w.localtime sec).toGMTString

/-- `complete_url` of `createResponse`. -/
def completeUrl (req : HttpRequest) : Bytes :=
  webRoot ++ req.url

/-- The path that `createResponse` opens: `open` reads up to a NUL. -/
def openedPath (req : HttpRequest) : Bytes :=
  cString (completeUrl req)

def isLetter (c : UInt8) : Bool :=
  (65 ≤ c ∧ c ≤ 90) ∨ (97 ≤ c ∧ c ≤ 122)

/-- The first group of `\.([a-z]+)`, searched without regard to case. -/
def extension : Bytes → Option Bytes
  | [] => none
  | c :: rest =>
      if c = 46 ∧ rest.takeWhile isLetter ≠ [] then
        some (rest.takeWhile isLetter)
      else extension rest

/-- The `Content-Type` that `createResponse` gives to an extension. -/
def contentType (type : Bytes) : Bytes :=
  if caseKey type = caseKey (lit "html") then lit "text/html;charset=utf-8"
  else if caseKey type = caseKey (lit "png") then lit "image/png"
  else if caseKey type = caseKey (lit "jpg") then lit "image/jpeg"
  else if caseKey type = caseKey (lit "js") then
    lit "application/javascript"
  else if caseKey type = caseKey (lit "css") then lit "text/css"
  else lit "text/plain"

/-- The headers that every answer of `createResponse` has. -/
def commonResponse (w : World) (version : HttpVersion) : HttpResponse :=
  let resp := { HttpResponse.init with version := version }
  let resp := resp.setHeader (lit "Server") serverVersion
  resp.setHeader (lit "Date") (w.toGMTString w.now)

/-- The headers of an answer that is not `304`. -/
def setCacheHeaders (w : World) (mtime reqTime : Int) (resp : HttpResponse) :
    HttpResponse :=
  let resp := resp.setHeader (lit "Last-Modified") (w.toGMTString mtime)
  let resp := resp.setHeader (lit "Expires")
    (w.toGMTString (reqTime + httpCacheMaxAge))
  resp.setHeader (lit "Cache-Control")
    (lit "max-age=" ++ decimal httpCacheMaxAge)

/-- The end of `createResponse` when the resource could not be opened. -/
def notFoundResponse (resp : HttpResponse) : HttpResponse :=
  let resp := { resp with state := .notFound, content := notFoundPage }
  resp.setHeader (lit "Content-Length") (decimal notFoundPage.length)

/-- The end of `createResponse` when the resource could be opened. -/
def fileResponse (w : World) (req : HttpRequest) (resp : HttpResponse) :
    HttpResponse :=
  let resp := match extension req.url with
    | none => resp
    | some type => resp.setHeader (lit "Content-Type") (contentType type)
  let content := w.gzipCompress (w.cacheValue (completeUrl req))
  let resp := { resp with content := content }
  let resp := resp.setHeader (lit "Content-Length") (decimal content.length)
  let resp := resp.setHeader (lit "Content-Encoding") (lit "gzip")
  { resp with state := .ok }

/-- `HttpServer::createResponse`. -/
def createResponse (w : World) (req : HttpRequest) (reqTime : Int) :
    HttpResponse :=
  let file := w.openFile (openedPath req)
  let mtime := file.getD w.unsetTime
  let resp := commonResponse w req.version
  let modified := req.getHeader (lit "If-Modified-Since")
  if modified ≠ [] ∧ file.isSome ∧
      w.compareGMTStr modified (w.toGMTString mtime) then
    { resp with state := .notModified }
  else
    let resp := setCacheHeaders w mtime reqTime resp
    match file with
    | none => notFoundResponse resp
    | some _ => fileResponse w req resp

/-- The response of `HttpServer::retErrResponse`; its state is never set. -/
def retErrResponse (w : World) (version : HttpVersion) : HttpResponse :=
  let resp := { HttpResponse.init with version := version }
  let resp := resp.setHeader (lit "Content-Type")
    (lit "text/html;charset=utf-8")
  let resp := resp.setHeader (lit "Server") serverVersion
  let resp := resp.setHeader (lit "Date") (w.toGMTString w.now)
  let resp := { resp with content := errorReqPage }
  resp.setHeader (lit "Content-Length") (decimal errorReqPage.length)

/-- `regex_match(url, ".*\.php")` without regard to case; the dot stands for no
line terminator. -/
def isPhp (url : Bytes) : Bool :=
  4 ≤ url.length ∧
    (url.drop (url.length - 4)).map toLower = lit ".php" ∧
    cr ∉ url.take (url.length - 4) ∧ lf ∉ url.take (url.length - 4)

/-- The bytes that a call of `onMessage` hands to `send`, for every response
that is not made by PHP; `version` is that of the stored request. -/
def sentMessage (w : World) (reqTime : Int) (version : HttpVersion) :
    Reply → Option Bytes
  | .errorPage => some (retErrResponse w version).toBytes
  | .respond req =>
      if isPhp req.url then none
      else some (createResponse w req reqTime).toBytes
  | _ => none

end Sone

end LinuxTest
