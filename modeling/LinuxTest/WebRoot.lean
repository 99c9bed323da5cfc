/-
Where the resources lie that a client can name.  `createResponse` opens
`WEB_ROOT` followed by the decoded URL; this module says which URLs lead to
`WEB_ROOT` or below it.
-/
import LinuxTest.HttpRequestText
import LinuxTest.HttpServer
import LinuxTest.LexicalPath

namespace LinuxTest

namespace Sone

def slash : UInt8 := 47

/-- What a component of a path means. -/
def pathStep (name : Bytes) : PathStep Bytes :=
  if name = [] ∨ name = lit "." then .stay
  else if name = lit ".." then .up
  else .down name

/-- The steps of a path, cut at its slashes. -/
def pathSteps (path : Bytes) : List (PathStep Bytes) :=
  (path.splitOn slash).map pathStep

/-- The directory names of `WEB_ROOT`. -/
def rootNames : List Bytes :=
  [lit "home", lit "ubuntu", lit "web_root"]

/-- An absolute path leads to `WEB_ROOT` or below it, with `.` and `..`
resolved lexically. -/
def InWebRoot (path : Bytes) : Prop :=
  rootNames <+: resolve [] (pathSteps path)

/-- The steps of a URL behind its first component.  That component is joined to
the last name of `WEB_ROOT`, so only an empty one (a URL that starts with a
slash, or an empty one) leaves `WEB_ROOT` as it is. -/
def urlSteps (url : Bytes) : List (PathStep Bytes) :=
  (url.splitOn slash).tail.map pathStep

/-- The URL stays: it does not extend the last name of `WEB_ROOT`, or climbs
over it, and it goes down again by the names it climbed over. -/
def Confined (url : Bytes) : Prop :=
  ((url.splitOn slash).head? = some [] ∨ 1 ≤ (reduce (urlSteps url)).1) ∧
    rootNames.drop (rootNames.length - (reduce (urlSteps url)).1) <+:
      (reduce (urlSteps url)).2

/-- Cutting behind a text without the separator. -/
theorem splitOn_append_of_notMem {sep : UInt8} {first : Bytes}
    (hfirst : sep ∉ first) (last : Bytes) :
    (first ++ last).splitOn sep =
      (last.splitOn sep).modifyHead (first ++ ·) := by
  induction first with
  | nil =>
      rw [List.nil_append]
      cases last.splitOn sep <;> rfl
  | cons head tail ih =>
      rw [List.mem_cons, not_or] at hfirst
      rw [List.cons_append, List.splitOn_cons_eq_if_modifyHead,
        if_neg (by simpa using Ne.symm hfirst.1), ih hfirst.2,
        List.modifyHead_modifyHead]
      rfl

/-- The resolved path of a URL under `WEB_ROOT`. -/
theorem resolve_webRoot (url : Bytes) {first : Bytes} {rest : List Bytes}
    (hurl : url.splitOn slash = first :: rest) :
    resolve [] (pathSteps (webRoot ++ url)) =
      resolve [lit "home", lit "ubuntu", lit "web_root" ++ first]
        (rest.map pathStep) := by
  have hroot : webRoot ++ url =
      lit "/home/ubuntu" ++ slash :: (lit "web_root" ++ url) := by
    have hsplit : webRoot = lit "/home/ubuntu" ++ slash :: lit "web_root" := by
      decide
    simp [hsplit]
  have hname : slash ∉ lit "web_root" := by decide
  have hsteps : ((lit "/home/ubuntu").splitOn slash).map pathStep =
      [.stay, .down (lit "home"), .down (lit "ubuntu")] := by
    decide
  have hdown : pathStep (lit "web_root" ++ first) =
      .down (lit "web_root" ++ first) := by
    have hhead : (lit "web_root" ++ first).head? = some 119 := rfl
    rw [pathStep, if_neg, if_neg]
    · intro hdots
      rw [hdots] at hhead
      exact absurd hhead (by decide)
    · rintro (hnil | hdot)
      · rw [hnil] at hhead
        cases hhead
      · rw [hdot] at hhead
        exact absurd hhead (by decide)
  rw [pathSteps, hroot, List.splitOn_append_cons_self,
    splitOn_append_of_notMem hname, hurl, List.modifyHead_cons,
    List.map_append, hsteps, List.map_cons, hdown]
  rfl

/-- Exactly the confined URLs stay in `WEB_ROOT`. -/
theorem inWebRoot_iff_confined (url : Bytes) :
    InWebRoot (webRoot ++ url) ↔ Confined url := by
  obtain ⟨first, rest, hurl⟩ :=
    List.exists_cons_of_ne_nil (List.splitOn_ne_nil slash url)
  have hsteps : urlSteps url = rest.map pathStep := by
    rw [urlSteps, hurl, List.tail_cons]
  rw [InWebRoot, resolve_webRoot url hurl, resolve_eq, Confined, hurl,
    ← hsteps, ← prefix_take_append_iff]
  generalize (reduce (urlSteps url)).1 = ups
  generalize (reduce (urlSteps url)).2 = names
  cases ups with
  | zero =>
      simp only [Nat.sub_zero, List.take_length, List.head?_cons,
        Option.some.injEq, List.prefix_append, and_true]
      constructor
      · intro hfront
        have hname : lit "web_root" = lit "web_root" ++ first := by
          simpa [rootNames, List.cons_prefix_cons] using hfront
        exact Or.inl (List.self_eq_append_right.mp hname)
      · rintro (rfl | hclimbed)
        · rw [List.append_nil]
          exact List.prefix_append _ _
        · omega
  | succ ups =>
      -- the name that was extended has been climbed over
      have hshort : 3 - (ups + 1) = 0 ∨ 3 - (ups + 1) = 1 ∨
          3 - (ups + 1) = 2 := by omega
      have hsame : [lit "home", lit "ubuntu", lit "web_root" ++ first].take
          (3 - (ups + 1)) = rootNames.take (3 - (ups + 1)) := by
        rcases hshort with heq | heq | heq <;> rw [heq] <;> rfl
      have hone : 1 ≤ ups + 1 := by omega
      have hlength : rootNames.length = 3 := rfl
      rw [hlength, ← hsame]
      simp [hone]

/-! ### The path of a request line -/

/-- The text of a request line that becomes the URL. -/
def requestPath (line : Bytes) : Option Bytes :=
  (cut space line).bind fun first =>
    (cut space first.2).map fun second =>
      match cut question second.1 with
      | none => second.1
      | some (path, _) => path

theorem targetText_url {target version url : Bytes} {query : Option Bytes}
    {pairs : List (Bytes × Bytes)}
    (htext : targetText target version = some (url, query, pairs)) :
    urlDecode (match cut question target with
      | none => target
      | some (path, _) => path) = .ok url := by
  rw [targetText] at htext
  cases hcut : cut question target with
  | none =>
      simp only [hcut] at htext
      split at htext
      · cases htext
      · simp only [Option.map_eq_some_iff, toOption_eq_some_iff,
          Prod.mk.injEq] at htext
        obtain ⟨decoded, hdecoded, rfl, _⟩ := htext
        exact hdecoded
  | some parts =>
      simp only [hcut, Option.bind_eq_some_iff, Option.map_eq_some_iff,
        toOption_eq_some_iff, Prod.mk.injEq] at htext
      obtain ⟨decoded, hdecoded, _, _, _, _, rfl, _⟩ := htext
      exact hdecoded

theorem requestLineText_url {line : Bytes} {text : RequestLine}
    (htext : requestLineText line = some text) :
    ∃ path, requestPath line = some path ∧
      urlDecode path = .ok text.url := by
  simp only [requestLineText, Option.bind_eq_some_iff] at htext
  obtain ⟨first, hfirst, second, hsecond, htext⟩ := htext
  split at htext
  · cases htext
  · simp only [Option.bind_eq_some_iff, Option.map_eq_some_iff] at htext
    obtain ⟨⟨url, query, pairs⟩, htarget, version, _, rfl⟩ := htext
    refine ⟨_, ?_, targetText_url htarget⟩
    simp [requestPath, hfirst, hsecond]

/-- A decoded text has no NUL, so `open` sees the whole of it. -/
theorem zero_notMem_urlDecode {text url : Bytes}
    (hurl : urlDecode text = .ok url) : 0 ∉ url := by
  rw [urlDecode] at hurl
  cases hloop : urlDecodeLoop (text.take (intBound text.length)) with
  | error cause =>
      rw [hloop] at hurl
      cases hurl
  | ok decoded =>
      rw [hloop] at hurl
      cases hurl
      exact zero_notMem_cString decoded

/-- Of an accepted request line, the file that `createResponse` opens is in
`WEB_ROOT` exactly when the decoded path is confined. -/
theorem opened_inWebRoot_iff (c next : HttpConn) (line rest : Bytes)
    (hqueue : c.queue = line ++ cr :: lf :: rest) (hline : cr ∉ line)
    (haccept : parseRequestLine c = (next, .accept)) :
    InWebRoot (openedPath next.request) ↔
      ∃ path url, requestPath line = some path ∧
        urlDecode path = .ok url ∧ Confined url := by
  rw [parseRequestLine_eq c hqueue hline, onAccept_accept_iff] at haccept
  obtain ⟨stored, hread, hnext⟩ := haccept
  cases hnext
  obtain ⟨text, htext, rfl⟩ :=
    (readRequestLine_accept_iff line c.request stored).mp hread
  obtain ⟨path, hpath, hurl⟩ := requestLineText_url htext
  have hstored : (text.store c.request).url = text.url := by
    rw [RequestLine.store, HttpRequest.setParams_eq]
  have hroot : 0 ∉ webRoot := by decide
  have hwhole : 0 ∉ webRoot ++ text.url := by
    rw [List.mem_append, not_or]
    exact ⟨hroot, zero_notMem_urlDecode hurl⟩
  rw [openedPath, completeUrl, hstored, cString_eq_self hwhole,
    inWebRoot_iff_confined]
  constructor
  · intro hconfined
    exact ⟨path, text.url, hpath, hurl, hconfined⟩
  · rintro ⟨other, url, hother, hdecoded, hconfined⟩
    rw [hpath] at hother
    cases hother
    rw [hurl] at hdecoded
    cases hdecoded
    exact hconfined

theorem opened_inWebRoot_iff_page :
    ∃ next, parseRequestLine (HttpConn.init.deliver
        (lit "GET /a.html HTTP/1.1\r\n")) = (next, .accept) ∧
      (InWebRoot (openedPath next.request) ↔
        ∃ path url, requestPath (lit "GET /a.html HTTP/1.1") = some path ∧
          urlDecode path = .ok url ∧ Confined url) := by
  have hverdict : (parseRequestLine (HttpConn.init.deliver
      (lit "GET /a.html HTTP/1.1\r\n"))).2 = .accept := by
    decide +kernel
  rcases hparse : parseRequestLine (HttpConn.init.deliver
    (lit "GET /a.html HTTP/1.1\r\n")) with ⟨next, verdict⟩
  rw [hparse] at hverdict
  cases hverdict
  exact ⟨next, rfl, opened_inWebRoot_iff _ next
    (lit "GET /a.html HTTP/1.1") [] (by decide) (by decide) hparse⟩

instance (path : Bytes) : Decidable (InWebRoot path) :=
  inferInstanceAs (Decidable (_ <+: _))

/-- An accepted request line that leads out of `WEB_ROOT`. -/
theorem dotdot_leaves_webRoot :
    (parseRequestLine (HttpConn.init.deliver
        (lit "GET /../secret HTTP/1.1\r\n"))).2 = .accept ∧
      ¬ InWebRoot (openedPath (parseRequestLine (HttpConn.init.deliver
        (lit "GET /../secret HTTP/1.1\r\n"))).1.request) := by
  constructor
  · decide +kernel
  · decide +kernel

end Sone

end LinuxTest
