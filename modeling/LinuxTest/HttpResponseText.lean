/-
Reading a response back.  What `HttpResponse::toString` writes is cut at its
first line break and then line by line up to the first empty line; that gives
the status, one line for each header that was set, and the content.
-/
import LinuxTest.HttpResponseForm
import LinuxTest.TextLines

namespace LinuxTest

namespace Sone

/-! ### A reader of responses -/

/-- The status codes of the responses. -/
def statusCodes : List (Bytes × HttpRespState) :=
  [(lit "100", .goOn), (lit "200", .ok), (lit "304", .notModified),
    (lit "404", .notFound), (lit "400", .badRequest),
    (lit "403", .forbidden), (lit "500", .internalServerError),
    (lit "505", .httpVersionNotSupported)]

/-- The version and the status that a status line gives. -/
def readStatusLine (line : Bytes) : Option (HttpVersion × HttpRespState) :=
  (cut space line).bind fun parts =>
    (namedVersion parts.1).bind fun version =>
      (statusCodes.find? fun entry => entry.1 = parts.2.take 3).map
        fun entry => (version, entry.2)

/-- A response as its reader sees it. -/
structure ResponseText where
  version : HttpVersion
  state : HttpRespState
  headerLines : List Bytes
  content : Bytes
deriving DecidableEq, Repr

def readResponse (text : Bytes) : Option ResponseText :=
  (cutPair cr lf text).bind fun parts =>
    (readStatusLine parts.1).bind fun status =>
      (cutLines cr lf (parts.2.length + 1) parts.2).map fun lines =>
        ⟨status.1, status.2, lines.1, lines.2⟩

/-! ### Responses built by `setHeader` -/

/-- The calls of `setHeader`, one after another. -/
def HttpResponse.setHeaders (resp : HttpResponse)
    (calls : List (Bytes × Bytes)) : HttpResponse :=
  calls.foldl (fun resp call => resp.setHeader call.1 call.2) resp

/-- A response with its version, status and content set, and the headers that
the calls set. -/
def HttpResponse.build (version : HttpVersion) (state : HttpRespState)
    (calls : List (Bytes × Bytes)) (content : Bytes) : HttpResponse :=
  HttpResponse.setHeaders ⟨state, version, .empty, content⟩ calls

/-- The value of the last call for a header. -/
def lastSet (calls : List (Bytes × Bytes)) (header : HttpHeader) :
    Option Bytes :=
  (calls.reverse.find? fun call => findHeader call.1 = some header).map
    Prod.snd

/-- The line of a header: its own name, a colon, a space and the value. -/
def headerLine (field : HttpHeader × Bytes) : Bytes :=
  convertHeaderToString field.1 ++ lit ": " ++ field.2

theorem lastSet_concat (calls : List (Bytes × Bytes)) (call : Bytes × Bytes)
    (header : HttpHeader) :
    lastSet (calls ++ [call]) header =
      if findHeader call.1 = some header then some call.2
      else lastSet calls header := by
  rw [lastSet, List.reverse_append, List.reverse_singleton,
    List.singleton_append, List.find?_cons]
  by_cases hcall : findHeader call.1 = some header
  · simp [hcall]
  · simp [hcall, lastSet]

theorem findHeader_known {key : Bytes} {header : HttpHeader}
    (hfind : findHeader key = some header) : header ≠ .unknow := by
  rintro rfl
  exact absurd (List.mem_of_find?_eq_some hfind) (by decide)

namespace HttpResponse

theorem setHeaders_concat (resp : HttpResponse)
    (calls : List (Bytes × Bytes)) (call : Bytes × Bytes) :
    resp.setHeaders (calls ++ [call]) =
      (resp.setHeaders calls).setHeader call.1 call.2 := by
  simp [setHeaders]

/-- Only the headers change. -/
theorem setHeaders_frame (resp : HttpResponse)
    (calls : List (Bytes × Bytes)) :
    (resp.setHeaders calls).version = resp.version ∧
      (resp.setHeaders calls).state = resp.state ∧
      (resp.setHeaders calls).content = resp.content := by
  induction calls using List.reverseRecOn with
  | nil => exact ⟨rfl, rfl, rfl⟩
  | append_singleton calls call ih =>
      rw [setHeaders_concat]
      simpa using ih

/-- A header holds the value of the last call for it. -/
theorem find?_build (version : HttpVersion) (state : HttpRespState)
    (calls : List (Bytes × Bytes)) (content : Bytes) {header : HttpHeader}
    (hknown : header ≠ .unknow) :
    (build version state calls content).headers.find?
      (convertHeaderToString header) = lastSet calls header := by
  induction calls using List.reverseRecOn with
  | nil => rfl
  | append_singleton calls call ih =>
      rw [build] at ih ⊢
      rw [setHeaders_concat, lastSet_concat, setHeader]
      cases hfind : findHeader call.1 with
      | none => simpa using ih
      | some other =>
          have hrank : caseKey (convertHeaderToString header) =
              caseKey (convertHeaderToString other) ↔ other = header :=
            ⟨fun hrank => (convertHeaderToString_rank_inj hknown
              (findHeader_known hfind) hrank).symm, fun h => by rw [h]⟩
          simp only [OrderedMap.find?_insert, hrank, ih, Option.some.injEq]

/-- Every entry stands under the canonical spelling of a header. -/
theorem build_names (version : HttpVersion) (state : HttpRespState)
    (calls : List (Bytes × Bytes)) (content : Bytes) :
    ∀ entry ∈ (build version state calls content).headers.entries,
      ∃ header, header ≠ .unknow ∧
        entry.1 = convertHeaderToString header := by
  induction calls using List.reverseRecOn with
  | nil => intro entry hentry; cases hentry
  | append_singleton calls call ih =>
      rw [build] at ih ⊢
      rw [setHeaders_concat, setHeader]
      cases hfind : findHeader call.1 with
      | none => exact ih
      | some header =>
          apply OrderedMap.forall_insert _ _ _ ih
          · exact ⟨header, findHeader_known hfind, rfl⟩
          · intro entry hentry _
            exact ih entry hentry

/-- Entries under canonical spellings are fields of the table. -/
theorem exists_fields {entries : List (Bytes × Bytes)}
    (hnames : ∀ entry ∈ entries, ∃ header, header ≠ .unknow ∧
      entry.1 = convertHeaderToString header) :
    ∃ fields : List (HttpHeader × Bytes),
      entries = fields.map (fun field =>
        (convertHeaderToString field.1, field.2)) ∧
      ∀ field ∈ fields, field.1 ≠ .unknow := by
  induction entries with
  | nil => exact ⟨[], rfl, by simp⟩
  | cons entry entries ih =>
      rw [List.forall_mem_cons] at hnames
      obtain ⟨⟨header, hheader, hname⟩, hnames⟩ := hnames
      obtain ⟨fields, rfl, hfields⟩ := ih hnames
      refine ⟨(header, entry.2) :: fields, by simp [← hname], ?_⟩
      exact List.forall_mem_cons.mpr ⟨hheader, hfields⟩

/-- The entries are one field for each header set, with its last value. -/
theorem build_fields (version : HttpVersion) (state : HttpRespState)
    (calls : List (Bytes × Bytes)) (content : Bytes) :
    ∃ fields : List (HttpHeader × Bytes),
      (build version state calls content).headers.entries =
        fields.map (fun field =>
          (convertHeaderToString field.1, field.2)) ∧
      (fields.map Prod.fst).Nodup ∧
      ∀ header val, (header, val) ∈ fields ↔
        lastSet calls header = some val := by
  have hnames := build_names version state calls content
  have hfind (header : HttpHeader) (hknown : header ≠ .unknow) :=
    find?_build version state calls content hknown
  generalize (build version state calls content).headers = headers at *
  obtain ⟨fields, hentries, hknown⟩ := exists_fields hnames
  have hmem {header : HttpHeader} {val : Bytes}
      (hfield : (header, val) ∈ fields) :
      (convertHeaderToString header, val) ∈ headers.entries := by
    rw [hentries]
    exact List.mem_map.mpr ⟨_, hfield, rfl⟩
  refine ⟨fields, hentries, ?_, fun header val => ⟨?_, ?_⟩⟩
  · have hsorted := headers.sorted
    rw [hentries, List.pairwise_map] at hsorted
    rw [List.Nodup, List.pairwise_map]
    refine hsorted.imp fun {first last} hlt heq => ?_
    rw [heq] at hlt
    exact lt_irrefl _ hlt
  · intro hfield
    rw [← hfind header (hknown _ hfield)]
    exact headers.find?_of_mem (hmem hfield)
  · intro hlast
    have hheader : header ≠ .unknow := by
      obtain ⟨call, hcall, _⟩ := Option.map_eq_some_iff.mp hlast
      exact findHeader_known (by simpa using List.find?_some hcall)
    rw [← hfind header hheader] at hlast
    obtain ⟨own, hrank, hentry⟩ := headers.mem_of_find? hlast
    rw [hentries] at hentry
    obtain ⟨field, hfield, heq⟩ := List.mem_map.mp hentry
    obtain ⟨rfl, rfl⟩ := Prod.mk.inj heq
    rwa [← convertHeaderToString_rank_inj (hknown field hfield) hheader
      hrank]

end HttpResponse

/-! ### The round trip -/

theorem noBreak_of_lastSet {calls : List (Bytes × Bytes)}
    (hcalls : ∀ call ∈ calls, NoBreak call.2) {header : HttpHeader}
    {val : Bytes} (hlast : lastSet calls header = some val) :
    NoBreak val := by
  obtain ⟨call, hcall, rfl⟩ := Option.map_eq_some_iff.mp hlast
  exact hcalls call (List.mem_reverse.mp (List.mem_of_find?_eq_some hcall))

/-- The status line, read back. -/
theorem readStatusLine_text {version : HttpVersion} {state : HttpRespState}
    (hversion : version ≠ .unknow) (hstate : state ≠ .unknow) :
    ∃ line, HttpResponse.versionText version ++
        HttpResponse.statusText state = line ++ [cr, lf] ∧
      cr ∉ line ∧ readStatusLine line = some (version, state) := by
  refine ⟨(HttpResponse.versionText version ++
    HttpResponse.statusText state).dropLast.dropLast, ?_⟩
  cases version with
  | unknow => exact absurd rfl hversion
  | http10 => cases state <;> first | exact absurd rfl hstate | decide +kernel
  | http11 => cases state <;> first | exact absurd rfl hstate | decide +kernel

theorem headerLine_line (field : HttpHeader × Bytes)
    (hval : NoBreak field.2) :
    cr ∉ headerLine field ∧ headerLine field ≠ [] := by
  obtain ⟨hne, hname, _⟩ := fieldName_convertHeaderToString field.1
  have hcolon : NoBreak (lit ": ") := by decide
  constructor
  · exact (noBreak_append.mpr ⟨noBreak_append.mpr ⟨hname, hcolon⟩, hval⟩).1
  · simp [headerLine, hne]

/-- What `toString` writes is read back as it was set: the version and the
status, one line for each header set with the value set last, and the content,
whatever bytes it holds. -/
theorem readResponse_toBytes (version : HttpVersion)
    (hversion : version ≠ .unknow) (state : HttpRespState)
    (hstate : state ≠ .unknow) (calls : List (Bytes × Bytes))
    (hcalls : ∀ call ∈ calls, NoBreak call.2) (content : Bytes) :
    ∃ fields : List (HttpHeader × Bytes),
      readResponse
          (HttpResponse.build version state calls content).toBytes =
        some ⟨version, state, fields.map headerLine, content⟩ ∧
      (fields.map Prod.fst).Nodup ∧
      ∀ header val, (header, val) ∈ fields ↔
        lastSet calls header = some val := by
  obtain ⟨fields, hentries, hnodup, hfields⟩ :=
    HttpResponse.build_fields version state calls content
  obtain ⟨line, hstatus, hline, hread⟩ :=
    readStatusLine_text hversion hstate
  refine ⟨fields, ?_, hnodup, hfields⟩
  have hlines : ∀ line ∈ fields.map headerLine, cr ∉ line ∧ line ≠ [] := by
    rw [List.forall_mem_map]
    intro field hfield
    exact headerLine_line field
      (noBreak_of_lastSet hcalls ((hfields _ _).mp hfield))
  have htext : (HttpResponse.build version state calls content).toBytes =
      line ++ cr :: lf :: ((fields.map headerLine).flatMap
        (fun line => line ++ [cr, lf]) ++ cr :: lf :: content) := by
    obtain ⟨hversion', hstate', hcontent⟩ := HttpResponse.setHeaders_frame
      ⟨state, version, .empty, content⟩ calls
    rw [HttpResponse.toBytes, hentries, HttpResponse.build, hversion',
      hstate', hcontent, hstatus, List.flatMap_map, List.flatMap_map]
    simp [headerLine, lit, cr, lf]
  rw [htext, readResponse, cutPair_line hline, Option.bind_some, hread,
    Option.bind_some, cutLines_lines hlines content]
  · rfl
  · simp only [List.length_append, List.length_cons]
    have hle : (fields.map headerLine).length ≤ ((fields.map
        headerLine).flatMap (fun line => line ++ [cr, lf])).length :=
      length_le_lines cr lf _
    omega

/-- A body with an empty line in it, and a header set twice. -/
theorem readResponse_toBytes_twice :
    ∃ fields : List (HttpHeader × Bytes),
      readResponse (HttpResponse.build .http11 .ok
          [(lit "content-type", lit "a"), (lit "Content-Type", lit "b")]
          (lit "x\r\n\r\ny")).toBytes =
        some ⟨.http11, .ok, fields.map headerLine, lit "x\r\n\r\ny"⟩ ∧
      (fields.map Prod.fst).Nodup ∧
      ∀ header val, (header, val) ∈ fields ↔
        lastSet [(lit "content-type", lit "a"),
          (lit "Content-Type", lit "b")] header = some val :=
  readResponse_toBytes .http11 (by decide) .ok (by decide) _ (by decide) _

end Sone

end LinuxTest
