/-
The content type of a response against the extension of the path.
`createResponse` takes the type from the first match of a search over the whole
URL.
-/
import LinuxTest.HttpDescriptors
import LinuxTest.HttpResponseText

namespace LinuxTest

namespace Sone

/-! ### The first match of the search -/

/-- No dot of the text has a letter behind it. -/
def NoType (text : Bytes) : Prop :=
  ∀ front letter back, text = front ++ 46 :: letter :: back →
    ¬ isLetter letter

/-- The first dot of the text with a letter behind it is followed by exactly
these letters. -/
def FirstType (text type : Bytes) : Prop :=
  ∃ before after, text = before ++ 46 :: (type ++ after) ∧ NoType before ∧
    type ≠ [] ∧ (∀ byte ∈ type, isLetter byte) ∧
    ∀ byte, after.head? = some byte → ¬ isLetter byte

theorem takeWhile_isLetter {type after : Bytes}
    (htype : ∀ byte ∈ type, isLetter byte)
    (hafter : ∀ byte, after.head? = some byte → ¬ isLetter byte) :
    (type ++ after).takeWhile isLetter = type := by
  rw [List.takeWhile_append_of_pos htype]
  cases after with
  | nil => simp
  | cons byte after =>
      have hbyte := hafter byte rfl
      simp [hbyte]

/-- A match does not start at the head of a text without types, nor at a dot
right before the first match. -/
theorem extension_skip {c : UInt8} {before : Bytes}
    (hbefore : NoType (c :: before)) (rest : Bytes) :
    extension (c :: (before ++ 46 :: rest)) =
      extension (before ++ 46 :: rest) := by
  rw [extension, if_neg]
  rintro ⟨rfl, hletters⟩
  apply hletters
  cases before with
  | nil => rfl
  | cons letter back =>
      have hletter := hbefore [] letter back rfl
      simp [hletter]

theorem NoType.tail {c : UInt8} {before : Bytes}
    (hbefore : NoType (c :: before)) : NoType before := by
  rintro front letter back rfl
  exact hbefore (c :: front) letter back rfl

/-- What the search finds is the first type. -/
theorem extension_eq_some_iff {text type : Bytes} :
    extension text = some type ↔ FirstType text type := by
  constructor
  · intro hfound
    induction text with
    | nil => cases hfound
    | cons c rest ih =>
        rw [extension] at hfound
        split at hfound
        · case isTrue hmatch =>
            obtain ⟨rfl, hletters⟩ := hmatch
            cases hfound
            refine ⟨[], rest.dropWhile isLetter, ?_, ?_, hletters, ?_, ?_⟩
            · rw [List.takeWhile_append_dropWhile]
              rfl
            · intro front letter back hnil
              simp at hnil
            · intro byte hbyte
              exact List.mem_takeWhile_imp hbyte
            · intro byte hbyte
              have hhead := List.head?_dropWhile_not isLetter rest
              rw [hbyte] at hhead
              simpa using hhead
        · case isFalse hmatch =>
            obtain ⟨before, after, rfl, hbefore, htype⟩ := ih hfound
            refine ⟨c :: before, after, rfl, ?_, htype⟩
            intro front letter back heq hletter
            cases front with
            | nil =>
                obtain ⟨rfl, rfl⟩ := List.cons.inj heq
                exact hmatch ⟨rfl, by simp [hletter]⟩
            | cons _ front =>
                exact hbefore front letter back (List.cons.inj heq).2 hletter
  · rintro ⟨before, after, rfl, hbefore, hne, htype, hafter⟩
    induction before with
    | nil =>
        have htake := takeWhile_isLetter htype hafter
        rw [List.nil_append, extension, htake, if_pos ⟨rfl, hne⟩]
    | cons c before ih =>
        rw [List.cons_append, extension_skip hbefore]
        exact ih hbefore.tail

/-! ### The header -/

/-- The extensions that have a type of their own, with their types. -/
def listedTypes : List (Bytes × Bytes) :=
  [(lit "html", lit "text/html;charset=utf-8"), (lit "png", lit "image/png"),
    (lit "jpg", lit "image/jpeg"), (lit "js", lit "application/javascript"),
    (lit "css", lit "text/css")]

theorem contentType_eq_find (type : Bytes) :
    contentType type = ((listedTypes.find? fun entry =>
      caseKey type = caseKey entry.1).map Prod.snd).getD
        (lit "text/plain") := by
  have hstep (entry : Bytes × Bytes) (rest : List (Bytes × Bytes)) :
      (((entry :: rest).find? fun entry =>
        caseKey type = caseKey entry.1).map Prod.snd).getD
          (lit "text/plain") =
        if caseKey type = caseKey entry.1 then entry.2
        else ((rest.find? fun entry =>
          caseKey type = caseKey entry.1).map Prod.snd).getD
            (lit "text/plain") := by
    by_cases hkey : caseKey type = caseKey entry.1
    · simp [hkey]
    · simp [hkey]
  simp only [contentType, listedTypes, hstep, List.find?_nil,
    Option.map_none, Option.getD_none]

/-- An extension gets a listed type just when it is the one listed for it. -/
theorem contentType_eq_iff {entry : Bytes × Bytes}
    (hentry : entry ∈ listedTypes) (type : Bytes) :
    contentType type = entry.2 ↔ caseKey type = caseKey entry.1 := by
  have hkeys : (listedTypes.map fun entry => caseKey entry.1).Nodup := by
    decide
  have htypes : (listedTypes.map Prod.snd).Nodup := by
    decide
  have hplain : ∀ entry ∈ listedTypes, lit "text/plain" ≠ entry.2 := by
    decide
  rw [contentType_eq_find]
  cases hfind : listedTypes.find? fun entry =>
      caseKey type = caseKey entry.1 with
  | none =>
      have habsent := List.find?_eq_none.mp hfind entry hentry
      simp only [Option.map_none, Option.getD_none, hplain entry hentry,
        false_iff]
      simpa using habsent
  | some found =>
      have hfound := List.mem_of_find?_eq_some hfind
      have hown : caseKey type = caseKey found.1 := by
        simpa using List.find?_some hfind
      rw [Option.map_some, Option.getD_some, hown]
      constructor
      · intro htype
        rw [List.inj_on_of_nodup_map htypes hfound hentry htype]
      · intro hkey
        rw [List.inj_on_of_nodup_map hkeys hfound hentry hkey]

theorem HttpResponse.find?_setHeader (resp : HttpResponse)
    {header other : HttpHeader} (hheader : header ≠ .unknow)
    (hother : other ≠ .unknow) (val : Bytes) :
    (resp.setHeader (convertHeaderToString header) val).headers.find?
        (convertHeaderToString other) =
      if other = header then some val
      else resp.headers.find? (convertHeaderToString other) := by
  rw [setHeader, findHeader_own hheader]
  simp only [OrderedMap.find?_insert]
  by_cases hsame : other = header
  · simp [hsame]
  · rw [if_neg hsame, if_neg]
    exact fun hrank =>
      hsame (convertHeaderToString_rank_inj hother hheader hrank)

/-- The content type of the answer with a file. -/
theorem fileResponse_contentType (w : World) (req : HttpRequest)
    (resp : HttpResponse) {type : Bytes}
    (htype : extension req.url = some type) :
    (fileResponse w req resp).headers.find? (lit "Content-Type") =
      some (contentType type) := by
  have hcontent : (fileResponse w req resp).headers.find?
      (convertHeaderToString .contentType) = some (contentType type) := by
    have hlength : lit "Content-Length" =
        convertHeaderToString .contentLength := by
      rw [convertHeaderToString]
    have hencoding : lit "Content-Encoding" =
        convertHeaderToString .contentEncoding := by
      rw [convertHeaderToString]
    have htypeName : lit "Content-Type" =
        convertHeaderToString .contentType := by
      rw [convertHeaderToString]
    simp only [fileResponse, htype]
    rw [hlength, hencoding, htypeName, HttpResponse.find?_setHeader _
      (by decide) (by decide), if_neg (by decide),
      HttpResponse.find?_setHeader _ (by decide) (by decide),
      if_neg (by decide)]
    dsimp only
    rw [HttpResponse.find?_setHeader _ (by decide) (by decide), if_pos rfl]
  exact hcontent

/-- The content type of an answer that is not 304, by the first extension. -/
theorem createResponse_contentType {w : World} {req : HttpRequest}
    (reqTime : Int) {mtime : Int}
    (hopen : w.openFile (openedPath req) = some mtime)
    (hfresh : ¬ IsNotModified w req mtime) {type : Bytes}
    (htype : extension req.url = some type) :
    (createResponse w req reqTime).headers.find? (lit "Content-Type") =
      some (contentType type) := by
  have hresp : createResponse w req reqTime = fileResponse w req
      (setCacheHeaders w mtime reqTime (commonResponse w req.version)) := by
    rw [IsNotModified] at hfresh
    simp only [createResponse, hopen, Option.isSome_some, true_and,
      Option.getD_some]
    exact if_neg hfresh
  rw [hresp, fileResponse_contentType _ _ _ htype]

theorem extension_isSome (stem : Bytes) {letter : UInt8} {rest : Bytes}
    (hletter : isLetter letter) :
    ∃ type, extension (stem ++ 46 :: letter :: rest) = some type := by
  induction stem with
  | nil =>
      refine ⟨(letter :: rest).takeWhile isLetter, ?_⟩
      rw [List.nil_append, extension, if_pos]
      exact ⟨rfl, by simp [hletter]⟩
  | cons c stem ih =>
      rw [List.cons_append, extension]
      split
      · exact ⟨_, rfl⟩
      · exact ih

/-- A byte that is in lower case a small letter is a letter. -/
theorem isLetter_of_toLower {byte : UInt8}
    (hlower : 97 ≤ toLower byte ∧ toLower byte ≤ 122) : isLetter byte := by
  rw [toLower] at hlower
  rw [isLetter, decide_eq_true_eq]
  split at hlower
  · case isTrue hupper => exact Or.inl hupper
  · exact Or.inr hlower

theorem listedTypes_letters : ∀ entry ∈ listedTypes, entry.1 ≠ [] ∧
    (∀ byte ∈ entry.1, 97 ≤ byte ∧ byte ≤ 122) ∧
    caseKey entry.1 = entry.1.map UInt8.toNat := by
  decide +kernel

/-- An extension that is listed in any letter case starts with a letter and
has the key of the listed one. -/
theorem listed_extension {entry : Bytes × Bytes}
    (hentry : entry ∈ listedTypes) {ext : Bytes}
    (hext : ext.map toLower = entry.1) :
    (∃ letter rest, ext = letter :: rest ∧ isLetter letter) ∧
      caseKey ext = caseKey entry.1 := by
  obtain ⟨hne, hsmall, hkey⟩ := listedTypes_letters entry hentry
  have hletters : ∀ byte ∈ ext, isLetter byte := by
    intro byte hbyte
    apply isLetter_of_toLower
    apply hsmall
    rw [← hext]
    exact List.mem_map_of_mem hbyte
  have hnul : 0 ∉ ext := fun hmem => absurd (hletters 0 hmem) (by decide)
  constructor
  · cases ext with
    | nil => exact absurd hext.symm hne
    | cons letter rest =>
        exact ⟨letter, rest, rfl, hletters letter List.mem_cons_self⟩
  · rw [hkey, ← hext, caseKey, cString_eq_self hnul, List.map_map]
    rfl

/-- For a path that ends in a listed extension, the answer with the file has
the type listed for it exactly when the first dot with a letter behind it is
followed by that extension too. -/
theorem contentType_listed_iff (w : World) (req : HttpRequest)
    (reqTime mtime : Int) (hopen : w.openFile (openedPath req) = some mtime)
    (hfresh : ¬ IsNotModified w req mtime) (entry : Bytes × Bytes)
    (hentry : entry ∈ listedTypes) (stem ext : Bytes)
    (hext : ext.map toLower = entry.1) (hurl : req.url = stem ++ 46 :: ext) :
    (createResponse w req reqTime).headers.find? (lit "Content-Type") =
        some entry.2 ↔
      ∃ type, FirstType req.url type ∧ caseKey type = caseKey ext := by
  obtain ⟨⟨letter, rest, rfl, hletter⟩, hkey⟩ :=
    listed_extension hentry hext
  obtain ⟨type, htype⟩ := @extension_isSome stem letter rest hletter
  rw [← hurl] at htype
  rw [createResponse_contentType reqTime hopen hfresh htype,
    Option.some.injEq, contentType_eq_iff hentry, hkey]
  constructor
  · intro hsame
    exact ⟨type, extension_eq_some_iff.mp htype, hsame⟩
  · rintro ⟨first, hfirst, hsame⟩
    rw [extension_eq_some_iff.mpr hfirst] at htype
    cases htype
    exact hsame

theorem contentType_listed_script :
    (createResponse epochWorld (plainRequest (lit "/a.Js")) 0).headers.find?
        (lit "Content-Type") = some (lit "application/javascript") ↔
      ∃ type, FirstType (lit "/a.Js") type ∧
        caseKey type = caseKey (lit "Js") :=
  contentType_listed_iff epochWorld (plainRequest (lit "/a.Js")) 0 0 rfl
    (plainRequest_modified _ _ _)
    (lit "js", lit "application/javascript") (by decide) (lit "/a")
    (lit "Js") (by decide) (by decide)

/-- A script with another dot in its name is sent as plain text. -/
theorem script_sent_as_text :
    epochWorld.openFile (openedPath (plainRequest (lit "/jquery.min.js"))) =
        some 0 ∧
      (createResponse epochWorld (plainRequest (lit "/jquery.min.js"))
        0).headers.find? (lit "Content-Type") = some (lit "text/plain") ∧
      lit "text/plain" ≠ lit "application/javascript" := by
  refine ⟨rfl, ?_, by decide⟩
  have hfirst : extension (lit "/jquery.min.js") = some (lit "min") := by
    decide
  have htype : contentType (lit "min") = lit "text/plain" := by
    decide +kernel
  rw [← htype]
  exact @createResponse_contentType epochWorld
    (plainRequest (lit "/jquery.min.js")) 0 0 rfl
    (plainRequest_modified _ _ _) _ hfirst

end Sone

end LinuxTest
