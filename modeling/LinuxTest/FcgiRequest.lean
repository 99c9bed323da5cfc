/-
The request stream that the application receives: which bodies reach it as
they are.
-/
import LinuxTest.FcgiConnection

namespace LinuxTest

namespace Sone

namespace FcgiConnection

theorem byteB1_eq (n : Nat) : byteB1 n = highByte n := by
  apply UInt8.toNat_inj.mp
  have hmask : (n >>> 8) &&& 0xff = n / 256 % 256 := by
    rw [Nat.shiftRight_eq_div_pow]
    exact Nat.and_two_pow_sub_one_eq_mod _ 8
  simp [byteB1, highByte, hmask]

theorem byteB0_eq (n : Nat) : byteB0 n = lowByte n := by
  have hmask : n &&& 0xff = n % 256 := Nat.and_two_pow_sub_one_eq_mod n 8
  rw [byteB0, lowByte, hmask]

/-- A record without padding, as this side writes them. -/
def record (id : Nat) (hid : id < 65536) (type : UInt8) (content : Bytes)
    (hcontent : content.length < 65536) : FcgiRecord :=
  ⟨FCGI_VERSION_1, type, id, content, [], 0, hid, hcontent, Nat.zero_lt_succ _⟩

theorem header_bytes {c : FcgiConnection} {id : Nat} (hid : id < 65536)
    (hc : c.requestId = id) (type : UInt8) {content : Bytes}
    (hcontent : content.length < 65536) :
    (c.header type content.length).bytes ++ content =
      (record id hid type content hcontent).encode := by
  subst hc
  simp [header, FCGI_Header.bytes, record, FcgiRecord.encode,
    FcgiRecord.header, byteB1_eq, byteB0_eq]

theorem header_bytes_empty {id : Nat} (hid : id < 65536) (type : UInt8) :
    ((init id).header type 0).bytes =
      (record id hid type [] (by decide)).encode := by
  rw [← @header_bytes (init id) id hid rfl, List.append_nil]
  rfl

/-- The highest of four length bytes carries the mark and seven bits. -/
theorem highest_lengthByte {n : Nat} (hn : n < 2 ^ 31) :
    (UInt8.ofNat ((n >>> 24) ||| 0x80)).toNat = n / 16777216 + 128 := by
  have hshift : n >>> 24 = n / 16777216 := Nat.shiftRight_eq_div_pow n 24
  have hor : n / 16777216 ||| 128 = n / 16777216 + 128 := by
    have hadd := Nat.shiftLeft_add_eq_or_of_lt
      (show n / 16777216 < 2 ^ 7 by omega) 1
    rw [Nat.or_comm]
    exact hadd.symm.trans (Nat.add_comm 128 _)
  rw [UInt8.toNat_ofNat', hshift, hor]
  omega

/-- A length is read back, whether it takes one byte or four. -/
theorem readLength_lengthBytes {n : Nat} (hn : n < 2 ^ 31) (rest : Bytes) :
    readLength (lengthBytes n ++ rest) = some (n, rest) := by
  rw [lengthBytes]
  split
  · case isTrue hsmall =>
      have hbyte : (UInt8.ofNat n).toNat = n := by
        rw [UInt8.toNat_ofNat']
        exact Nat.mod_eq_of_lt (by omega)
      simp only [List.cons_append, List.nil_append, readLength, hbyte, hsmall,
        ↓reduceIte]
  · case isFalse hlarge =>
      have hvalue : (n / 16777216 + 128) % 128 * 16777216 +
          n / 65536 % 256 * 65536 + n / 256 % 256 * 256 + n % 256 = n := by
        omega
      simp only [List.cons_append, List.nil_append, readLength]
      rw [highest_lengthByte hn, if_neg (by omega)]
      simp only [UInt8.toNat_ofNat', Nat.reducePow,
        Nat.shiftRight_eq_div_pow, hvalue]

theorem readPair_makeValueBody {key value : Bytes}
    (hkey : key.length < 2 ^ 31) (hvalue : value.length < 2 ^ 31)
    (rest : Bytes) :
    readPair (makeValueBody key value ++ rest) =
      some ((key, value), rest) := by
  have hbytes : makeValueBody key value ++ rest = lengthBytes key.length ++
      (lengthBytes value.length ++ (key ++ (value ++ rest))) := by
    simp only [makeValueBody, List.append_assoc]
  rw [hbytes]
  apply readPair_eq (readLength_lengthBytes hkey _)
  exact readLength_lengthBytes hvalue _

theorem length_makeValueBody (key value : Bytes) :
    (makeValueBody key value).length = (lengthBytes key.length).length +
      (lengthBytes value.length).length + key.length + value.length := by
  simp only [makeValueBody, List.length_append]

/-- Bodies of `makeValueBody` one after another are read back as the pairs they
were made from, and each `*bodylen` is the length of its body. -/
theorem readPairs_makeValueBody (pairs : List (Bytes × Bytes))
    (hlengths : ∀ pair ∈ pairs, pair.1.length < 2 ^ 31 ∧
      pair.2.length < 2 ^ 31)
    (hbodies : ∀ pair ∈ pairs,
      (makeValueBody pair.1 pair.2).length < 2 ^ 31) :
    readPairs (pairs.flatMap fun pair => makeValueBody pair.1 pair.2) =
        some pairs ∧
      ∀ pair ∈ pairs, bodylen pair.1 pair.2 =
        (makeValueBody pair.1 pair.2).length := by
  constructor
  · apply readPairs_flatMap
    intro pair hpair rest
    obtain ⟨hkey, hvalue⟩ := hlengths pair hpair
    exact readPair_makeValueBody hkey hvalue rest
  · intro pair hpair
    have hlt := hbodies pair hpair
    exact asInt_of_lt _ (by omega) (by omega)

/-- A value on each side of the change to four bytes. -/
theorem readPairs_makeValueBody_long :
    readPairs ([(lit "A", List.replicate 127 98),
          (lit "", List.replicate 128 98)].flatMap
        fun pair => makeValueBody pair.1 pair.2) =
        some [(lit "A", List.replicate 127 98),
          (lit "", List.replicate 128 98)] ∧
      ∀ pair ∈ [(lit "A", List.replicate 127 98),
          (lit "", List.replicate 128 98)],
        bodylen pair.1 pair.2 = (makeValueBody pair.1 pair.2).length :=
  readPairs_makeValueBody _ (by decide +kernel) (by decide +kernel)

/-- The records of a request by the FastCGI rule, with the STDIN stream only
where there is a body to send. -/
structure IsRequest (id : Nat) (params : List (Bytes × Bytes)) (post : Bool)
    (body : Bytes) (records : List FcgiRecord) : Prop where
  ids : ∀ r ∈ records, r.id = id
  streams : ∃ first settings close input,
    records = first :: settings ++ close :: input ∧
    first.type = FCGI_BEGIN_REQUEST ∧
    (∃ flags reserved, first.content = 0 :: 1 :: flags :: reserved ∧
      reserved.length = 5) ∧
    (∀ r ∈ settings, r.type = FCGI_PARAMS) ∧
    readPairs (settings.flatMap FcgiRecord.content) = some params ∧
    close.type = FCGI_PARAMS ∧ close.content = [] ∧
    (post = false → input = []) ∧
    (post = true → ∃ parts last, input = parts ++ [last] ∧
      (∀ r ∈ parts, r.type = FCGI_STDIN) ∧
      parts.flatMap FcgiRecord.content = body ∧
      last.type = FCGI_STDIN ∧ last.content = [])

/-- What was written is the request, and nothing is left behind. -/
def Delivers (id : Nat) (params : List (Bytes × Bytes)) (post : Bool)
    (body : Bytes) : Prop :=
  ∃ c records, sendRequest id params post body = some c ∧
    c.output_buffer = [] ∧ FcgiRecord.split c.written = some records ∧
    IsRequest id params post body records

/-- Every pair fits the buffer of `sendParams`. -/
def Fit (params : List (Bytes × Bytes)) : Prop :=
  ∀ param ∈ params, (makeValueBody param.1 param.2).length ≤ BUFSIZE

/-- The records of `sendParams`, one per parameter. -/
theorem sendAllParams_eq {id : Nat} (hid : id < 65536)
    {params : List (Bytes × Bytes)} (hfit : Fit params)
    {c : FcgiConnection} (hc : c.requestId = id) :
    ∃ settings : List FcgiRecord, c.sendAllParams params =
        some (c.append (settings.flatMap FcgiRecord.encode)) ∧
      (∀ r ∈ settings, r.type = FCGI_PARAMS ∧ r.id = id) ∧
      settings.flatMap FcgiRecord.content =
        params.flatMap fun param => makeValueBody param.1 param.2 := by
  induction params generalizing c with
  | nil =>
      refine ⟨[], ?_, ?_, rfl⟩
      · simp [sendAllParams, append]
      · intro r hr
        cases hr
  | cons param rest ih =>
      have hlength := hfit param List.mem_cons_self
      have hrest : Fit rest := fun other hother =>
        hfit other (List.mem_cons_of_mem param hother)
      have hcontent : (makeValueBody param.1 param.2).length < 65536 :=
        lt_of_le_of_lt hlength (by decide)
      let r := record id hid FCGI_PARAMS _ hcontent
      have hsend : c.sendParams param.1 param.2 = some (c.append r.encode) := by
        rw [sendParams, if_pos hlength, ← header_bytes hid hc]
        simp [append]
      obtain ⟨settings, hsettings, hkinds, hcontents⟩ :=
        @ih hrest (c.append r.encode) hc
      refine ⟨r :: settings, ?_, ?_, ?_⟩
      · rw [sendAllParams, hsend, Option.bind_some, hsettings]
        simp [append]
      · intro other hother
        rcases List.mem_cons.mp hother with rfl | hother
        · exact ⟨rfl, rfl⟩
        · exact hkinds other hother
      · rw [List.flatMap_cons, List.flatMap_cons, hcontents]
        rfl

/-- What follows the parameters. -/
def inputBytes (id : Nat) (post : Bool) (body : Bytes) : Bytes :=
  if post then
    ((init id).header FCGI_STDIN body.length).bytes ++ body ++
      ((init id).header FCGI_STDIN 0).bytes
  else []

theorem sendRequest_eq {id : Nat} (hid : id < 65536)
    {params : List (Bytes × Bytes)} (hfit : Fit params)
    (post : Bool) (body : Bytes) :
    ∃ (c : FcgiConnection) (first close : FcgiRecord)
      (settings : List FcgiRecord),
      sendRequest id params post body = some c ∧
      c.output_buffer = [] ∧
      c.written = (first :: settings ++ [close]).flatMap FcgiRecord.encode ++
        inputBytes id post body ∧
      (∀ r ∈ first :: settings ++ [close], r.id = id) ∧
      first.type = FCGI_BEGIN_REQUEST ∧
      first.content = [0, 1, 0, 0, 0, 0, 0, 0] ∧
      (∀ r ∈ settings, r.type = FCGI_PARAMS) ∧
      readPairs (settings.flatMap FcgiRecord.content) = some params ∧
      close.type = FCGI_PARAMS ∧ close.content = [] := by
  let first := record id hid FCGI_BEGIN_REQUEST [0, 1, 0, 0, 0, 0, 0, 0]
    (by decide)
  let close := record id hid FCGI_PARAMS [] (by decide)
  have hbegin : (init id).sendBeginRequest =
      (init id).append first.encode := by
    rw [sendBeginRequest, ← @header_bytes (init id) id hid rfl]
    rfl
  have hclose : ((init id).header FCGI_PARAMS 0).bytes = close.encode :=
    header_bytes_empty hid FCGI_PARAMS
  obtain ⟨settings, hsettings, hkinds, hcontents⟩ :=
    @sendAllParams_eq id hid params hfit ((init id).append first.encode) rfl
  have hpairs : readPairs (settings.flatMap FcgiRecord.content) =
      some params := by
    rw [hcontents]
    apply readPairs_flatMap
    intro param hparam rest
    have hlength := length_makeValueBody param.1 param.2
    have hparam := hfit param hparam
    rw [BUFSIZE] at hparam
    exact readPair_makeValueBody (by omega) (by omega) rest
  refine ⟨⟨id, [], (first :: settings ++ [close]).flatMap FcgiRecord.encode ++
    inputBytes id post body⟩, first, close, settings, ?_, rfl, rfl, ?_, rfl,
    rfl, fun r hr => (hkinds r hr).1, hpairs, rfl, rfl⟩
  · rw [sendRequest, hbegin, hsettings]
    cases post with
    | false =>
        simp [sendEndRequest, append, write, init, header, inputBytes,
          ← hclose]
    | true =>
        simp [sendEndRequest, sendContentHeader, append, write, init, header,
          inputBytes, ← hclose]
  · intro r hr
    simp only [List.cons_append, List.mem_cons, List.mem_append,
      List.not_mem_nil, or_false] at hr
    rcases hr with rfl | hr | rfl
    · rfl
    · exact (hkinds r hr).2
    · rfl

/-- A body that its length field can count arrives. -/
theorem delivers_of_counted {id : Nat} (hid : id < 65536)
    {params : List (Bytes × Bytes)} (hfit : Fit params) {post : Bool}
    {body : Bytes} (hbody : post = true → body.length < 65536) :
    Delivers id params post body := by
  obtain ⟨c, first, close, settings, hsend, hempty, hwritten, hids, hfirst,
    hrole, hkinds, hpairs, hclose, hcloseEmpty⟩ :=
    sendRequest_eq hid hfit post body
  cases post with
  | false =>
      refine ⟨c, first :: settings ++ [close], hsend, hempty, ?_, hids,
        first, settings, close, [], rfl, hfirst,
        ⟨0, [0, 0, 0, 0, 0], hrole, rfl⟩, hkinds, hpairs, hclose,
        hcloseEmpty, fun _ => rfl, ?_⟩
      · rw [FcgiRecord.split_eq_some_iff, hwritten]
        simp [inputBytes]
      · intro hpost
        cases hpost
  | true =>
      let part := record id hid FCGI_STDIN body (hbody rfl)
      let last := record id hid FCGI_STDIN [] (by decide)
      refine ⟨c, first :: settings ++ close :: ([part] ++ [last]), hsend,
        hempty, ?_, ?_, first, settings, close, [part] ++ [last], rfl, hfirst,
        ⟨0, [0, 0, 0, 0, 0], hrole, rfl⟩, hkinds, hpairs, hclose,
        hcloseEmpty, ?_, ?_⟩
      · have hpart := @header_bytes (init id) id hid rfl FCGI_STDIN _
          (hbody rfl)
        rw [FcgiRecord.split_eq_some_iff, hwritten, inputBytes, if_pos rfl,
          hpart, header_bytes_empty hid]
        simp [part, last]
      · intro r hr
        have hcases : r ∈ first :: settings ++ [close] ∨ r = part ∨
            r = last := by
          simp only [List.cons_append, List.mem_cons, List.mem_append,
            List.nil_append, List.not_mem_nil, or_false] at hr ⊢
          tauto
        rcases hcases with hr | rfl | rfl
        · exact hids r hr
        · rfl
        · rfl
      · intro hpost
        cases hpost
      · intro _
        refine ⟨[part], last, rfl, ?_, ?_, rfl, rfl⟩
        · intro r hr
          rw [List.mem_singleton.mp hr]
          rfl
        · simp [part, record]

/-- Where two lists agree and each starts with a run of `p`, what follows the
runs agrees. -/
theorem eq_after_run {A : Type} {p : A → Prop} {run run' rest rest' : List A}
    (heq : run ++ rest = run' ++ rest') (hrun : ∀ a ∈ run, p a)
    (hrun' : ∀ a ∈ run', p a) (hrest : ∀ a, rest.head? = some a → ¬ p a)
    (hrest' : ∀ a, rest'.head? = some a → ¬ p a) : rest = rest' := by
  induction run generalizing run' with
  | nil =>
      cases run' with
      | nil => exact heq
      | cons head tail =>
          have hhead : rest.head? = some head := by
            rw [List.nil_append] at heq
            rw [heq]
            rfl
          exact absurd (hrun' head List.mem_cons_self) (hrest head hhead)
  | cons head tail ih =>
      cases run' with
      | nil =>
          have hhead : rest'.head? = some head := by
            rw [List.nil_append] at heq
            rw [← heq]
            rfl
          exact absurd (hrun head List.mem_cons_self) (hrest' head hhead)
      | cons head' tail' =>
          obtain ⟨rfl, htail⟩ := List.cons.inj heq
          apply ih htail
          · exact fun a ha => hrun a (List.mem_cons_of_mem head ha)
          · exact fun a ha => hrun' a (List.mem_cons_of_mem head ha)

/-- The bytes after the parameters start with the type STDIN. -/
theorem type_of_inputBytes {id : Nat} {body : Bytes}
    {rest : List FcgiRecord}
    (hbytes : inputBytes id true body = rest.flatMap FcgiRecord.encode) :
    ∀ r, rest.head? = some r → r.type = FCGI_STDIN := by
  intro r hr
  cases rest with
  | nil => cases hr
  | cons head tail =>
      cases hr
      rw [List.flatMap_cons, inputBytes, if_pos rfl] at hbytes
      simp only [FcgiRecord.encode, FcgiRecord.header, header,
        FCGI_Header.bytes, List.cons_append, List.cons.injEq] at hbytes
      exact hbytes.2.1.symm

theorem length_flatMap_encode (records : List FcgiRecord) :
    8 * records.length + (records.flatMap FcgiRecord.content).length ≤
      (records.flatMap FcgiRecord.encode).length := by
  induction records with
  | nil => simp
  | cons first rest ih =>
      have hfirst := first.length_encode
      simp only [List.flatMap_cons, List.length_append, List.length_cons]
      omega

/-- The STDIN stream has room for one header beside the closing one, so its one
record has to count the whole body. -/
theorem counted_of_input {id : Nat} {body : Bytes}
    {parts : List FcgiRecord} {last : FcgiRecord}
    (hbytes : inputBytes id true body =
      (parts ++ [last]).flatMap FcgiRecord.encode)
    (hbody : parts.flatMap FcgiRecord.content = body) :
    body.length < 65536 := by
  have hlength := congrArg List.length hbytes
  have hparts := length_flatMap_encode parts
  have hlast := last.length_encode
  have hinput : (inputBytes id true body).length = 16 + body.length := by
    simp [inputBytes, FCGI_Header.bytes]
    omega
  rw [hinput, List.flatMap_append, List.length_append, List.flatMap_cons,
    List.flatMap_nil, List.append_nil] at hlength
  rw [hbody] at hparts
  rcases parts with _ | ⟨part, _ | ⟨second, more⟩⟩
  · rw [← hbody]
    simp
  · rw [← hbody]
    simpa using part.content_lt
  · simp only [List.length_cons] at hparts
    omega

theorem counted_of_delivers {id : Nat} (hid : id < 65536)
    {params : List (Bytes × Bytes)} (hfit : Fit params) {body : Bytes}
    (hdelivers : Delivers id params true body) : body.length < 65536 := by
  obtain ⟨c, first, close, settings, hsend, _, hwritten, _, _, _, hkinds, _,
    hclose, _⟩ := sendRequest_eq hid hfit true body
  obtain ⟨c', records, hsend', _, hsplit, _, hstreams⟩ := hdelivers
  rw [hsend] at hsend'
  cases hsend'
  obtain ⟨first', settings', close', input, rfl, _, _, hkinds', _, hclose', _,
    _, hinput⟩ := hstreams
  obtain ⟨parts, last, rfl, hparts, hbody, hlast, _⟩ := hinput rfl
  rw [FcgiRecord.split_eq_some_iff, hwritten] at hsplit
  obtain ⟨rest, hrest, hbytes⟩ := FcgiRecord.starts_of_flatMap_append hsplit
  have hruns : (settings' ++ [close']) ++ (parts ++ [last]) =
      (settings ++ [close]) ++ rest := by
    have htail := (List.cons.inj hrest).2
    simpa using htail
  have hparams : ∀ {settings : List FcgiRecord} {close : FcgiRecord},
      (∀ r ∈ settings, r.type = FCGI_PARAMS) → close.type = FCGI_PARAMS →
      ∀ r ∈ settings ++ [close], r.type = FCGI_PARAMS := by
    intro settings close hsettings hcloses r hr
    rcases List.mem_append.mp hr with hr | hr
    · exact hsettings r hr
    · rw [List.mem_singleton.mp hr]
      exact hcloses
  have hstdin : ∀ r, (parts ++ [last]).head? = some r →
      r.type = FCGI_STDIN := by
    intro r hr
    rcases List.mem_append.mp (List.mem_of_head? hr) with hr | hr
    · exact hparts r hr
    · rw [List.mem_singleton.mp hr]
      exact hlast
  have hsame : parts ++ [last] = rest := by
    apply eq_after_run hruns (hparams hkinds' hclose')
      (hparams hkinds hclose)
    · intro r hr hparam
      rw [hstdin r hr] at hparam
      exact absurd hparam (by decide)
    · intro r hr hparam
      rw [type_of_inputBytes hbytes r hr] at hparam
      exact absurd hparam (by decide)
  rw [← hsame] at hbytes
  exact counted_of_input hbytes hbody

/-- The application receives the request as it was meant exactly when the body
can be counted in the 16 bits of its record's length. -/
theorem sendRequest_delivers_iff (id : Nat) (hid : id < 65536)
    (params : List (Bytes × Bytes)) (hfit : Fit params) (post : Bool)
    (body : Bytes) :
    Delivers id params post body ↔ (post = true → body.length < 65536) := by
  constructor
  · intro hdelivers hpost
    subst hpost
    exact counted_of_delivers hid hfit hdelivers
  · exact delivers_of_counted hid hfit

/-- Parameters of a request with a body. -/
def methodPost : List (Bytes × Bytes) :=
  [(lit "REQUEST_METHOD", lit "POST")]

theorem fit_methodPost : Fit methodPost := by
  intro param hparam
  rw [List.mem_singleton.mp hparam]
  decide

theorem sendRequest_delivers_short :
    (1 < 65536 ∧ Fit methodPost) ∧
      (Delivers 1 methodPost true (lit "a=1") ↔
        (true = true → (lit "a=1").length < 65536)) :=
  ⟨⟨by decide, fit_methodPost⟩,
    sendRequest_delivers_iff 1 (by decide) methodPost fit_methodPost true
      (lit "a=1")⟩

/-- A body of 65536 bytes: its record is announced as empty. -/
theorem sendRequest_loses_long_body :
    Fit methodPost ∧
      ¬ Delivers 1 methodPost true (List.replicate 65536 97) := by
  refine ⟨fit_methodPost, ?_⟩
  intro hdelivers
  have hlength := counted_of_delivers (by decide) fit_methodPost hdelivers
  rw [List.length_replicate] at hlength
  exact absurd hlength (lt_irrefl 65536)

end FcgiConnection

end Sone

end LinuxTest
