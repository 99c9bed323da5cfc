/-
The escape `%%` of log patterns.  `LogFormatter::init` steps over one `%` of it
only, so the other one is read with the text that follows.
-/
import LinuxTest.LogPatternPrint

namespace LinuxTest

namespace Sone

/-! ### Pieces without an error -/

def Known (P : List Piece) : Prop :=
  ∀ piece ∈ P, piece.item.2 = false

theorem Known.of_append {P Q : List Piece} (h : Known (P ++ Q)) :
    Known P ∧ Known Q :=
  List.forall_mem_append.mp h

theorem formatItems_letter {entry : Bytes × (Bytes → FormatItem)}
    (hentry : entry ∈ formatItems) : ∃ d : Directive, entry.1 = d.letter := by
  simp only [formatItems, List.mem_cons, List.not_mem_nil, or_false] at hentry
  rcases hentry with rfl | rfl | rfl | rfl | rfl | rfl | rfl | rfl | rfl |
    rfl | rfl | rfl
  exacts [⟨.message, rfl⟩, ⟨.level, rfl⟩, ⟨.elapse, rfl⟩, ⟨.name, rfl⟩,
    ⟨.threadId, rfl⟩, ⟨.newLine, rfl⟩, ⟨.dateTime, rfl⟩, ⟨.filename, rfl⟩,
    ⟨.line, rfl⟩, ⟨.tab, rfl⟩, ⟨.pId, rfl⟩, ⟨.threadName, rfl⟩]

/-- A directive that is no error has one of the letters of the table. -/
theorem directive_known {name fmt : Bytes}
    (h : (Piece.item ⟨name, fmt, 1⟩).2 = false) :
    ∃ d : Directive, name = d.letter := by
  rw [Piece.item, if_neg Nat.one_ne_zero] at h
  cases hfind : formatItems.find? fun entry => entry.1 = name with
  | none =>
      rw [hfind] at h
      cases h
  | some entry =>
      obtain ⟨d, hd⟩ := formatItems_letter (List.mem_of_find?_eq_some hfind)
      have hname : entry.1 = name := by simpa using List.find?_some hfind
      exact ⟨d, hname.symm.trans hd⟩

theorem Reads.total (text nstr : Bytes) : ∃ P e, Reads text nstr P e := by
  obtain ⟨P, e, h, _⟩ := scanPattern_reads [] text (Nat.le_refl _)
    ⟨0, nstr, [], false⟩ rfl
  exact ⟨P, e, h⟩

/-! ### Rendering -/

/-- The text of the items made from `vec`, where `shown` is that of one
item. -/
def render (shown : FormatItem → Option Bytes) (P : List Piece) :
    Option Bytes :=
  (P.mapM fun piece => shown piece.item.1).map List.flatten

theorem LogFormatter.format_init (m_pattern : Bytes)
    (date : Bytes → UInt64 → Option Bytes) (logger : Bytes)
    (level : LogLevel) (event : LogEvent) :
    (LogFormatter.init m_pattern).format date logger level event =
      render (FormatItem.format date logger level event)
        (LogFormatter.pieces m_pattern).1 := by
  simp [LogFormatter.format, LogFormatter.init, render, List.mapM_map,
    Function.comp_def]

/-- A pattern without an error is read with every brace closed and every name
in the table. -/
theorem LogFormatter.reads_of_noError {m_pattern : Bytes}
    (h : (LogFormatter.init m_pattern).m_error = false) :
    ∃ P, LogFormatter.pieces m_pattern = (P, false) ∧
      Reads m_pattern [] P false ∧ Known P := by
  cases hpieces : LogFormatter.pieces m_pattern with
  | mk P e =>
      simp only [LogFormatter.init, hpieces, Bool.or_eq_false_iff,
        List.any_eq_false, Bool.not_eq_true] at h
      obtain ⟨rfl, hknown⟩ := h
      exact ⟨P, rfl, (LogFormatter.pieces_eq_iff _ _ _).mp hpieces, hknown⟩

section Rendering

variable {shown : FormatItem → Option Bytes}

theorem render_append {P Q : List Piece} {out : Bytes} :
    render shown (P ++ Q) = some out ↔
      ∃ x y, render shown P = some x ∧ render shown Q = some y ∧
        out = x ++ y := by
  simp only [render, List.mapM_append]
  cases P.mapM fun piece => shown piece.item.1 with
  | none => simp
  | some xs =>
      cases Q.mapM fun piece => shown piece.item.1 with
      | none => simp
      | some ys => simp [eq_comm]

theorem render_cons {piece : Piece} {P : List Piece} {out : Bytes} :
    render shown (piece :: P) = some out ↔
      ∃ x y, shown piece.item.1 = some x ∧ render shown P = some y ∧
        out = x ++ y := by
  simp only [render, List.mapM_cons]
  cases shown piece.item.1 with
  | none => simp
  | some x =>
      cases P.mapM fun piece => shown piece.item.1 with
      | none => simp
      | some ys => simp [eq_comm]

theorem render_flush (hstring : ∀ text, shown (.string text) = some text)
    (nstr : Bytes) : render shown (flush nstr) = some nstr := by
  rw [flush]
  split
  · next hnil =>
    rw [hnil]
    rfl
  · simp [render, Piece.item, hstring]

/-- A pending literal stands in front of what the rest renders to. -/
theorem Reads.strip (hstring : ∀ text, shown (.string text) = some text)
    {text pre nstr : Bytes} {P : List Piece}
    (h : Reads text (pre ++ nstr) P false) :
    ∃ Q, Reads text nstr Q false ∧ ∀ out, render shown P = some out →
      ∃ rest, render shown Q = some rest ∧ out = pre ++ rest := by
  generalize hjoin : pre ++ nstr = joined at h
  generalize hfalse : false = e at h
  induction h generalizing nstr with
  | done =>
      subst hjoin
      refine ⟨_, .done nstr, ?_⟩
      intro out hout
      rw [render_flush hstring] at hout
      cases hout
      exact ⟨nstr, render_flush hstring nstr, rfl⟩
  | literal hc _ ih =>
      subst hjoin
      obtain ⟨Q, hreads, hrender⟩ := ih (List.append_assoc _ _ _).symm hfalse
      exact ⟨Q, .literal hc hreads, hrender⟩
  | escape hhead _ ih =>
      subst hjoin
      obtain ⟨Q, hreads, hrender⟩ := ih (List.append_assoc _ _ _).symm hfalse
      exact ⟨Q, .escape hhead hreads, hrender⟩
  | directive hhead hread h =>
      subst hjoin hfalse
      refine ⟨_, .directive hhead hread h, ?_⟩
      intro out hout
      obtain ⟨x, y, hx, hy, rfl⟩ := render_append.mp hout
      rw [render_flush hstring] at hx
      cases hx
      exact ⟨nstr ++ y, render_append.mpr
        ⟨nstr, y, render_flush hstring nstr, hy, rfl⟩,
        List.append_assoc _ _ _⟩
  | unclosed => cases hfalse

theorem Reads.pending (hstring : ∀ text, shown (.string text) = some text)
    {text nstr : Bytes} {P : List Piece} (h : Reads text nstr P false) :
    ∃ Q, Reads text [] Q false ∧ ∀ out, render shown P = some out →
      ∃ rest, render shown Q = some rest ∧ out = nstr ++ rest := by
  rw [← List.append_nil nstr] at h
  exact h.strip hstring

end Rendering

/-! ### Joining texts -/

/-- The parts of the text of a directive. -/
theorem readDirective_parts {text name fmt rest : Bytes}
    (h : readDirective text = some (name, fmt, rest)) :
    (fmt = [] ∧ text = name ++ rest) ∨
      (closeBrace ∉ fmt ∧
        text = name ++ openBrace :: (fmt ++ closeBrace :: rest)) := by
  have hsplit := List.takeWhile_append_dropWhile (p := isNameByte) (l := text)
  rw [readDirective] at h
  split at h
  · cases h
    exact Or.inl ⟨rfl, (List.append_nil _).symm⟩
  · next c tail hdrop =>
    rw [hdrop] at hsplit
    split at h
    · next hopen =>
      obtain ⟨parts, hcut, hparts⟩ := Option.map_eq_some_iff.mp h
      cases hparts
      obtain ⟨htail, hclose⟩ := cut_eq_some_iff.mp hcut
      rw [hopen, htail] at hsplit
      exact Or.inr ⟨hclose, hsplit.symm⟩
    · cases h
      exact Or.inl ⟨rfl, hsplit.symm⟩

/-- A `%` behind a text does not change its directives. -/
theorem readDirective_append {text name fmt rest : Bytes}
    (h : readDirective text = some (name, fmt, rest)) (w : Bytes) :
    readDirective (text ++ percent :: w) =
      some (name, fmt, rest ++ percent :: w) := by
  have hname : ∀ c ∈ text.takeWhile isNameByte, isNameByte c := fun c hc =>
    List.mem_takeWhile_imp hc
  have hsplit := List.takeWhile_append_dropWhile (p := isNameByte) (l := text)
  have hhead := List.head?_dropWhile_not isNameByte text
  rw [readDirective] at h
  split at h
  · next hdrop =>
    cases h
    rw [hdrop, List.append_nil] at hsplit
    rw [hsplit] at hname
    exact readDirective_stop hname (by decide) (by decide) w
  · next c tail hdrop =>
    rw [hdrop] at hsplit hhead
    have hc : ¬ isNameByte c := by simpa using hhead
    have htext : text ++ percent :: w = text.takeWhile isNameByte ++
        c :: (tail ++ percent :: w) := by
      rw [← List.cons_append, ← List.append_assoc, hsplit]
    rw [htext]
    split at h
    · next hopen =>
      obtain ⟨parts, hcut, hparts⟩ := Option.map_eq_some_iff.mp h
      cases hparts
      obtain ⟨rfl, hclose⟩ := cut_eq_some_iff.mp hcut
      rw [hopen, readDirective_brace hname, List.append_assoc,
        List.cons_append, cut_append hclose]
      rfl
    · next hopen =>
      cases h
      exact readDirective_stop hname hc hopen _

/-- Where no name is missing, a text is read the same with a `%` behind it,
and its last literal stays pending. -/
theorem Reads.append {a nstr : Bytes} {P : List Piece}
    (h : Reads a nstr P false) (hknown : Known P) (w : Bytes) :
    ∃ P₀ pend, P = P₀ ++ flush pend ∧
      ∀ Q e, Reads (percent :: w) pend Q e →
        Reads (a ++ percent :: w) nstr (P₀ ++ Q) e := by
  generalize hfalse : false = e at h
  induction h with
  | done nstr => exact ⟨[], nstr, rfl, fun Q e hQ => hQ⟩
  | literal hc _ ih =>
      obtain ⟨P₀, pend, hP, hjoin⟩ := ih hknown hfalse
      exact ⟨P₀, pend, hP, fun Q e hQ => .literal hc (hjoin Q e hQ)⟩
  | @escape rest nstr vec e hhead _ ih =>
      obtain ⟨P₀, pend, hP, hjoin⟩ := ih hknown hfalse
      refine ⟨P₀, pend, hP, fun Q e hQ => .escape ?_ (hjoin Q e hQ)⟩
      cases rest with
      | nil => cases hhead
      | cons c rest => exact hhead
  | @directive rest nstr name fmt after vec e hhead hread _ ih =>
      obtain ⟨hdir, hvec⟩ := List.forall_mem_cons.mp hknown.of_append.2
      obtain ⟨P₀, pend, hP, hjoin⟩ := ih hvec hfalse
      refine ⟨flush nstr ++ ⟨name, fmt, 1⟩ :: P₀, pend, ?_, ?_⟩
      · rw [hP, List.append_assoc, List.cons_append]
      · intro Q e hQ
        rw [List.append_assoc, List.cons_append]
        refine .directive ?_ (readDirective_append hread w) (hjoin Q e hQ)
        cases rest with
        | nil =>
            -- a `%` at the end has no name
            obtain ⟨d, hd⟩ := directive_known hdir
            obtain ⟨c, hc, _⟩ := d.letter_eq
            cases hread
            rw [hc] at hd
            cases hd
        | cons c rest => exact hhead
  | unclosed => cases hfalse

theorem prefix_of_notMem {name rest before after : Bytes}
    (hname : closeBrace ∉ name)
    (h : name ++ rest = before ++ closeBrace :: after) :
    ∃ more, before = name ++ more ∧ rest = more ++ closeBrace :: after := by
  rcases List.append_eq_append_iff.mp h with
    ⟨more, hbefore, hrest⟩ | ⟨more, hmore, hrest⟩
  · exact ⟨more, hbefore, hrest⟩
  · cases more with
    | nil => exact ⟨[], by simp [hmore], hrest.symm⟩
    | cons c more =>
        obtain ⟨rfl, _⟩ := List.cons_eq_cons.mp hrest
        exact absurd (by simp [hmore]) hname

/-- Behind a brace that closes, the text is read from its start. -/
theorem Reads.behind_brace {shown : FormatItem → Option Bytes}
    (hstring : ∀ text, shown (.string text) = some text)
    {text nstr : Bytes} {P : List Piece} (h : Reads text nstr P false)
    (hknown : Known P) {before after : Bytes} (hbefore : closeBrace ∉ before)
    (htext : text = before ++ closeBrace :: after) {out : Bytes}
    (hout : render shown P = some out) :
    ∃ Q mid rest, Reads after [] Q false ∧ render shown Q = some rest ∧
      out = nstr ++ mid ++ rest := by
  generalize hfalse : false = e at h
  induction h generalizing before out with
  | done => simp at htext
  | @literal c rest nstr vec e hc h ih =>
      subst hfalse
      cases before with
      | nil =>
          obtain ⟨rfl, rfl⟩ := List.cons_eq_cons.mp htext
          obtain ⟨Q, hreads, hrender⟩ := h.pending hstring
          obtain ⟨rest, hrest, heq⟩ := hrender out hout
          exact ⟨Q, [closeBrace], rest, hreads, hrest, heq⟩
      | cons first before =>
          obtain ⟨rfl, htail⟩ := List.cons_eq_cons.mp htext
          rw [List.mem_cons, not_or] at hbefore
          obtain ⟨Q, mid, rest, hreads, hrest, heq⟩ :=
            ih hknown hbefore.2 htail hout rfl
          refine ⟨Q, c :: mid, rest, hreads, hrest, ?_⟩
          rw [heq, List.append_assoc nstr, List.singleton_append]
  | @escape rest nstr vec e hhead h ih =>
      cases before with
      | nil => cases (List.cons_eq_cons.mp htext).1
      | cons first before =>
          obtain ⟨rfl, htail⟩ := List.cons_eq_cons.mp htext
          rw [List.mem_cons, not_or] at hbefore
          obtain ⟨Q, mid, rest, hreads, hrest, heq⟩ :=
            ih hknown hbefore.2 htail hout hfalse
          refine ⟨Q, percent :: mid, rest, hreads, hrest, ?_⟩
          rw [heq, List.append_assoc nstr, List.singleton_append]
  | @directive rest nstr name fmt behind vec e hhead hread h ih =>
      obtain ⟨hdir, hvec⟩ := List.forall_mem_cons.mp hknown.of_append.2
      obtain ⟨d, rfl⟩ := directive_known hdir
      obtain ⟨x, y, hx, hy, rfl⟩ := render_append.mp hout
      rw [render_flush hstring] at hx
      cases hx
      obtain ⟨item, tail, hitem, htail, rfl⟩ := render_cons.mp hy
      cases before with
      | nil => cases (List.cons_eq_cons.mp htext).1
      | cons first before =>
          obtain ⟨rfl, hrest⟩ := List.cons_eq_cons.mp htext
          rw [List.mem_cons, not_or] at hbefore
          have hletter : closeBrace ∉ d.letter := by
            cases d <;> decide
          rcases readDirective_parts hread with
            ⟨rfl, hparts⟩ | ⟨hclose, hparts⟩
          · obtain ⟨before', rfl, hbehind⟩ :=
              prefix_of_notMem hletter (hparts.symm.trans hrest)
            have hbefore' : closeBrace ∉ before' := fun hmem =>
              hbefore.2 (List.mem_append_right _ hmem)
            obtain ⟨Q, mid, rest, hreads, hrender, rfl⟩ :=
              ih hvec hbefore' hbehind htail hfalse
            exact ⟨Q, item ++ mid, rest, hreads, hrender, by simp⟩
          · have hfront : closeBrace ∉ d.letter ++ openBrace :: fmt := by
              simp only [List.mem_append, List.mem_cons, not_or]
              exact ⟨hletter, by decide, hclose⟩
            have hsame : d.letter ++ openBrace :: fmt ++ closeBrace :: behind =
                before ++ closeBrace :: after := by
              refine Eq.trans ?_ (hparts.symm.trans hrest)
              simp
            have hcut := congrArg (cut closeBrace) hsame
            rw [cut_append hfront, cut_append hbefore.2] at hcut
            cases hcut
            subst hfalse
            exact ⟨vec, item, tail, h, htail, (List.append_assoc _ _ _).symm⟩
  | unclosed => cases hfalse

theorem Reads.of_literals {text rest nstr : Bytes} {P : List Piece} {e : Bool}
    (htext : percent ∉ text) (h : Reads (text ++ rest) nstr P e) :
    Reads rest (nstr ++ text) P e := by
  induction text generalizing nstr with
  | nil => simpa using h
  | cons c text ih =>
      rw [List.mem_cons, not_or] at htext
      have hnext : Reads (text ++ rest) (nstr ++ [c]) P e := by
        rw [List.cons_append] at h
        generalize text ++ rest = more at h
        cases h with
        | literal _ h => exact h
        | escape => exact absurd rfl htext.1
        | directive => exact absurd rfl htext.1
        | unclosed => exact absurd rfl htext.1
      simpa using ih htext.2 hnext

/-! ### Dates -/

/-- What may stand behind a `%` in a date format that is itself read as a
pattern, and the year of the default format. -/
def conversionBytes : Bytes := lit "mprctndflTPN%Y"

/-- `strftime` behind `localtime_r` in the C locale, as far as it is known:
text without a `%` is copied, and no conversion with one of the bytes above
begins with `d` or with a brace. -/
structure Strftime where
  date : Bytes → UInt64 → Option Bytes
  plain : ∀ format time out, percent ∉ format →
    date format time = some out → out = format
  conversion : ∀ front z rest time out, percent ∉ front →
    z ∈ conversionBytes → date (front ++ percent :: z :: rest) time = some out →
    ∃ c tail, out = front ++ c :: tail ∧ c ≠ 100 ∧ c ≠ openBrace

/-- Where a `%` is no error, a byte of a conversion stands behind it. -/
theorem Reads.behind_percent {text nstr : Bytes} {P : List Piece}
    (h : Reads (percent :: text) nstr P false) (hknown : Known P) :
    ∃ z more, text = z :: more ∧ z ∈ conversionBytes := by
  cases h with
  | literal hc => exact absurd rfl hc
  | escape hhead =>
      obtain ⟨more, rfl⟩ := List.head?_eq_some_iff.mp hhead
      exact ⟨percent, more, rfl, by decide⟩
  | directive hhead hread h =>
      obtain ⟨hdir, _⟩ := List.forall_mem_cons.mp hknown.of_append.2
      obtain ⟨d, rfl⟩ := directive_known hdir
      have hletter : ∃ z, d.letter = [z] ∧ z ∈ conversionBytes := by
        cases d <;> exact ⟨_, rfl, by decide⟩
      obtain ⟨z, hz, hmem⟩ := hletter
      rw [hz] at hread
      rcases readDirective_parts hread with ⟨_, rfl⟩ | ⟨_, rfl⟩
      · exact ⟨z, _, rfl, hmem⟩
      · exact ⟨z, _, rfl, hmem⟩

/-- Two bytes that can be moved over a text are among those behind it. -/
theorem mem_of_rotate {front tail rest : Bytes} {c x y : UInt8}
    (h : front ++ c :: tail = x :: y :: front ++ rest) : c = x ∨ c = y := by
  have hlength := congrArg List.length h
  simp only [List.length_append, List.length_cons] at hlength
  cases tail with
  | nil =>
      rw [List.length_nil] at hlength
      omega
  | cons w tail =>
      have hsame : front ++ [c, w] ++ tail = [x, y] ++ front ++ rest := by
        simpa using h
      have hfront : front ++ [c, w] = [x, y] ++ front :=
        (List.append_inj hsame (by simp)).1
      have hperm : ([c, w] : Bytes).Perm [x, y] := by
        rw [← List.perm_append_left_iff front, hfront]
        exact List.perm_append_comm
      simpa using hperm.subset List.mem_cons_self

theorem cString_percent {front : Bytes} {z : UInt8} (hfront : 0 ∉ front)
    (hz : z ≠ 0) (more : Bytes) :
    cString (front ++ percent :: z :: more) =
      front ++ percent :: z :: cString more := by
  have hpos : ∀ c ∈ front ++ [percent, z], decide (c ≠ 0) = true := by
    intro c hc
    simp only [List.mem_append, List.mem_cons, List.not_mem_nil,
      or_false] at hc
    rw [decide_eq_true_eq]
    rcases hc with hc | rfl | rfl
    · exact fun h0 => hfront (h0 ▸ hc)
    · decide
    · exact hz
  have hjoin : cString (front ++ [percent, z] ++ more) =
      front ++ [percent, z] ++ cString more :=
    List.takeWhile_append_of_pos hpos
  simpa using hjoin

/-- What a date prints is not the text of its directive. -/
theorem date_differs (s : Strftime) {shown : FormatItem → Option Bytes}
    (hstring : ∀ text, shown (.string text) = some text)
    {fmt after out rest : Bytes} {vec P : List Piece} {time : UInt64}
    (hvec : Reads after [] vec false)
    (hP : Reads (lit "d\x7b" ++ fmt ++ closeBrace :: after) [] P false)
    (hknown : Known P) (hfmt : closeBrace ∉ fmt)
    (hout : s.date (cString fmt) time = some out)
    (hrest : render shown vec = some rest) :
    render shown P ≠ some (out ++ rest) := by
  intro hrender
  rw [List.append_assoc] at hP
  have hinner := hP.of_literals (by decide)
  have hsplit : cString fmt ++ fmt.dropWhile (· ≠ 0) = fmt :=
    List.takeWhile_append_dropWhile
  by_cases hpercent : percent ∈ cString fmt
  · obtain ⟨front, behind, hcstring, hfront⟩ :=
      List.eq_append_cons_of_mem hpercent
    have hzero : 0 ∉ front := fun hmem => zero_notMem_cString fmt (by
      rw [hcstring]
      exact List.mem_append_left _ hmem)
    rw [hcstring, List.append_assoc, List.cons_append] at hsplit
    generalize behind ++ fmt.dropWhile (· ≠ 0) = more at hsplit
    subst hsplit
    rw [List.append_assoc, List.cons_append] at hinner
    have hpend := hinner.of_literals hfront
    obtain ⟨z, more', hmore, hz⟩ := hpend.behind_percent hknown
    cases more with
    | nil =>
        obtain ⟨rfl, _⟩ := List.cons_eq_cons.mp hmore
        exact absurd hz (by decide)
    | cons z' more =>
        obtain ⟨rfl, _⟩ := List.cons_eq_cons.mp hmore
        have hne : z' ≠ 0 := fun h0 => absurd (h0 ▸ hz) (by decide)
        rw [cString_percent hzero hne] at hout
        obtain ⟨c, tail, rfl, hd, hopen⟩ :=
          s.conversion _ _ _ _ _ hfront hz hout
        obtain ⟨Q, -, hQ⟩ := hpend.pending hstring
        obtain ⟨rest', -, heq⟩ := hQ _ hrender
        rcases mem_of_rotate (by simpa [lit] using heq) with rfl | rfl
        · exact hd rfl
        · exact hopen rfl
  · obtain rfl := s.plain _ _ _ hpercent hout
    rw [← hsplit, List.append_assoc] at hinner
    have hpend := hinner.of_literals hpercent
    have hclose : closeBrace ∉ fmt.dropWhile (· ≠ 0) := fun hmem =>
      hfmt ((List.dropWhile_suffix _).subset hmem)
    obtain ⟨Q, mid, rest', hQ, hrest', heq⟩ :=
      hpend.behind_brace hstring hknown hclose rfl hrender
    obtain ⟨rfl, -⟩ := hQ.unique hvec
    rw [hrest] at hrest'
    cases hrest'
    have hlength := congrArg List.length heq
    simp [lit] at hlength
    omega

/-! ### The escape -/

def zeroEvent : LogEvent :=
  ⟨lit "0", 0, 0, 0, 0, 0, lit "0", lit "0"⟩

/-- Directives other than the date can print something that does not begin
with their letter. -/
theorem Directive.item_head (date : Bytes → UInt64 → Option Bytes)
    (fmt : Bytes) (d : Directive) (hd : d ≠ .dateTime) :
    ∃ y ys, FormatItem.format date (lit "0") .debug zeroEvent (d.item fmt) =
      some (y :: ys) ∧ d.letter ≠ [y] := by
  have hzero : decimal 0 = [48] := by decide
  cases d with
  | dateTime => exact absurd rfl hd
  | message => exact ⟨_, _, rfl, by decide⟩
  | level => exact ⟨_, _, rfl, by decide⟩
  | elapse => exact ⟨48, [], congrArg some hzero, by decide⟩
  | name => exact ⟨_, _, rfl, by decide⟩
  | threadId => exact ⟨48, [], congrArg some hzero, by decide⟩
  | newLine => exact ⟨_, _, rfl, by decide⟩
  | filename => exact ⟨_, _, rfl, by decide⟩
  | line => exact ⟨48, [], congrArg some hzero, by decide⟩
  | tab => exact ⟨_, _, rfl, by decide⟩
  | pId => exact ⟨48, [], congrArg some hzero, by decide⟩
  | threadName => exact ⟨_, _, rfl, by decide⟩

/-- A text that is read as a directive behind a `%` does not print the same
without it. -/
theorem directive_differs (s : Strftime) {d : Directive}
    {text fmt after rb x y : Bytes} {vec P : List Piece}
    (hread : readDirective text = some (d.letter, fmt, after))
    (hvec : Reads after [] vec false) (hP : Reads text [] P false)
    (hknown : Known P)
    (hx : FormatItem.format s.date (lit "0") .debug zeroEvent (d.item fmt) =
      some x)
    (hy : render (FormatItem.format s.date (lit "0") .debug zeroEvent) vec =
      some y)
    (hrb : render (FormatItem.format s.date (lit "0") .debug zeroEvent) P =
      some rb) : rb ≠ x ++ y := by
  have hstring : ∀ text, FormatItem.format s.date (lit "0") .debug zeroEvent
      (.string text) = some text := fun _ => rfl
  have hfirst : ∃ tail, rb = d.letter ++ tail := by
    have hletter : percent ∉ d.letter := by cases d <;> decide
    have htext : ∃ more, text = d.letter ++ more := by
      rcases readDirective_parts hread with ⟨_, h⟩ | ⟨_, h⟩
      · exact ⟨_, h⟩
      · exact ⟨_, h⟩
    obtain ⟨more, rfl⟩ := htext
    obtain ⟨Q, -, hQ⟩ := (hP.of_literals hletter).pending hstring
    obtain ⟨tail, -, heq⟩ := hQ rb hrb
    exact ⟨tail, heq⟩
  obtain ⟨tail, htail⟩ := hfirst
  by_cases hd : d = .dateTime
  · subst hd
    by_cases hfmt : fmt = []
    · -- the default format starts with the year
      subst hfmt
      obtain ⟨c, more, rfl, hc, -⟩ := s.conversion [] 89
        (lit "-%m-%d %H:%M:%S") _ _ (by simp) (by decide) hx
      rintro rfl
      exact hc (List.cons_eq_cons.mp htail).1
    · rcases readDirective_parts hread with ⟨hnil, -⟩ | ⟨hclose, rfl⟩
      · exact absurd hnil hfmt
      · have hout : s.date (cString fmt) 0 = some x := by
          rw [← hx, Directive.item, FormatItem.makeDateTime, if_neg hfmt]
          rfl
        rintro rfl
        refine date_differs s hstring hvec ?_ hknown hclose hout hy hrb
        simpa [Directive.letter, lit, openBrace] using hP
  · obtain ⟨c, more, hshown, hne⟩ := Directive.item_head s.date fmt d hd
    obtain ⟨letter, hletter, -⟩ := d.letter_eq
    rw [hshown] at hx
    cases hx
    rintro rfl
    rw [hletter] at htail hne
    exact hne (by rw [(List.cons_eq_cons.mp htail).1])

/-- `%%` between two patterns is no error, and prints one `%` between what
they print. -/
def EscapeKept (date : Bytes → UInt64 → Option Bytes) (a b : Bytes) : Prop :=
  (LogFormatter.init (a ++ lit "%%" ++ b)).m_error = false ∧
  ∀ logger level event, ∃ ra rb,
    (LogFormatter.init a).format date logger level event = some ra ∧
    (LogFormatter.init b).format date logger level event = some rb ∧
    (LogFormatter.init (a ++ lit "%%" ++ b)).format date logger level event =
      some (ra ++ [percent] ++ rb)

/-- Between patterns without errors the escape never works: its second `%` is
read as another escape, as a directive, or as an error. -/
theorem escape_never (s : Strftime) (a b : Bytes)
    (ha : (LogFormatter.init a).m_error = false)
    (hb : (LogFormatter.init b).m_error = false) :
    ¬ EscapeKept s.date a b := by
  rintro ⟨herror, hrender⟩
  obtain ⟨Pa, hpa, hra, hka⟩ := LogFormatter.reads_of_noError ha
  obtain ⟨Pb, hpb, hrb, hkb⟩ := LogFormatter.reads_of_noError hb
  obtain ⟨Pc, hpc, hrc, hkc⟩ := LogFormatter.reads_of_noError herror
  have htext : a ++ lit "%%" ++ b = a ++ percent :: percent :: b := by
    rw [List.append_assoc]
    rfl
  obtain ⟨P₀, pend, rfl, hjoin⟩ := hra.append hka (percent :: b)
  obtain ⟨Q, e, hQ⟩ := Reads.total (percent :: b) (pend ++ [percent])
  rw [htext] at hrc
  obtain ⟨rfl, rfl⟩ := (hjoin Q e (.escape rfl hQ)).unique hrc
  obtain ⟨ra, rb, hfa, hfb, hfc⟩ := hrender (lit "0") .debug zeroEvent
  rw [LogFormatter.format_init, hpa] at hfa
  rw [LogFormatter.format_init, hpb] at hfb
  rw [LogFormatter.format_init, hpc] at hfc
  have hstring : ∀ text, FormatItem.format s.date (lit "0") .debug zeroEvent
      (.string text) = some text := fun _ => rfl
  obtain ⟨x, y, hx, hy, rfl⟩ := render_append.mp hfa
  rw [render_flush hstring] at hy
  cases hy
  obtain ⟨x', y, hx', hy, heq⟩ := render_append.mp hfc
  rw [hx] at hx'
  cases hx'
  have hbehind : y = pend ++ [percent] ++ rb := by simpa using heq.symm
  have hknown := hkc.of_append.2
  cases hQ with
  | literal hc => exact absurd rfl hc
  | escape hhead h =>
      -- two escapes, and two marks
      obtain ⟨Q', hQ', hpending⟩ := h.pending hstring
      obtain ⟨rfl, -⟩ := hQ'.unique hrb
      obtain ⟨rest, hrest, hout⟩ := hpending y hy
      rw [hfb] at hrest
      cases hrest
      have hlength := congrArg List.length (hbehind.symm.trans hout)
      simp at hlength
  | directive hhead hread h =>
      obtain ⟨hdir, -⟩ := List.forall_mem_cons.mp hknown.of_append.2
      obtain ⟨d, rfl⟩ := directive_known hdir
      obtain ⟨z, rest, hz, hrest, rfl⟩ := render_append.mp hy
      rw [render_flush hstring] at hz
      cases hz
      obtain ⟨item, tail, hitem, htail, rfl⟩ := render_cons.mp hrest
      rw [d.item_letter] at hitem
      exact directive_differs s hread h hrb hkb hitem htail hfb
        (List.append_cancel_left hbehind).symm

/-- A library whose dates are only seen where they have no conversion. -/
def plainDates : Strftime where
  date format _ := if percent ∈ format then none else some format
  plain format time out hpercent hout := by
    rw [if_neg hpercent] at hout
    exact (Option.some.inj hout).symm
  conversion front z rest time out _ _ hout := by
    rw [if_pos (List.mem_append_right _ List.mem_cons_self)] at hout
    cases hout

theorem escape_never_message :
    ¬ EscapeKept plainDates.date (lit "[%p] ") (lit "m 1") :=
  escape_never plainDates (lit "[%p] ") (lit "m 1") (by decide) (by decide)

/-- At the end of a pattern the escape is an error. -/
theorem escape_fails_at_end :
    (LogFormatter.init (lit "100")).m_error = false ∧
      (LogFormatter.init []).m_error = false ∧
      ¬ EscapeKept plainDates.date (lit "100") [] := by
  refine ⟨by decide, by decide, fun hkept => ?_⟩
  exact absurd hkept.1 (by decide)

end Sone

end LinuxTest
