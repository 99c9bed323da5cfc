/-
Log patterns as texts.  The two loops of `LogFormatter::init` with their indices
are one relation on the text that is left to read.
-/
import LinuxTest.LogFormatter

namespace LinuxTest

namespace Sone

/-! ### Reading a directive -/

/-- The bytes that the scanner takes for a part of a directive's name. -/
def isNameByte (c : UInt8) : Bool :=
  isLetter c ∨ c = closeBrace

/-- The name, the format and the rest of a directive behind its `%`; none where
its brace is not closed. -/
def readDirective (text : Bytes) : Option (Bytes × Bytes × Bytes) :=
  match text.dropWhile isNameByte with
  | [] => some (text, [], [])
  | c :: tail =>
      if c = openBrace then
        (cut closeBrace tail).map fun parts =>
          (text.takeWhile isNameByte, parts.1, parts.2)
      else some (text.takeWhile isNameByte, [], c :: tail)

theorem dropWhile_name {name : Bytes} (hname : ∀ c ∈ name, isNameByte c)
    {c : UInt8} (hc : ¬ isNameByte c) (tail : Bytes) :
    (name ++ c :: tail).dropWhile isNameByte = c :: tail ∧
      (name ++ c :: tail).takeWhile isNameByte = name := by
  rw [List.dropWhile_append_of_pos hname, List.takeWhile_append_of_pos hname]
  simp [hc]

theorem readDirective_end {name : Bytes}
    (hname : ∀ c ∈ name, isNameByte c) :
    readDirective name = some (name, [], []) := by
  rw [readDirective, List.dropWhile_eq_nil_iff.mpr hname]

theorem readDirective_stop {name : Bytes}
    (hname : ∀ c ∈ name, isNameByte c) {c : UInt8} (hc : ¬ isNameByte c)
    (hopen : c ≠ openBrace) (tail : Bytes) :
    readDirective (name ++ c :: tail) = some (name, [], c :: tail) := by
  obtain ⟨hdrop, htake⟩ := dropWhile_name hname hc tail
  rw [readDirective, hdrop, htake]
  simp only [if_neg hopen]

theorem readDirective_brace {name : Bytes}
    (hname : ∀ c ∈ name, isNameByte c) (tail : Bytes) :
    readDirective (name ++ openBrace :: tail) =
      (cut closeBrace tail).map fun parts => (name, parts.1, parts.2) := by
  obtain ⟨hdrop, htake⟩ := dropWhile_name hname (c := openBrace) (by decide)
    tail
  rw [readDirective, hdrop, htake]
  simp only [if_true]

/-! ### The inner loop -/

theorem substr_middle (front text tail : Bytes) :
    substr (front ++ text ++ tail) front.length text.length = text := by
  simp [substr]

/-- The name of a directive behind the `%` at `i`. -/
theorem substr_name (front name tail : Bytes) {i : Nat}
    (hi : i + 1 = front.length) :
    substr (front ++ (name ++ tail)) (i + 1)
      ((front ++ name).length - i - 1) = name := by
  have hcount : (front ++ name).length - i - 1 = name.length := by
    rw [List.length_append]
    omega
  rw [hcount, hi, ← List.append_assoc, substr_middle]

theorem getElem?_middle (front : Bytes) (c : UInt8) (tail : Bytes) :
    (front ++ c :: tail)[front.length]? = some c := by
  simp

section InnerLoop

variable {m_pattern : Bytes} {i fuel : Nat} {s : DirectiveScan} {c : UInt8}

theorem scanDirective_end (hend : m_pattern[s.n]? = none) :
    scanDirective m_pattern i fuel s = s := by
  cases fuel with
  | zero => rfl
  | succ fuel => simp only [scanDirective, hend]

theorem scanDirective_stop (hbyte : m_pattern[s.n]? = some c)
    (hstatus : s.fmt_status = 0) (hname : ¬ isNameByte c)
    (hopen : c ≠ openBrace) :
    scanDirective m_pattern i (fuel + 1) s =
      { s with str := substr m_pattern (i + 1) (s.n - i - 1) } := by
  have hstop : s.fmt_status = 0 ∧ ¬ isLetter c ∧ c ≠ openBrace ∧
      c ≠ closeBrace := by
    rw [isNameByte, decide_eq_true_eq, not_or] at hname
    exact ⟨hstatus, hname.1, hopen, hname.2⟩
  simp only [scanDirective, hbyte]
  rw [if_pos hstop]

theorem scanDirective_open (hbyte : m_pattern[s.n]? = some openBrace)
    (hstatus : s.fmt_status = 0) :
    scanDirective m_pattern i (fuel + 1) s = scanDirective m_pattern i fuel
      { s with
        str := substr m_pattern (i + 1) (s.n - i - 1)
        fmt_status := 1
        fmt_begin := s.n
        n := s.n + 1 } := by
  simp only [scanDirective, hbyte]
  rw [if_neg (by simp), if_pos ⟨hstatus, trivial⟩]

theorem scanDirective_close (hbyte : m_pattern[s.n]? = some closeBrace)
    (hstatus : s.fmt_status = 1) :
    scanDirective m_pattern i (fuel + 1) s =
      { s with
        fmt := substr m_pattern (s.fmt_begin + 1) (s.n - s.fmt_begin - 1)
        fmt_status := 0
        n := s.n + 1 } := by
  simp only [scanDirective, hbyte]
  rw [if_neg (by simp), if_neg (by simp [hstatus]), if_pos ⟨hstatus, trivial⟩]

/-- A byte of a name in front of the brace, or of a format behind it. -/
theorem scanDirective_next (hbyte : m_pattern[s.n]? = some c)
    (hinner : (s.fmt_status = 0 ∧ isNameByte c) ∨
      (s.fmt_status = 1 ∧ c ≠ closeBrace)) :
    scanDirective m_pattern i (fuel + 1) s = scanDirective m_pattern i fuel
      { s with
        n := s.n + 1
        str := if s.n + 1 = m_pattern.length ∧ s.str = [] then
          m_pattern.drop (i + 1) else s.str } := by
  have hname : isNameByte c → c ≠ openBrace ∧
      (isLetter c ∨ c = closeBrace) := by
    intro hname
    refine ⟨?_, by simpa [isNameByte] using hname⟩
    rintro rfl
    exact absurd hname (by decide)
  simp only [scanDirective, hbyte]
  rcases hinner with ⟨hstatus, hbytes⟩ | ⟨hstatus, hclose⟩
  · obtain ⟨hopen, hletter⟩ := hname hbytes
    rw [if_neg (by tauto), if_neg (by tauto), if_neg (by omega)]
  · rw [if_neg (by omega), if_neg (by omega), if_neg (by tauto)]

end InnerLoop

/-- Behind an open brace the loop goes on to the first brace that closes. -/
theorem scanDirective_closed (front fmt more rest : Bytes)
    (hmore : closeBrace ∉ more) {i fuel fmt_begin : Nat}
    (hbegin : fmt_begin + 1 = front.length) (hfuel : more.length < fuel)
    (str : Bytes) :
    scanDirective (front ++ fmt ++ (more ++ closeBrace :: rest)) i fuel
        ⟨(front ++ fmt).length, 1, fmt_begin, str, []⟩ =
      ⟨(front ++ fmt ++ more).length + 1, 0, fmt_begin, str,
        fmt ++ more⟩ := by
  induction more generalizing fmt fuel with
  | nil =>
      obtain ⟨fuel, rfl⟩ := Nat.exists_eq_add_one_of_ne_zero
        (Nat.ne_zero_of_lt hfuel)
      have hbyte := getElem?_middle (front ++ fmt) closeBrace rest
      have hsub := substr_middle front fmt (closeBrace :: rest)
      rw [List.nil_append, scanDirective_close hbyte rfl]
      have hlength : (front ++ fmt).length - fmt_begin - 1 = fmt.length := by
        rw [List.length_append]
        omega
      simp only [hlength, hbegin, hsub, List.append_nil]
  | cons c more ih =>
      rw [List.mem_cons, not_or] at hmore
      obtain ⟨fuel, rfl⟩ := Nat.exists_eq_add_one_of_ne_zero
        (Nat.ne_zero_of_lt hfuel)
      have hbyte := getElem?_middle (front ++ fmt) c
        (more ++ closeBrace :: rest)
      have hmiddle : ¬ ((front ++ fmt).length + 1 = (front ++ fmt ++
          (c :: more ++ closeBrace :: rest)).length ∧ str = []) := by
        simp only [List.length_append, List.length_cons]
        omega
      have hnext := @ih (fmt ++ [c]) hmore.2 fuel (by simpa using hfuel)
      rw [List.cons_append] at hmiddle ⊢
      rw [scanDirective_next hbyte (Or.inr ⟨rfl, Ne.symm hmore.1⟩),
        if_neg hmiddle]
      simpa [Nat.add_assoc] using hnext

/-- Without a brace that closes, the status stays open. -/
theorem scanDirective_unclosed (front tail : Bytes)
    (htail : closeBrace ∉ tail) {i fuel fmt_begin : Nat}
    (hfuel : tail.length ≤ fuel) (str : Bytes) :
    (scanDirective (front ++ tail) i fuel
        ⟨front.length, 1, fmt_begin, str, []⟩).fmt_status = 1 ∧
      (scanDirective (front ++ tail) i fuel
        ⟨front.length, 1, fmt_begin, str, []⟩).fmt = [] := by
  induction tail generalizing front fuel str with
  | nil => simp [scanDirective_end]
  | cons c tail ih =>
      rw [List.mem_cons, not_or] at htail
      obtain ⟨fuel, rfl⟩ := Nat.exists_eq_add_one_of_ne_zero
        (Nat.ne_zero_of_lt hfuel)
      have hbyte := getElem?_middle front c tail
      rw [scanDirective_next hbyte (Or.inr ⟨rfl, Ne.symm htail.1⟩)]
      have hnext := ih (front ++ [c]) htail.2 (Nat.le_of_succ_le_succ hfuel)
      simp only [List.append_assoc, List.singleton_append,
        List.length_append, List.length_cons, List.length_nil] at hnext
      exact hnext _

/-- The loop goes over the bytes of a name. -/
theorem scanDirective_walk (front name : Bytes)
    (hname : ∀ c ∈ name, isNameByte c) (c : UInt8) (tail : Bytes)
    {i fuel : Nat} (hfuel : name.length ≤ fuel) :
    scanDirective (front ++ (name ++ c :: tail)) i fuel
        ⟨front.length, 0, 0, [], []⟩ =
      scanDirective (front ++ (name ++ c :: tail)) i (fuel - name.length)
        ⟨(front ++ name).length, 0, 0, [], []⟩ := by
  induction name generalizing front fuel with
  | nil => simp
  | cons first name ih =>
      rw [List.forall_mem_cons] at hname
      obtain ⟨fuel, rfl⟩ := Nat.exists_eq_add_one_of_ne_zero
        (Nat.ne_zero_of_lt hfuel)
      have hbyte := getElem?_middle front first (name ++ c :: tail)
      have hmiddle : ¬ (front.length + 1 =
          (front ++ first :: (name ++ c :: tail)).length ∧
            ([] : Bytes) = []) := by
        simp only [List.length_append, List.length_cons]
        omega
      have hnext := ih (front ++ [first]) hname.2
        (Nat.le_of_succ_le_succ hfuel)
      simp only [List.append_assoc, List.singleton_append,
        List.length_append, List.length_cons, List.length_nil] at hnext
      rw [List.cons_append,
        scanDirective_next hbyte (Or.inl ⟨rfl, hname.1⟩), if_neg hmiddle]
      simp only [Nat.zero_add] at hnext
      rw [hnext, List.length_append, List.length_cons, Nat.add_sub_add_right]

/-- A name that ends the pattern. -/
theorem scanDirective_walk_end (front name : Bytes)
    (hname : ∀ c ∈ name, isNameByte c) {i fuel : Nat}
    (hi : i + 1 = front.length) (hfuel : name.length ≤ fuel) :
    scanDirective (front ++ name) i fuel ⟨front.length, 0, 0, [], []⟩ =
      ⟨(front ++ name).length, 0, 0, name, []⟩ := by
  rcases List.eq_nil_or_concat' name with rfl | ⟨start, last, rfl⟩
  · rw [scanDirective_end (by simp)]
    simp
  · rw [List.length_append, List.length_singleton] at hfuel
    have hstart : ∀ c ∈ start, isNameByte c := fun c hc =>
      hname c (List.mem_append_left _ hc)
    have hlast : isNameByte last := hname last (by simp)
    obtain ⟨more, hmore⟩ : ∃ more, fuel - start.length = more + 1 :=
      ⟨fuel - start.length - 1, by omega⟩
    have hbyte := getElem?_middle (front ++ start) last []
    rw [List.append_assoc] at hbyte
    rw [scanDirective_walk front start hstart last [] (by omega), hmore,
      scanDirective_next hbyte (Or.inl ⟨rfl, hlast⟩),
      scanDirective_end (by simp; omega)]
    simp [hi]
    omega

/-- A name in front of a byte that ends it. -/
theorem scanDirective_walk_stop (front name : Bytes)
    (hname : ∀ c ∈ name, isNameByte c) {c : UInt8} (hc : ¬ isNameByte c)
    (hopen : c ≠ openBrace) (tail : Bytes) {i fuel : Nat}
    (hi : i + 1 = front.length) (hfuel : name.length < fuel) :
    scanDirective (front ++ (name ++ c :: tail)) i fuel
        ⟨front.length, 0, 0, [], []⟩ =
      ⟨(front ++ name).length, 0, 0, name, []⟩ := by
  obtain ⟨more, hmore⟩ : ∃ more, fuel - name.length = more + 1 :=
    ⟨fuel - name.length - 1, by omega⟩
  have hbyte := getElem?_middle (front ++ name) c tail
  rw [List.append_assoc] at hbyte
  rw [scanDirective_walk front name hname c tail (Nat.le_of_lt hfuel), hmore,
    scanDirective_stop hbyte rfl hc hopen]
  simp only [substr_name front name (c :: tail) hi]

/-- A name in front of a brace. -/
theorem scanDirective_walk_open (front name : Bytes)
    (hname : ∀ c ∈ name, isNameByte c) (tail : Bytes) {i fuel : Nat}
    (hi : i + 1 = front.length) (hfuel : name.length + tail.length < fuel) :
    ∃ more, tail.length ≤ more ∧
      scanDirective (front ++ (name ++ openBrace :: tail)) i fuel
          ⟨front.length, 0, 0, [], []⟩ =
        scanDirective (front ++ name ++ [openBrace] ++ tail) i more
          ⟨(front ++ name ++ [openBrace]).length, 1, (front ++ name).length,
            name, []⟩ := by
  obtain ⟨more, hmore⟩ : ∃ more, fuel - name.length = more + 1 :=
    ⟨fuel - name.length - 1, by omega⟩
  have hbyte := getElem?_middle (front ++ name) openBrace tail
  rw [List.append_assoc] at hbyte
  have hbegin : (front ++ name).length + 1 =
      (front ++ name ++ [openBrace]).length := by
    simp only [List.length_append, List.length_singleton]
  have htext : front ++ (name ++ openBrace :: tail) =
      front ++ name ++ [openBrace] ++ tail := by
    simp
  refine ⟨more, by omega, ?_⟩
  rw [scanDirective_walk front name hname openBrace tail (by omega), hmore,
    scanDirective_open hbyte rfl]
  simp only [substr_name front name (openBrace :: tail) hi]
  rw [htext, hbegin]

/-- The inner loop reads a directive. -/
theorem scanDirective_read (front text : Bytes) {i fuel : Nat}
    (hi : i + 1 = front.length) (hfuel : text.length ≤ fuel) :
    (∀ name fmt rest, readDirective text = some (name, fmt, rest) →
      ∃ used fmt_begin, text = used ++ rest ∧
        scanDirective (front ++ text) i fuel ⟨front.length, 0, 0, [], []⟩ =
          ⟨(front ++ used).length, 0, fmt_begin, name, fmt⟩) ∧
    (readDirective text = none →
      (scanDirective (front ++ text) i fuel
          ⟨front.length, 0, 0, [], []⟩).fmt_status = 1 ∧
        (scanDirective (front ++ text) i fuel
          ⟨front.length, 0, 0, [], []⟩).fmt = []) := by
  have hname : ∀ c ∈ text.takeWhile isNameByte, isNameByte c := fun c hc =>
    List.mem_takeWhile_imp hc
  have hsplit := List.takeWhile_append_dropWhile (p := isNameByte) (l := text)
  generalize text.takeWhile isNameByte = name at hname hsplit
  have hhead := List.head?_dropWhile_not isNameByte text
  cases hdrop : text.dropWhile isNameByte with
  | nil =>
      rw [hdrop, List.append_nil] at hsplit
      subst hsplit
      rw [readDirective_end hname]
      refine ⟨?_, fun hnone => by cases hnone⟩
      rintro _ _ _ ⟨⟩
      exact ⟨name, 0, by simp, scanDirective_walk_end front name hname hi
        hfuel⟩
  | cons c tail =>
      rw [hdrop] at hsplit hhead
      subst hsplit
      have hc : ¬ isNameByte c := by simpa using hhead
      rw [List.length_append, List.length_cons] at hfuel
      by_cases hopen : c = openBrace
      · subst hopen
        obtain ⟨more, hmore, hwalk⟩ :=
          scanDirective_walk_open front name hname tail hi hfuel
        rw [readDirective_brace hname, hwalk]
        constructor
        · intro name' fmt rest hread
          obtain ⟨parts, hcut, hparts⟩ := Option.map_eq_some_iff.mp hread
          cases hparts
          obtain ⟨rfl, hfmt⟩ := cut_eq_some_iff.mp hcut
          have hlonger : parts.1.length < more := by
            simp only [List.length_append, List.length_cons] at hmore
            omega
          have hbegin : (front ++ name).length + 1 =
              (front ++ name ++ [openBrace]).length := by
            simp only [List.length_append, List.length_singleton]
          have hclosed := @scanDirective_closed
            (front ++ name ++ [openBrace]) [] parts.1 parts.2 hfmt i more
            (front ++ name).length hbegin hlonger name
          simp only [List.append_nil, List.nil_append] at hclosed
          refine ⟨name ++ openBrace :: (parts.1 ++ [closeBrace]),
            (front ++ name).length, by simp, ?_⟩
          rw [hclosed]
          simp
          omega
        · intro hread
          have hcut := Option.map_eq_none_iff.mp hread
          exact scanDirective_unclosed _ tail (cut_eq_none_iff.mp hcut)
            hmore name
      · rw [readDirective_stop hname hc hopen, scanDirective_walk_stop front
          name hname hc hopen tail hi (by omega)]
        refine ⟨?_, fun hnone => by cases hnone⟩
        rintro _ _ _ ⟨⟩
        exact ⟨name, 0, rfl, rfl⟩

/-! ### The outer loop -/

/-- What the scanner makes of the text that is left, with the literal `nstr`
pending: the pieces still to come, and whether a brace is left open. -/
inductive Reads : Bytes → Bytes → List Piece → Bool → Prop
  | done (nstr : Bytes) : Reads [] nstr (flush nstr) false
  | literal {c : UInt8} {rest nstr : Bytes} {vec : List Piece} {e : Bool}
      (hc : c ≠ percent) (h : Reads rest (nstr ++ [c]) vec e) :
      Reads (c :: rest) nstr vec e
  | escape {rest nstr : Bytes} {vec : List Piece} {e : Bool}
      (hhead : rest.head? = some percent)
      (h : Reads rest (nstr ++ [percent]) vec e) :
      Reads (percent :: rest) nstr vec e
  | directive {rest nstr name fmt after : Bytes} {vec : List Piece} {e : Bool}
      (hhead : rest.head? ≠ some percent)
      (hread : readDirective rest = some (name, fmt, after))
      (h : Reads after [] vec e) :
      Reads (percent :: rest) nstr (flush nstr ++ ⟨name, fmt, 1⟩ :: vec) e
  | unclosed {rest nstr : Bytes} {vec : List Piece} {e : Bool}
      (hhead : rest.head? ≠ some percent) (hread : readDirective rest = none)
      (h : Reads rest nstr vec e) :
      Reads (percent :: rest) nstr
        (⟨lit "<<pattern_error>>", [], 0⟩ :: vec) true

/-- A text is read in one way only. -/
theorem Reads.unique {text nstr : Bytes} {P P' : List Piece} {e e' : Bool}
    (h : Reads text nstr P e) (h' : Reads text nstr P' e') :
    P = P' ∧ e = e' := by
  induction h generalizing P' e' with
  | done => cases h'; exact ⟨rfl, rfl⟩
  | literal hc _ ih =>
      cases h' with
      | literal _ h' => exact ih h'
      | escape => exact absurd rfl hc
      | directive => exact absurd rfl hc
      | unclosed => exact absurd rfl hc
  | escape hhead _ ih =>
      cases h' with
      | literal hc => exact absurd rfl hc
      | escape _ h' => exact ih h'
      | directive hne => exact absurd hhead hne
      | unclosed hne => exact absurd hhead hne
  | directive hhead hread _ ih =>
      cases h' with
      | literal hc => exact absurd rfl hc
      | escape heq => exact absurd heq hhead
      | directive _ hread' h' =>
          rw [hread] at hread'
          cases hread'
          obtain ⟨rfl, rfl⟩ := ih h'
          exact ⟨rfl, rfl⟩
      | unclosed _ hread' =>
          rw [hread] at hread'
          cases hread'
  | unclosed hhead hread _ ih =>
      cases h' with
      | literal hc => exact absurd rfl hc
      | escape heq => exact absurd heq hhead
      | directive _ hread' =>
          rw [hread] at hread'
          cases hread'
      | unclosed _ _ h' =>
          obtain ⟨rfl, rfl⟩ := ih h'
          exact ⟨rfl, rfl⟩

theorem getElem?_behind (front : Bytes) (c : UInt8) (rest : Bytes) :
    (front ++ c :: rest)[front.length + 1]? = rest.head? := by
  rw [List.getElem?_append_right (Nat.le_succ _)]
  simp [List.head?_eq_getElem?]

section OuterLoop

variable {front rest : Bytes} {s : PatternScan}

theorem scanByte_escape (hi : s.i = front.length)
    (hhead : rest.head? = some percent) :
    scanByte (front ++ percent :: rest) percent s =
      { s with nstr := s.nstr ++ [percent], i := s.i + 1 } := by
  have hbehind : (front ++ percent :: rest)[s.i + 1]? = some percent := by
    rw [hi, getElem?_behind, hhead]
  rw [scanByte, if_neg (by simp), if_pos hbehind]

/-- Behind a `%` that is no escape the inner loop starts at the text that is
left. -/
theorem scanByte_percent (hi : s.i = front.length)
    (hhead : rest.head? ≠ some percent) :
    (∀ name fmt after, readDirective rest = some (name, fmt, after) →
      ∃ used, rest = used ++ after ∧
        scanByte (front ++ percent :: rest) percent s =
          { s with
            vec := s.vec ++ flush s.nstr ++ [⟨name, fmt, 1⟩]
            nstr := []
            i := (front ++ [percent] ++ used).length }) ∧
    (readDirective rest = none →
      scanByte (front ++ percent :: rest) percent s =
        { s with
          m_error := true
          vec := s.vec ++ [⟨lit "<<pattern_error>>", [], 0⟩]
          i := s.i + 1 }) := by
  have hsplit : front ++ percent :: rest = front ++ [percent] ++ rest := by
    simp
  have hnext : s.i + 1 = (front ++ [percent]).length := by
    rw [List.length_append, List.length_singleton, hi]
  have hbehind : (front ++ percent :: rest)[s.i + 1]? ≠ some percent := by
    rw [hi, getElem?_behind]
    exact hhead
  obtain ⟨hclosed, hunclosed⟩ := @scanDirective_read (front ++ [percent]) rest
    s.i (front ++ percent :: rest).length hnext (by simp; omega)
  rw [← hsplit, ← hnext] at hclosed hunclosed
  rw [scanByte, if_neg (by simp), if_neg hbehind]
  constructor
  · intro name fmt after hread
    obtain ⟨used, fmt_begin, hused, hscan⟩ := hclosed name fmt after hread
    have hi' : (front ++ [percent] ++ used).length - 1 + 1 =
        (front ++ [percent] ++ used).length := by
      simp only [List.length_append, List.length_singleton]
      omega
    refine ⟨used, hused, ?_⟩
    simp only [hscan, if_true, hi']
  · intro hread
    obtain ⟨hstatus, hfmt⟩ := hunclosed hread
    simp only [hstatus, hfmt, Nat.one_ne_zero, if_false]

/-- One turn of the outer loop takes off the front of the text what one rule
of the relation does. -/
theorem scanPattern_reads (front text : Bytes) {fuel : Nat}
    (hfuel : text.length ≤ fuel) (s : PatternScan)
    (hi : s.i = front.length) :
    ∃ P e, Reads text s.nstr P e ∧
      (scanPattern (front ++ text) fuel s).vec ++
          flush (scanPattern (front ++ text) fuel s).nstr = s.vec ++ P ∧
      (scanPattern (front ++ text) fuel s).m_error = (s.m_error || e) := by
  induction fuel generalizing front text s with
  | zero =>
      obtain rfl := List.eq_nil_of_length_eq_zero (Nat.le_zero.mp hfuel)
      exact ⟨_, false, .done _, rfl, (Bool.or_false _).symm⟩
  | succ fuel ih =>
      cases text with
      | nil =>
          have hend : (front ++ [])[s.i]? = none := by simp [hi]
          simp only [scanPattern, hend]
          exact ⟨_, false, .done _, rfl, (Bool.or_false _).symm⟩
      | cons c rest =>
          have hrest : rest.length ≤ fuel := Nat.le_of_succ_le_succ hfuel
          have hbyte : (front ++ c :: rest)[s.i]? = some c := by
            rw [hi, getElem?_middle]
          have hsplit : front ++ c :: rest = front ++ [c] ++ rest := by simp
          have hnext : s.i + 1 = (front ++ [c]).length := by
            rw [List.length_append, List.length_singleton, hi]
          simp only [scanPattern, hbyte]
          by_cases hc : c = percent
          · subst hc
            by_cases hhead : rest.head? = some percent
            · obtain ⟨P, e, hreads, hvec, herror⟩ := ih (front ++ [percent])
                rest hrest { s with
                  nstr := s.nstr ++ [percent], i := s.i + 1 } hnext
              rw [scanByte_escape hi hhead, hsplit]
              exact ⟨P, e, .escape hhead hreads, hvec, herror⟩
            · obtain ⟨hclosed, hunclosed⟩ := scanByte_percent hi hhead
              cases hread : readDirective rest with
              | none =>
                  obtain ⟨P, e, hreads, hvec, herror⟩ := ih
                    (front ++ [percent]) rest hrest { s with
                      m_error := true
                      vec := s.vec ++ [⟨lit "<<pattern_error>>", [], 0⟩]
                      i := s.i + 1 } hnext
                  rw [hunclosed hread, hsplit]
                  refine ⟨_, true, .unclosed hhead hread hreads, ?_, ?_⟩
                  · rw [hvec, List.append_assoc, List.singleton_append]
                  · rw [herror, Bool.true_or, Bool.or_true]
              | some parts =>
                  obtain ⟨name, fmt, after⟩ := parts
                  obtain ⟨used, hused, hscan⟩ := hclosed name fmt after hread
                  have hlength : after.length ≤ fuel := by
                    rw [hused, List.length_append] at hrest
                    omega
                  have hafter : front ++ percent :: rest =
                      front ++ [percent] ++ used ++ after := by
                    simp [hused]
                  obtain ⟨P, e, hreads, hvec, herror⟩ := ih
                    (front ++ [percent] ++ used) after hlength { s with
                      vec := s.vec ++ flush s.nstr ++ [⟨name, fmt, 1⟩]
                      nstr := []
                      i := (front ++ [percent] ++ used).length } rfl
                  rw [hscan, hafter]
                  refine ⟨_, e, .directive hhead hread hreads, ?_, herror⟩
                  rw [hvec]
                  simp
          · obtain ⟨P, e, hreads, hvec, herror⟩ := ih (front ++ [c]) rest
              hrest { s with nstr := s.nstr ++ [c], i := s.i + 1 } hnext
            rw [scanByte, if_pos hc, hsplit]
            exact ⟨P, e, .literal hc hreads, hvec, herror⟩

end OuterLoop

/-- The scanner is the relation. -/
theorem LogFormatter.pieces_eq_iff (m_pattern : Bytes) (P : List Piece)
    (e : Bool) :
    LogFormatter.pieces m_pattern = (P, e) ↔ Reads m_pattern [] P e := by
  obtain ⟨P', e', hreads, hvec, herror⟩ := scanPattern_reads [] m_pattern
    (Nat.le_refl _) ⟨0, [], [], false⟩ rfl
  have hpieces : LogFormatter.pieces m_pattern = (P', e') := by
    rw [LogFormatter.pieces]
    rw [List.nil_append] at hvec herror
    simp only [hvec, herror, List.nil_append, Bool.false_or]
  rw [hpieces, Prod.mk.injEq]
  constructor
  · rintro ⟨rfl, rfl⟩
    exact hreads
  · exact hreads.unique

end Sone

end LinuxTest
