/-
The dates of conditional requests: `util::compareGMTStr` on the texts that
`Timestamp::toGMTString` writes, with `localtime_r` taken as the Gregorian
calendar at a fixed offset.
-/
import LinuxTest.Calendar
import LinuxTest.HttpServer

namespace LinuxTest

namespace Sone

/-! ### Reading a date -/

/-- `struct date` of `compareGMTStr`. -/
structure GmtDate where
  year : Nat
  month : Nat
  day : Nat
  hour : Nat
  minute : Nat
  sec : Nat
deriving DecidableEq

/-- `MONTH_MAP`. -/
def monthMap : List (Bytes × Nat) :=
  [(lit "Jan", 1), (lit "Feb", 2), (lit "Mar", 3), (lit "Apr", 4),
    (lit "May", 5), (lit "Jun", 6), (lit "Jul", 7), (lit "Aug", 8),
    (lit "Sept", 9), (lit "Oct", 10), (lit "Nov", 11), (lit "Dec", 12)]

/-- `MONTH_MAP[name]`; a name without an entry gets one with the value 0. -/
def monthNumber (name : Bytes) : Nat :=
  ((monthMap.find? fun entry => caseKey entry.1 = caseKey name).map
    Prod.snd).getD 0

/-- `atoi` of a text of digits, which the groups of the pattern are. -/
def atoi (text : Bytes) : Nat :=
  text.foldl (fun value digit => 10 * value + (digit.toNat - 48)) 0

/-- A class repeated from `low` to `high` times: the stretch it matches and the
text behind.  In the pattern a character outside the class always follows, so
that only the longest stretch can go on. -/
def takeClass (member : UInt8 → Bool) (low high : Nat) (text : Bytes) :
    Option (Bytes × Bytes) :=
  let taken := (text.take high).takeWhile member
  if low ≤ taken.length then some (taken, text.drop taken.length) else none

/-- Plain characters of the pattern, which ignores case. -/
def takeText (plain text : Bytes) : Option Bytes :=
  if (text.take plain.length).map toLower = plain.map toLower then
    some (text.drop plain.length)
  else none

/-- The pattern of `compareGMTStr` at the start of a text, and what the code
makes of its groups. -/
def matchGMT (text : Bytes) : Option GmtDate := do
  let (_, text) ← takeClass isLetter 3 3 text
  let text ← takeText (lit ", ") text
  let (day, text) ← takeClass isDigit 1 2 text
  let text ← takeText (lit " ") text
  let (month, text) ← takeClass isLetter 3 4 text
  let text ← takeText (lit " ") text
  let (year, text) ← takeClass isDigit 4 4 text
  let text ← takeText (lit " ") text
  let (hour, text) ← takeClass isDigit 2 2 text
  let text ← takeText (lit ":") text
  let (minute, text) ← takeClass isDigit 2 2 text
  let text ← takeText (lit ":") text
  let (sec, text) ← takeClass isDigit 2 2 text
  let _ ← takeText (lit " GMT") text
  return ⟨atoi year, monthNumber month, atoi day, atoi hour, atoi minute,
    atoi sec⟩

/-- `regex_search`: the first place where the pattern matches. -/
def searchGMT : Bytes → Option GmtDate
  | [] => none
  | c :: rest => (matchGMT (c :: rest)).or (searchGMT rest)

/-- The comparisons at the end of `compareGMTStr`. -/
def compareDates (d1 d2 : GmtDate) : Bool :=
  if d1.year > d2.year then true
  else if d1.year < d2.year then false
  else if d1.month > d2.month then true
  else if d1.month < d2.month then false
  else if d1.day > d2.day then true
  else if d1.day < d2.day then false
  else if d1.hour > d2.hour then true
  else if d1.hour < d2.hour then false
  else if d1.minute > d2.minute then true
  else if d1.minute < d2.minute then false
  else if d1.sec ≥ d2.sec then true
  else false

/-- `util::compareGMTStr`.  A date that is not found keeps what its variable
held, which the code never set: `stale`. -/
def compareGMTStr (stale : GmtDate × GmtDate) (s1 s2 : Bytes) : Bool :=
  compareDates ((searchGMT s1).getD stale.1) ((searchGMT s2).getD stale.2)

theorem weekday_lt (days : Int) : (days % 7).toNat < 7 := by
  omega

/-- `localtime_r` at a fixed offset from the epoch's clock. -/
def gregorianTime (offset sec : Int) : Tm :=
  let m := Moment.ofSeconds (sec + offset)
  { weekday := ⟨(((sec + offset) / 86400 + 4) % 7).toNat, weekday_lt _⟩
    day := m.date.day
    month := m.date.month
    year := m.date.year.toNat
    hour := m.hour
    minute := m.minute
    second := m.second }

/-! ### What the code reads in a date it wrote -/

theorem takeClass_append {member : UInt8 → Bool} {low high : Nat}
    {taken plain : Bytes} (hmember : ∀ byte ∈ taken, member byte)
    (hlow : low ≤ taken.length) (hhigh : taken.length ≤ high)
    (hplain : plain.head?.map member = some false) (rest : Bytes) :
    takeClass member low high (taken ++ (plain ++ rest)) =
      some (taken, plain ++ rest) := by
  obtain ⟨byte, more, rfl⟩ : ∃ byte more, plain = byte :: more := by
    cases plain with
    | nil => cases hplain
    | cons byte more => exact ⟨byte, more, rfl⟩
  have hbyte : member byte = false := by simpa using hplain
  have hstop : ((byte :: more ++ rest).take (high - taken.length)).takeWhile
      member = [] := by
    cases high - taken.length <;> simp [hbyte]
  have htaken : ((taken ++ (byte :: more ++ rest)).take high).takeWhile
      member = taken := by
    rw [List.take_append, List.take_of_length_le hhigh,
      List.takeWhile_append_of_pos hmember, hstop, List.append_nil]
  rw [takeClass]
  simp only [htaken, if_pos hlow, List.drop_left]

theorem takeText_append (plain rest : Bytes) :
    takeText plain (plain ++ rest) = some rest := by
  simp [takeText]

theorem isDigit_iff (byte : UInt8) :
    isDigit byte ↔ 48 ≤ byte.toNat ∧ byte.toNat ≤ 57 := by
  simp [isDigit, UInt8.le_iff_toNat_le]

theorem atoi_digitChars {chars : List Char} (hchars : ∀ c ∈ chars,
    c.toNat ≤ 57) (init : Nat) :
    (chars.map fun c => UInt8.ofNat c.toNat).foldl
      (fun value digit => 10 * value + (digit.toNat - 48)) init =
      Nat.ofDigitChars 10 chars init := by
  induction chars generalizing init with
  | nil => rfl
  | cons c rest ih =>
      rw [List.forall_mem_cons] at hchars
      have hbyte : (UInt8.ofNat c.toNat).toNat = c.toNat := by
        rw [UInt8.toNat_ofNat']
        omega
      rw [List.map_cons, List.foldl_cons, ih hchars.2,
        Nat.ofDigitChars_cons, hbyte]
      rfl

/-- The digits of a number read back as the number. -/
theorem decimal_digits (n : Nat) :
    (∀ byte ∈ decimal n, isDigit byte) ∧ atoi (decimal n) = n := by
  have hdigit : ∀ c ∈ Nat.toDigits 10 n, 48 ≤ c.toNat ∧ c.toNat ≤ 57 := by
    intro c hc
    have hisDigit := Nat.isDigit_of_mem_toDigits (by decide) (by decide) hc
    simp only [Char.isDigit, Bool.and_eq_true, decide_eq_true_eq] at hisDigit
    exact hisDigit
  constructor
  · intro byte hbyte
    obtain ⟨c, hc, rfl⟩ := List.mem_map.mp hbyte
    have hrange := hdigit c hc
    rw [isDigit_iff, UInt8.toNat_ofNat']
    omega
  · rw [atoi, decimal, atoi_digitChars fun c hc => (hdigit c hc).2]
    exact Nat.ofDigitChars_toDigits (by decide) (by decide)

theorem decimal_length {n : Nat} (hlow : 1000 ≤ n) (hhigh : n ≤ 9999) :
    (decimal n).length = 4 := by
  have hfour : (Nat.toDigits 10 n).length ≤ 4 :=
    (Nat.length_toDigits_le_iff (by decide) (by decide)).mpr (by omega)
  have hthree : ¬ (Nat.toDigits 10 n).length ≤ 3 := by
    rw [Nat.length_toDigits_le_iff (by decide) (by decide)]
    omega
  rw [decimal, List.length_map]
  omega

theorem twoDigits_digits : ∀ n < 100, (twoDigits n).length = 2 ∧
    (∀ byte ∈ twoDigits n, isDigit byte) ∧ atoi (twoDigits n) = n := by
  decide +kernel

theorem dayName_letters : ∀ day : Fin 7, (dayName day).length = 3 ∧
    ∀ byte ∈ dayName day, isLetter byte := by
  decide +kernel

theorem monthName_letters : ∀ month : Fin 12, (monthName month).length = 3 ∧
    ∀ byte ∈ monthName month, isLetter byte := by
  decide +kernel

/-- The number that a month has for the code: the table has no entry for the
name that `strftime` gives to September. -/
def readMonth (month : Fin 12) : Nat :=
  if month.val = 8 then 0 else month.val + 1

theorem monthNumber_monthName : ∀ month : Fin 12,
    monthNumber (monthName month) = readMonth month := by
  decide

/-- The ranges in which `strftime` prints two digits, and four for the year. -/
structure Tm.Printable (t : Tm) : Prop where
  year_ge : 1000 ≤ t.year
  year_le : t.year ≤ 9999
  day_lt : t.day < 100
  hour_lt : t.hour < 100
  minute_lt : t.minute < 100
  second_lt : t.second < 100

/-- What `compareGMTStr` takes a date for. -/
def Tm.readBack (t : Tm) : GmtDate :=
  ⟨t.year, readMonth t.month, t.day, t.hour, t.minute, t.second⟩

theorem Tm.toGMTString_eq (t : Tm) :
    t.toGMTString = dayName t.weekday ++ (lit ", " ++ (twoDigits t.day ++
      (lit " " ++ (monthName t.month ++ (lit " " ++ (decimal t.year ++
        (lit " " ++ (twoDigits t.hour ++ (lit ":" ++ (twoDigits t.minute ++
          (lit ":" ++ (twoDigits t.second ++ (lit " GMT" ++ [])))))))))))))
      := by
  simp only [Tm.toGMTString, List.append_assoc, List.append_nil]

theorem some_bind {A B : Type} (a : A) (next : A → Option B) :
    (some a >>= next) = next a := rfl

theorem matchGMT_toGMTString {t : Tm} (ht : t.Printable) :
    matchGMT t.toGMTString = some t.readBack := by
  obtain ⟨hyear, hyear', hday, hhour, hminute, hsecond⟩ := ht
  obtain ⟨hdayNameLength, hdayName⟩ := dayName_letters t.weekday
  obtain ⟨hmonthLength, hmonth⟩ := monthName_letters t.month
  obtain ⟨hdayLength, hdayDigits, hdayValue⟩ := twoDigits_digits t.day hday
  obtain ⟨hhourLength, hhourDigits, hhourValue⟩ :=
    twoDigits_digits t.hour hhour
  obtain ⟨hminuteLength, hminuteDigits, hminuteValue⟩ :=
    twoDigits_digits t.minute hminute
  obtain ⟨hsecondLength, hsecondDigits, hsecondValue⟩ :=
    twoDigits_digits t.second hsecond
  obtain ⟨hyearDigits, hyearValue⟩ := decimal_digits t.year
  have hyearLength := decimal_length hyear hyear'
  rw [Tm.toGMTString_eq, matchGMT]
  rw [takeClass_append hdayName hdayNameLength.ge hdayNameLength.le rfl]
  dsimp only [some_bind]
  rw [takeText_append, some_bind]
  rw [takeClass_append hdayDigits (by omega) hdayLength.le rfl]
  dsimp only [some_bind]
  rw [takeText_append, some_bind]
  rw [takeClass_append hmonth hmonthLength.ge (by omega) rfl]
  dsimp only [some_bind]
  rw [takeText_append, some_bind]
  rw [takeClass_append hyearDigits hyearLength.ge hyearLength.le rfl]
  dsimp only [some_bind]
  rw [takeText_append, some_bind]
  rw [takeClass_append hhourDigits hhourLength.ge hhourLength.le rfl]
  dsimp only [some_bind]
  rw [takeText_append, some_bind]
  rw [takeClass_append hminuteDigits hminuteLength.ge hminuteLength.le rfl]
  dsimp only [some_bind]
  rw [takeText_append, some_bind]
  rw [takeClass_append hsecondDigits hsecondLength.ge hsecondLength.le rfl]
  dsimp only [some_bind]
  rw [takeText_append, some_bind]
  rw [hyearValue, hdayValue, hhourValue, hminuteValue, hsecondValue,
    monthNumber_monthName]
  rfl

theorem searchGMT_of_match {text : Bytes} {d : GmtDate}
    (hmatch : matchGMT text = some d) : searchGMT text = some d := by
  cases text with
  | nil => cases hmatch
  | cons c rest => rw [searchGMT, hmatch, Option.some_or]

/-! ### The order of the dates -/

/-- From years down to seconds. -/
def GmtDate.rank (d : GmtDate) : ℕ ×ₗ ℕ ×ₗ ℕ ×ₗ ℕ ×ₗ ℕ ×ₗ ℕ :=
  toLex (d.year, toLex (d.month, toLex (d.day, toLex (d.hour,
    toLex (d.minute, d.sec)))))

/-- One level of the comparisons is one level of a lexicographic order. -/
theorem compareLevel_iff {field other : Nat} {deeper : Bool} {later : Prop}
    (hdeeper : deeper ↔ later) :
    (if field > other then true else if field < other then false else deeper) =
      true ↔ other < field ∨ other = field ∧ later := by
  rcases lt_trichotomy field other with hlt | heq | hgt
  · simp [hlt, hlt.not_gt, hlt.ne']
  · simp [heq, hdeeper]
  · simp [hgt]

theorem compareDates_iff (d1 d2 : GmtDate) :
    compareDates d1 d2 ↔ d2.rank ≤ d1.rank := by
  simp only [GmtDate.rank, Prod.Lex.toLex_le_toLex]
  have hsec : (if d1.sec ≥ d2.sec then true else false) = true ↔
      d2.sec ≤ d1.sec := by simp
  exact compareLevel_iff (compareLevel_iff (compareLevel_iff
    (compareLevel_iff (compareLevel_iff hsec))))

/-- One date in September and the other earlier in the same year. -/
def SeptemberClash (t1 t2 : Tm) : Prop :=
  t1.year = t2.year ∧
    ((t1.month.val = 8 ∧ t2.month.val < 8) ∨
      (t2.month.val = 8 ∧ t1.month.val < 8))

theorem gregorianTime_printable {offset sec : Int}
    (hlow : 1000 ≤ (gregorianTime offset sec).year)
    (hhigh : (gregorianTime offset sec).year ≤ 9999) :
    (gregorianTime offset sec).Printable := by
  have hday := (Moment.ofSeconds (sec + offset)).date.day_le
  have hmonth := daysIn_le (Moment.ofSeconds (sec + offset)).date.year
    (Moment.ofSeconds (sec + offset)).date.month
  have hhour := (Moment.ofSeconds (sec + offset)).hour_lt
  have hminute := (Moment.ofSeconds (sec + offset)).minute_lt
  have hsecond := (Moment.ofSeconds (sec + offset)).second_lt
  refine ⟨hlow, hhigh, ?_, ?_, ?_, ?_⟩ <;> simp only [gregorianTime] <;> omega

/-- `compareGMTStr` of two dates that the server wrote. -/
theorem compareGMTStr_toGMTString {t1 t2 : Tm} (h1 : t1.Printable)
    (h2 : t2.Printable) (stale : GmtDate × GmtDate) :
    compareGMTStr stale t1.toGMTString t2.toGMTString ↔
      t2.readBack.rank ≤ t1.readBack.rank := by
  rw [compareGMTStr, searchGMT_of_match (matchGMT_toGMTString h1),
    searchGMT_of_match (matchGMT_toGMTString h2)]
  exact compareDates_iff _ _

theorem readMonth_lt_iff : ∀ m1 m2 : Fin 12,
    ¬ ((m1.val = 8 ∧ m2.val < 8) ∨ (m2.val = 8 ∧ m1.val < 8)) →
      ((readMonth m2 < readMonth m1 ↔ m2.val < m1.val) ∧
        (readMonth m2 = readMonth m1 ↔ m2.val = m1.val)) := by
  decide

/-- In a clash September comes first. -/
theorem readMonth_clash : ∀ m1 m2 : Fin 12, m1.val = 8 → m2.val < 8 →
    readMonth m1 < readMonth m2 ∧ m2.val < m1.val := by
  decide

/-- Without a clash the dates are in the order of the times. -/
theorem readBack_rank_le_iff {offset t1 t2 : Int}
    (h1 : 1000 ≤ (gregorianTime offset t1).year)
    (h2 : 1000 ≤ (gregorianTime offset t2).year)
    (hclash : ¬ SeptemberClash (gregorianTime offset t1)
      (gregorianTime offset t2)) :
    (gregorianTime offset t2).readBack.rank ≤
      (gregorianTime offset t1).readBack.rank ↔ t2 ≤ t1 := by
  rw [← Int.add_le_add_iff_right offset, ← Moment.rank_le_iff]
  simp only [gregorianTime, SeptemberClash] at h1 h2 hclash
  simp only [GmtDate.rank, Moment.rank, Prod.Lex.toLex_le_toLex, Tm.readBack,
    gregorianTime]
  generalize Moment.ofSeconds (t1 + offset) = m1 at h1 hclash ⊢
  generalize Moment.ofSeconds (t2 + offset) = m2 at h2 hclash ⊢
  by_cases hyear : m2.date.year = m1.date.year
  · have hmonths := readMonth_lt_iff m1.date.month m2.date.month
      (fun hmonth => hclash ⟨by rw [hyear], hmonth⟩)
    rw [hyear, hmonths.1, hmonths.2]
    simp only [lt_self_iff_false, true_and, false_or]
  · have hne : m2.date.year.toNat ≠ m1.date.year.toNat := by omega
    have hlt : m2.date.year.toNat < m1.date.year.toNat ↔
        m2.date.year < m1.date.year := by omega
    simp only [hyear, hne, hlt, false_and, or_false]

/-- With September first, the dates are in the opposite order. -/
theorem readBack_rank_clash {offset t1 t2 : Int}
    (hyear : (gregorianTime offset t1).year = (gregorianTime offset t2).year)
    (h2 : 1000 ≤ (gregorianTime offset t2).year)
    (hseptember : (gregorianTime offset t1).month.val = 8)
    (hearlier : (gregorianTime offset t2).month.val < 8) :
    (gregorianTime offset t1).readBack.rank <
      (gregorianTime offset t2).readBack.rank ∧ t2 < t1 := by
  obtain ⟨hread, hmonth⟩ := readMonth_clash _ _ hseptember hearlier
  constructor
  · simp only [GmtDate.rank, Prod.Lex.toLex_lt_toLex, Tm.readBack]
    exact Or.inr ⟨hyear, Or.inl hread⟩
  · have hlt : (Moment.ofSeconds (t2 + offset)).rank <
        (Moment.ofSeconds (t1 + offset)).rank := by
      simp only [gregorianTime] at hyear h2 hmonth
      simp only [Moment.rank, Prod.Lex.toLex_lt_toLex]
      exact Or.inr ⟨by omega, Or.inl hmonth⟩
    have hsum := Moment.rank_ofSeconds_strictMono.lt_iff_lt.mp hlt
    omega

/-! ### Conditional requests -/

/-- `compareGMTStr` orders the dates of two times as the times. -/
def OrdersDates (offset : Int) (stale : GmtDate × GmtDate) (t1 t2 : Int) :
    Prop :=
  compareGMTStr stale (gregorianTime offset t1).toGMTString
    (gregorianTime offset t2).toGMTString ↔ t2 ≤ t1

/-- Asked with the date of `t1` about a file last modified at `t2`,
`createResponse` answers 304 when the file has not been modified since. -/
def AnswersNotModified (offset : Int) (stale : GmtDate × GmtDate)
    (t1 t2 : Int) : Prop :=
  ∀ (w : World) (req : HttpRequest) (reqTime : Int),
    w.localtime = gregorianTime offset → w.compareGMTStr = compareGMTStr stale →
    w.openFile (openedPath req) = some t2 →
    req.getHeader (lit "If-Modified-Since") = w.toGMTString t1 →
    ((createResponse w req reqTime).state = .notModified ↔ t2 ≤ t1)

theorem toGMTString_ne_nil (t : Tm) : t.toGMTString ≠ [] := by
  simp [Tm.toGMTString, lit]

theorem createResponse_notModified_iff {w : World} {req : HttpRequest}
    {reqTime mtime : Int} (hfile : w.openFile (openedPath req) = some mtime)
    (hheader : req.getHeader (lit "If-Modified-Since") ≠ []) :
    (createResponse w req reqTime).state = .notModified ↔
      w.compareGMTStr (req.getHeader (lit "If-Modified-Since"))
        (w.toGMTString mtime) := by
  rw [createResponse]
  simp only [hfile, Option.getD_some, Option.isSome_some, ne_eq, hheader,
    not_false_eq_true, true_and]
  split
  · case isTrue hcompare => simp [hcompare]
  · case isFalse hcompare =>
      simp only [hcompare]
      simp [fileResponse]

theorem ordersDates_iff {offset t1 t2 : Int} (stale : GmtDate × GmtDate)
    (h1 : (gregorianTime offset t1).Printable)
    (h2 : (gregorianTime offset t2).Printable) :
    OrdersDates offset stale t1 t2 ↔
      ¬ SeptemberClash (gregorianTime offset t1) (gregorianTime offset t2) := by
  rw [OrdersDates, compareGMTStr_toGMTString h1 h2]
  constructor
  · rintro horder ⟨hyear, ⟨hseptember, hearlier⟩ | ⟨hseptember, hearlier⟩⟩
    · obtain ⟨hread, hlt⟩ :=
        readBack_rank_clash hyear h2.year_ge hseptember hearlier
      exact absurd (horder.mpr hlt.le) hread.not_ge
    · obtain ⟨hread, hlt⟩ :=
        readBack_rank_clash hyear.symm h1.year_ge hseptember hearlier
      exact absurd (horder.mp hread.le) hlt.not_ge
  · exact readBack_rank_le_iff h1.year_ge h2.year_ge

/-- The dates of four-digit years are compared as their times, and conditional
requests answered accordingly, exactly when none of the two is in September
with the other earlier in the same year. -/
theorem conditional_requests_iff (offset : Int) (stale : GmtDate × GmtDate)
    {t1 t2 : Int}
    (h1 : 1000 ≤ (gregorianTime offset t1).year ∧
      (gregorianTime offset t1).year ≤ 9999)
    (h2 : 1000 ≤ (gregorianTime offset t2).year ∧
      (gregorianTime offset t2).year ≤ 9999) :
    OrdersDates offset stale t1 t2 ∧ AnswersNotModified offset stale t1 t2 ↔
      ¬ SeptemberClash (gregorianTime offset t1) (gregorianTime offset t2) := by
  have horders := ordersDates_iff stale (gregorianTime_printable h1.1 h1.2)
    (gregorianTime_printable h2.1 h2.2)
  refine ⟨fun h => horders.mp h.1, fun hclash => ?_⟩
  refine ⟨horders.mpr hclash, ?_⟩
  intro w req reqTime hlocaltime hcompare hfile hheader
  have hdate (sec : Int) :
      w.toGMTString sec = (gregorianTime offset sec).toGMTString := by
    rw [World.toGMTString, hlocaltime]
  rw [createResponse_notModified_iff hfile
    (by rw [hheader, hdate]; exact toGMTString_ne_nil _), hheader, hdate,
    hdate, hcompare]
  exact horders.mpr hclash

theorem conditional_requests_january :
    OrdersDates 0 (⟨0, 0, 0, 0, 0, 0⟩, ⟨0, 0, 0, 0, 0, 0⟩) 86400 0 ∧
      AnswersNotModified 0 (⟨0, 0, 0, 0, 0, 0⟩, ⟨0, 0, 0, 0, 0, 0⟩)
        86400 0 := by
  rw [conditional_requests_iff 0 _ (by decide +kernel) (by decide +kernel)]
  rintro ⟨_, ⟨hseptember, _⟩ | ⟨hseptember, _⟩⟩
  · exact absurd hseptember (by decide +kernel)
  · exact absurd hseptember (by decide +kernel)

/-- The first of September 1970 is not taken to be later than the first of
January. -/
theorem september_before_january :
    (gregorianTime 0 20995200).toGMTString =
        lit "Tue, 01 Sep 1970 00:00:00 GMT" ∧
      compareGMTStr (⟨0, 0, 0, 0, 0, 0⟩, ⟨0, 0, 0, 0, 0, 0⟩)
        (gregorianTime 0 20995200).toGMTString
        (gregorianTime 0 0).toGMTString = false ∧
      ¬ OrdersDates 0 (⟨0, 0, 0, 0, 0, 0⟩, ⟨0, 0, 0, 0, 0, 0⟩) 20995200 0 := by
  have hcompare : compareGMTStr (⟨0, 0, 0, 0, 0, 0⟩, ⟨0, 0, 0, 0, 0, 0⟩)
      (gregorianTime 0 20995200).toGMTString
      (gregorianTime 0 0).toGMTString = false := by
    decide +kernel
  refine ⟨by decide +kernel, hcompare, ?_⟩
  intro horders
  exact absurd (horders.mpr (by decide)) (by simp [hcompare])

end Sone

end LinuxTest
