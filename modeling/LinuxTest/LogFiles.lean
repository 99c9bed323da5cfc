/-
`Logger::log` and the files of its appenders in `http_server/Log.cpp`.  An
appender opens its file again three seconds after it last did, so that a log
that was moved away is made anew.
-/
import LinuxTest.AppendFiles
import LinuxTest.LogFormatter
import LinuxTest.MachineInt
import LinuxTest.Runs

namespace LinuxTest

namespace Sone

universe u v w

def LogLevel.value : LogLevel → Nat
  | .unknow => 0
  | .debug => 1
  | .info => 2
  | .warn => 3
  | .error => 4
  | .fatal => 5

/-- An `ofstream`: the file it has open, and `failbit` or `badbit`. -/
structure Filestream where
  handle : Option Nat
  fail : Bool
deriving DecidableEq

structure FileLogAppender (K : Type u) where
  m_filename : K
  m_level : LogLevel
  m_lastTime : Nat
  m_filestream : Filestream
deriving DecidableEq

/-- Whether the file can be opened, and whether it takes the line. -/
structure Answer where
  opens : Bool
  writes : Bool
deriving DecidableEq

namespace Filestream

variable {K : Type u} {E : Type v} [DecidableEq K]

/-- There has to be a file to close. -/
def close (f : Filestream) : Filestream :=
  match f.handle with
  | some _ => { f with handle := none }
  | none => { f with fail := true }

/-- A second file is not opened; success clears the flags. -/
def openFile (name : K) (opens : Bool) (f : Filestream) (d : Disk K E) :
    Filestream × Disk K E :=
  match f.handle with
  | some _ => ({ f with fail := true }, d)
  | none =>
      if opens then
        (⟨some (d.openAppend name).1, false⟩, (d.openAppend name).2)
      else
        ({ f with fail := true }, d)

end Filestream

namespace FileLogAppender

variable {K : Type u} {E : Type v} [DecidableEq K]

def reopen (opens : Bool) (appender : FileLogAppender K) (d : Disk K E) :
    FileLogAppender K × Disk K E :=
  let f := if appender.m_filestream.fail then appender.m_filestream
    else appender.m_filestream.close
  let r := f.openFile appender.m_filename opens d
  ({ appender with m_filestream := r.1 }, r.2)

/-- The constructor. -/
def new (m_filename : K) (opens : Bool) (d : Disk K E) :
    FileLogAppender K × Disk K E :=
  reopen opens ⟨m_filename, .debug, 0, ⟨none, false⟩⟩ d

/-- `now >= (m_lastTime + 3)`. -/
def due (now : Nat) (appender : FileLogAppender K) : Bool :=
  asSize (appender.m_lastTime + 3) ≤ now

def refresh (now : Nat) (opens : Bool) (appender : FileLogAppender K)
    (d : Disk K E) : FileLogAppender K × Disk K E :=
  if appender.due now then
    let r := appender.reopen opens d
    ({ r.1 with m_lastTime := now }, r.2)
  else
    (appender, d)

/-- What the formatter writes; nothing goes to a stream that has failed. -/
def write (writes : Bool) (line : E) (appender : FileLogAppender K)
    (d : Disk K E) : FileLogAppender K × Disk K E :=
  if appender.m_filestream.fail then
    (appender, d)
  else
    match appender.m_filestream.handle with
    | some n =>
        if writes then (appender, d.append n line)
        else ({ appender with m_filestream := ⟨some n, true⟩ }, d)
    | none => ({ appender with m_filestream := ⟨none, true⟩ }, d)

/-- `FileLogAppender::log`, where the level is high enough. -/
def log (now : Nat) (answer : Answer) (line : E)
    (appender : FileLogAppender K) (d : Disk K E) :
    FileLogAppender K × Disk K E :=
  let r := appender.refresh now answer.opens d
  r.1.write answer.writes line r.2

/-- The line gets into a file. -/
def Writes (now : Nat) (answer : Answer) (appender : FileLogAppender K) :
    Prop :=
  answer.writes = true ∧
    if appender.due now then answer.opens = true ∧
      (appender.m_filestream.handle = none ∨
        appender.m_filestream.fail = false)
    else appender.m_filestream.handle ≠ none ∧
      appender.m_filestream.fail = false

instance (now : Nat) (answer : Answer) (appender : FileLogAppender K) :
    Decidable (appender.Writes now answer) :=
  inferInstanceAs (Decidable (_ ∧ ite _ _ _))

end FileLogAppender

namespace FileLogAppender

variable {K : Type u} {E : Type v} [DecidableEq K] {mine : E → Bool}
  {appender : FileLogAppender K} {d : Disk K E}

/-- The appender is at the last of its files. -/
def Follows (mine : E → Bool) (appender : FileLogAppender K)
    (d : Disk K E) : Prop :=
  d.Follows mine appender.m_filename appender.m_filestream.handle

/-- After a failed write the file stays open, and no other is opened. -/
def Stuck (appender : FileLogAppender K) : Prop :=
  appender.m_filestream.handle ≠ none ∧ appender.m_filestream.fail = true

theorem reopen_of_stuck (hstuck : appender.Stuck) (opens : Bool)
    (d : Disk K E) : appender.reopen opens d = (appender, d) := by
  obtain ⟨m_filename, m_level, m_lastTime, handle, fail⟩ := appender
  obtain ⟨hopen, hfail⟩ := hstuck
  obtain ⟨n, rfl⟩ := Option.ne_none_iff_exists'.mp hopen
  obtain rfl : fail = true := hfail
  rfl

theorem reopen_of_not_stuck (hfree : ¬appender.Stuck) (opens : Bool)
    (d : Disk K E) : appender.reopen opens d =
      if opens then
        ({ appender with m_filestream :=
            ⟨some (d.openAppend appender.m_filename).1, false⟩ },
          (d.openAppend appender.m_filename).2)
      else
        ({ appender with m_filestream := ⟨none, true⟩ }, d) := by
  obtain ⟨m_filename, m_level, m_lastTime, handle, fail⟩ := appender
  cases handle with
  | none => cases fail <;> cases opens <;> rfl
  | some n =>
      cases fail with
      | false => cases opens <;> rfl
      | true => exact absurd ⟨by simp, rfl⟩ hfree

/-- What a call does to the files: the appender may open its own, and may write
the line to the one it has open. -/
structure Logged (mine : E → Bool) (appender next : FileLogAppender K)
    (after : Disk K E) : Prop where
  m_filename : next.m_filename = appender.m_filename
  linked : after.Linked
  follows : next.Follows mine after

theorem follows_reopen (hd : d.Linked) (hf : appender.Follows mine d)
    (opens : Bool) :
    Logged mine appender (appender.reopen opens d).1
      (appender.reopen opens d).2 := by
  by_cases hstuck : appender.Stuck
  · rw [reopen_of_stuck hstuck]
    exact ⟨rfl, hd, hf⟩
  · rw [reopen_of_not_stuck hstuck]
    cases opens with
    | true => exact ⟨rfl, hd.openAppend _, hf.opened hd⟩
    | false => exact ⟨rfl, hd, hf.closed⟩

theorem follows_refresh (hd : d.Linked) (hf : appender.Follows mine d)
    (now : Nat) (opens : Bool) :
    Logged mine appender (appender.refresh now opens d).1
      (appender.refresh now opens d).2 := by
  rw [refresh]
  split
  · obtain ⟨hname, hlinked, hfollows⟩ := follows_reopen hd hf opens
    exact ⟨hname, hlinked, hfollows⟩
  · exact ⟨rfl, hd, hf⟩

omit [DecidableEq K] in
theorem follows_write (hd : d.Linked) (hf : appender.Follows mine d)
    (writes : Bool) (line : E) :
    Logged mine appender (appender.write writes line d).1
      (appender.write writes line d).2 := by
  rw [write]
  split
  · exact ⟨rfl, hd, hf⟩
  · split
    · case h_1 n hn =>
        split
        · exact ⟨rfl, hd.append n line, Disk.Follows.append hf fun _ => hn⟩
        · exact ⟨rfl, hd, hn ▸ hf⟩
    · case h_2 hn => exact ⟨rfl, hd, hn ▸ hf⟩

theorem follows_log (hd : d.Linked) (hf : appender.Follows mine d)
    (now : Nat) (answer : Answer) (line : E) :
    Logged mine appender (appender.log now answer line d).1
      (appender.log now answer line d).2 := by
  obtain ⟨hname, hlinked, hfollows⟩ :=
    follows_refresh hd hf now answer.opens
  obtain ⟨hname', hlinked', hfollows'⟩ :=
    follows_write hlinked hfollows answer.writes line
  exact ⟨hname'.trans hname, hlinked', hfollows'⟩

/-! ### The other writers -/

theorem follows_new (hd : d.Linked) (hnone : d.entries mine = [])
    (m_filename : K) (opens : Bool) :
    Logged mine ⟨m_filename, .debug, 0, ⟨none, false⟩⟩
      (new m_filename opens d).1 (new m_filename opens d).2 := by
  have hf : (⟨m_filename, .debug, 0, ⟨none, false⟩⟩ :
      FileLogAppender K).Follows mine d :=
    Disk.follows_of_entries hnone m_filename
  exact follows_reopen hd hf opens

theorem files_reopen (opens : Bool) (appender : FileLogAppender K)
    (d : Disk K E) : (appender.reopen opens d).2 = d ∨
      (appender.reopen opens d).2 = (d.openAppend appender.m_filename).2 := by
  by_cases hstuck : appender.Stuck
  · rw [reopen_of_stuck hstuck]
    exact Or.inl rfl
  · rw [reopen_of_not_stuck hstuck]
    cases opens with
    | true => exact Or.inr rfl
    | false => exact Or.inl rfl

/-- A new appender leaves the other writers at their files. -/
theorem others_new (m_filename : K) (opens : Bool) (d : Disk K E) :
    (∀ mine, (new m_filename opens d).2.entries mine = d.entries mine) ∧
      ∀ mine (other : FileLogAppender K), other.Follows mine d →
        other.Follows mine (new m_filename opens d).2 := by
  rw [new]
  obtain heq | heq := files_reopen opens
    (⟨m_filename, .debug, 0, ⟨none, false⟩⟩ : FileLogAppender K) d
  · rw [heq]
    exact ⟨fun _ => rfl, fun _ _ hother => hother⟩
  · rw [heq]
    exact ⟨fun mine => Disk.entries_openAppend mine _ d,
      fun _ _ hother => Disk.Follows.openAppend hother _⟩

theorem files_refresh (now : Nat) (opens : Bool)
    (appender : FileLogAppender K) (d : Disk K E) :
    (appender.refresh now opens d).2 = d ∨
      (appender.refresh now opens d).2 =
        (d.openAppend appender.m_filename).2 := by
  rw [refresh]
  split
  · exact files_reopen opens appender d
  · exact Or.inl rfl

omit [DecidableEq K] in
theorem files_write (writes : Bool) (line : E)
    (appender : FileLogAppender K) (d : Disk K E) :
    (appender.write writes line d).2 = d ∨
      ∃ n, (appender.write writes line d).2 = d.append n line := by
  rw [write]
  split
  · exact Or.inl rfl
  · split
    · case h_1 n _ =>
        split
        · exact Or.inr ⟨n, rfl⟩
        · exact Or.inl rfl
    · exact Or.inl rfl

/-- Another writer stays at its last file and keeps its lines. -/
theorem others_log (now : Nat) (answer : Answer) {line : E}
    (hline : mine line = false) (appender : FileLogAppender K)
    (d : Disk K E) :
    (appender.log now answer line d).2.entries mine = d.entries mine ∧
      ∀ other : FileLogAppender K, other.Follows mine d →
        other.Follows mine (appender.log now answer line d).2 := by
  rw [log]
  generalize hr : appender.refresh now answer.opens d = r
  have hmid : r.2.entries mine = d.entries mine ∧
      ∀ other : FileLogAppender K, other.Follows mine d →
        other.Follows mine r.2 := by
    obtain heq | heq := files_refresh now answer.opens appender d
    · rw [← hr, heq]
      exact ⟨rfl, fun _ hother => hother⟩
    · rw [← hr, heq]
      exact ⟨Disk.entries_openAppend mine _ d,
        fun _ hother => Disk.Follows.openAppend hother _⟩
  obtain heq | ⟨n, heq⟩ := files_write answer.writes line r.1 r.2
  · rw [heq]
    exact hmid
  · rw [heq]
    refine ⟨(Disk.entries_append_other n hline).trans hmid.1,
      fun other hother => ?_⟩
    refine Disk.Follows.append (hmid.2 other hother) fun htrue => ?_
    rw [hline] at htrue
    cases htrue

/-! ### The line -/

omit [DecidableEq K] in
theorem entries_write (hf : appender.Follows mine d) (writes : Bool)
    {line : E} (hline : mine line = true) :
    (appender.write writes line d).2.entries mine = d.entries mine ++
      if writes = true ∧ appender.m_filestream.handle ≠ none ∧
        appender.m_filestream.fail = false then [line] else [] := by
  rw [write]
  split
  · case isTrue hfail => simp [hfail]
  · case isFalse hfail =>
      split
      · case h_1 n hn =>
          obtain ⟨hlt, hupTo, -⟩ := hf.handle n hn
          cases writes with
          | true =>
              rw [if_pos rfl, Disk.entries_append hlt hupTo hline]
              simp [hfail, hn]
          | false => simp
      · case h_2 hn => simp [hn]

theorem writes_iff (now : Nat) (answer : Answer)
    (appender : FileLogAppender K) (d : Disk K E) :
    (answer.writes = true ∧
      (appender.refresh now answer.opens d).1.m_filestream.handle ≠ none ∧
      (appender.refresh now answer.opens d).1.m_filestream.fail = false) ↔
      appender.Writes now answer := by
  refine and_congr_right fun _ => ?_
  rw [refresh]
  by_cases hdue : appender.due now
  · rw [if_pos hdue, if_pos hdue]
    by_cases hstuck : appender.Stuck
    · rw [reopen_of_stuck hstuck]
      obtain ⟨hopen, hfail⟩ := hstuck
      simp [hopen, hfail]
    · rw [reopen_of_not_stuck hstuck]
      have hfree : appender.m_filestream.handle = none ∨
          appender.m_filestream.fail = false := by
        rw [Stuck, not_and_or, not_not, Bool.not_eq_true] at hstuck
        exact hstuck
      cases answer.opens with
      | true => simp [hfree]
      | false => simp
  · rw [if_neg hdue, if_neg hdue]

/-- The line is written once or not at all. -/
theorem entries_log (hd : d.Linked) (hf : appender.Follows mine d)
    (now : Nat) (answer : Answer) {line : E} (hline : mine line = true) :
    (appender.log now answer line d).2.entries mine = d.entries mine ++
      if appender.Writes now answer then [line] else [] := by
  have hfollows := (follows_refresh hd hf now answer.opens).follows
  have hfiles : (appender.refresh now answer.opens d).2.entries mine =
      d.entries mine := by
    obtain heq | heq := files_refresh now answer.opens appender d
    · rw [heq]
    · rw [heq, Disk.entries_openAppend]
  rw [log, entries_write hfollows answer.writes hline, hfiles]
  simp only [writes_iff]

end FileLogAppender

/-- A logger, the appender objects `A`, and the files; the lines of an appender
bear its name. -/
structure LogFiles (A : Type u) (K : Type v) (E : Type w) where
  m_level : LogLevel
  m_appenders : List A
  object : A → Option (FileLogAppender K)
  disk : Disk K (A × E)
  /-- The events that were logged to each appender at a level high enough.  The
  code does not keep them. -/
  accepted : A → List E

/-- The calls on a logger and its appenders; `remove` is whoever moves a file
away.  This takes away the name only: no file comes back, or to another log's
name. -/
inductive FileLogCommand (A : Type u) (K : Type v) (E : Type w) where
  | newAppender (a : A) (m_filename : K) (opens : Bool)
  | addAppender (a : A)
  | delAppender (a : A)
  | clearAppenders
  | setLevel (level : LogLevel)
  | setAppenderLevel (a : A) (level : LogLevel)
  | log (level : LogLevel) (now : Nat) (event : E) (answers : Nat → Answer)
  | remove (name : K)

namespace LogFiles

variable {A : Type u} {K : Type v} {E : Type w} [DecidableEq A]
  [DecidableEq K]

def init : LogFiles A K E :=
  ⟨.debug, [], fun _ => none, .blank, fun _ => []⟩

/-- One turn of the loop in `Logger::log`. -/
def logTo (level : LogLevel) (now : Nat) (event : E) (a : A)
    (answer : Answer) (s : LogFiles A K E) : LogFiles A K E :=
  match s.object a with
  | none => s
  | some appender =>
      if appender.m_level.value ≤ level.value then
        let r := appender.log now answer (a, event) s.disk
        { s with
          object := Function.update s.object a (some r.1)
          disk := r.2
          accepted := Function.update s.accepted a (s.accepted a ++ [event]) }
      else
        s

def logAll (level : LogLevel) (now : Nat) (event : E)
    (answers : Nat → Answer) : List A → Nat → LogFiles A K E → LogFiles A K E
  | [], _, s => s
  | a :: rest, i, s => logAll level now event answers rest (i + 1)
      (s.logTo level now event a (answers i))

/-- Without appenders the event would go to `m_root`, which is never set. -/
def log (level : LogLevel) (now : Nat) (event : E) (answers : Nat → Answer)
    (s : LogFiles A K E) : LogFiles A K E :=
  if s.m_level.value ≤ level.value then
    s.logAll level now event answers s.m_appenders 0
  else
    s

def step (s : LogFiles A K E) :
    FileLogCommand A K E → Option (LogFiles A K E)
  | .newAppender a m_filename opens =>
      match s.object a with
      | some _ => none
      | none =>
          let r := FileLogAppender.new m_filename opens s.disk
          some { s with
            object := Function.update s.object a (some r.1)
            disk := r.2 }
  | .addAppender a =>
      if s.object a = none then none
      else some { s with m_appenders := s.m_appenders ++ [a] }
  | .delAppender a => some { s with m_appenders := s.m_appenders.erase a }
  | .clearAppenders => some { s with m_appenders := [] }
  | .setLevel level => some { s with m_level := level }
  | .setAppenderLevel a level => (s.object a).map fun appender =>
      let appender := { appender with m_level := level }
      { s with object := Function.update s.object a (some appender) }
  | .log level now event answers => some (s.log level now event answers)
  | .remove name => some { s with disk := s.disk.remove name }

/-- The lines of an appender. -/
def mine (a : A) (line : A × E) : Bool :=
  line.1 = a

/-- What an appender has written, file after file. -/
def written (s : LogFiles A K E) (a : A) : List E :=
  (s.disk.entries (mine a)).map Prod.snd

/-- The files of each appender, one after the other, are its events. -/
def Kept (s : LogFiles A K E) : Prop :=
  ∀ a, s.written a = s.accepted a

def goodAll (level : LogLevel) (now : Nat) (event : E)
    (answers : Nat → Answer) : List A → Nat → LogFiles A K E → Prop
  | [], _, _ => True
  | a :: rest, i, s =>
      (∀ appender, s.object a = some appender →
        appender.m_level.value ≤ level.value →
        appender.Writes now (answers i)) ∧
      goodAll level now event answers rest (i + 1)
        (s.logTo level now event a (answers i))

/-- Every appender whose level is low enough can write the event. -/
def good (s : LogFiles A K E) : FileLogCommand A K E → Prop
  | .log level now event answers => s.m_level.value ≤ level.value →
      s.goodAll level now event answers s.m_appenders 0
  | _ => True

/-! ### One appender after the other -/

variable {s next : LogFiles A K E} {level : LogLevel} {now : Nat} {event : E}
  {a : A} {answer : Answer} {answers : Nat → Answer}

omit [DecidableEq K] in
theorem mine_self (a : A) (event : E) : mine a (a, event) = true := by
  simp [mine]

omit [DecidableEq K] in
theorem mine_other {a b : A} (hba : b ≠ a) (event : E) :
    mine b (a, event) = false := by
  simp [mine, Ne.symm hba]

/-- What always holds: each appender is at the last of its files, and the lines
in them are among its events. -/
structure Wf (s : LogFiles A K E) : Prop where
  linked : s.disk.Linked
  follows : ∀ a appender, s.object a = some appender →
    appender.Follows (mine a) s.disk
  fresh : ∀ a, s.object a = none → s.disk.entries (mine a) = []
  sublist : ∀ a, (s.written a).Sublist (s.accepted a)

omit [DecidableEq K] in
theorem wf_init : (init : LogFiles A K E).Wf := by
  refine ⟨Disk.linked_blank, ?_, fun _ _ => rfl, ?_⟩
  · intro a appender happender
    cases happender
  · intro a
    exact List.Sublist.refl []

/-- What happens to an event that gets to an appender. -/
theorem logTo_some {appender : FileLogAppender K}
    (hobject : s.object a = some appender)
    (hlevel : appender.m_level.value ≤ level.value) :
    s.logTo level now event a answer =
      { s with
        object := Function.update s.object a
          (some (appender.log now answer (a, event) s.disk).1)
        disk := (appender.log now answer (a, event) s.disk).2
        accepted :=
          Function.update s.accepted a (s.accepted a ++ [event]) } := by
  simp only [logTo, hobject, if_pos hlevel]

/-- Without the object, or below its level, nothing happens. -/
theorem logTo_of_not (hnot : ∀ appender, s.object a = some appender →
    ¬appender.m_level.value ≤ level.value) :
    s.logTo level now event a answer = s := by
  rw [logTo]
  split
  · rfl
  · case h_2 appender hobject => rw [if_neg (hnot appender hobject)]

theorem written_logTo (hs : s.Wf) {appender : FileLogAppender K}
    (hobject : s.object a = some appender)
    (hlevel : appender.m_level.value ≤ level.value) (b : A) :
    (s.logTo level now event a answer).written b =
      if b = a then s.written a ++
        if appender.Writes now answer then [event] else []
      else s.written b := by
  rw [logTo_some hobject hlevel]
  by_cases hba : b = a
  · subst hba
    have hlog := FileLogAppender.entries_log hs.linked
      (hs.follows b appender hobject) now answer (mine_self b event)
    rw [if_pos rfl]
    change ((appender.log now answer (b, event) s.disk).2.entries
      (mine b)).map Prod.snd = _
    rw [hlog, List.map_append, written]
    split <;> rfl
  · rw [if_neg hba]
    change ((appender.log now answer (a, event) s.disk).2.entries
      (mine b)).map Prod.snd = _
    rw [(FileLogAppender.others_log now answer (mine_other hba event) appender
      s.disk).1, written]

theorem accepted_logTo {appender : FileLogAppender K}
    (hobject : s.object a = some appender)
    (hlevel : appender.m_level.value ≤ level.value) (b : A) :
    (s.logTo level now event a answer).accepted b =
      if b = a then s.accepted a ++ [event] else s.accepted b := by
  rw [logTo_some hobject hlevel]
  change Function.update s.accepted a _ b = _
  by_cases hba : b = a
  · rw [hba, if_pos rfl, Function.update_self]
  · rw [if_neg hba, Function.update_of_ne hba]

omit [DecidableEq K] in
/-- One object is changed, and the others still follow their files. -/
theorem follows_update {object : A → Option (FileLogAppender K)}
    {appender : FileLogAppender K} {d : Disk K (A × E)}
    (hself : appender.Follows (mine a) d)
    (hothers : ∀ b, b ≠ a → ∀ other, object b = some other →
      other.Follows (mine b) d) (b : A) (other : FileLogAppender K)
    (hother : Function.update object a (some appender) b = some other) :
    other.Follows (mine b) d := by
  by_cases hba : b = a
  · subst hba
    rw [Function.update_self] at hother
    cases hother
    exact hself
  · rw [Function.update_of_ne hba] at hother
    exact hothers b hba other hother

omit [DecidableEq K] in
theorem ne_of_update {object : A → Option (FileLogAppender K)}
    {appender : FileLogAppender K} {b : A}
    (hnone : Function.update object a (some appender) b = none) :
    b ≠ a ∧ object b = none := by
  by_cases hba : b = a
  · subst hba
    rw [Function.update_self] at hnone
    cases hnone
  · rw [Function.update_of_ne hba] at hnone
    exact ⟨hba, hnone⟩

theorem Wf.logTo (hs : s.Wf) (level : LogLevel) (now : Nat) (event : E)
    (a : A) (answer : Answer) : (s.logTo level now event a answer).Wf := by
  by_cases hnot : ∀ appender, s.object a = some appender →
      ¬appender.m_level.value ≤ level.value
  · rw [logTo_of_not hnot]
    exact hs
  push Not at hnot
  obtain ⟨appender, hobject, hlevel⟩ := hnot
  have hlogged := FileLogAppender.follows_log hs.linked
    (hs.follows a appender hobject) now answer (a, event)
  have hothers (b : A) (hba : b ≠ a) := FileLogAppender.others_log now answer
    (mine_other hba event) appender s.disk
  have hsublist (b : A) :
      ((s.logTo level now event a answer).written b).Sublist
        ((s.logTo level now event a answer).accepted b) := by
    rw [written_logTo hs hobject hlevel, accepted_logTo hobject hlevel]
    by_cases hba : b = a
    · rw [if_pos hba, if_pos hba]
      refine (hs.sublist a).append ?_
      split
      · exact List.Sublist.refl [event]
      · exact List.nil_sublist [event]
    · rw [if_neg hba, if_neg hba]
      exact hs.sublist b
  rw [logTo_some hobject hlevel] at hsublist ⊢
  refine ⟨hlogged.linked, follows_update hlogged.follows ?_, ?_, hsublist⟩
  · intro b hba other hother
    exact (hothers b hba).2 other (hs.follows b other hother)
  · intro b hnone
    obtain ⟨hba, hnone⟩ := ne_of_update hnone
    exact (hothers b hba).1.trans (hs.fresh b hnone)

/-- What is missing stays missing. -/
theorem lag_logTo (hs : s.Wf) (level : LogLevel) (now : Nat) (event : E)
    (a : A) (answer : Answer) (b : A) :
    ((s.logTo level now event a answer).written b).length +
        (s.accepted b).length ≤
      (s.written b).length +
        ((s.logTo level now event a answer).accepted b).length := by
  by_cases hnot : ∀ appender, s.object a = some appender →
      ¬appender.m_level.value ≤ level.value
  · rw [logTo_of_not hnot]
  push Not at hnot
  obtain ⟨appender, hobject, hlevel⟩ := hnot
  rw [written_logTo hs hobject hlevel, accepted_logTo hobject hlevel]
  by_cases hba : b = a
  · subst hba
    rw [if_pos rfl, if_pos rfl, List.length_append, List.length_append]
    split
    · omega
    · rw [List.length_nil]
      omega
  · rw [if_neg hba, if_neg hba]

theorem kept_logTo_iff (hs : s.Wf) (hkept : s.Kept) (level : LogLevel)
    (now : Nat) (event : E) (a : A) (answer : Answer) :
    (s.logTo level now event a answer).Kept ↔
      ∀ appender, s.object a = some appender →
        appender.m_level.value ≤ level.value →
        appender.Writes now answer := by
  by_cases hnot : ∀ appender, s.object a = some appender →
      ¬appender.m_level.value ≤ level.value
  · rw [logTo_of_not hnot]
    exact iff_of_true hkept fun appender hobject hlevel =>
      absurd hlevel (hnot appender hobject)
  push Not at hnot
  obtain ⟨appender, hobject, hlevel⟩ := hnot
  have hself : (s.logTo level now event a answer).written a =
      (s.logTo level now event a answer).accepted a ↔
        appender.Writes now answer := by
    rw [written_logTo hs hobject hlevel, accepted_logTo hobject hlevel,
      if_pos rfl, if_pos rfl, hkept a, List.append_cancel_left_eq]
    split
    · case isTrue hwrites => exact iff_of_true rfl hwrites
    · case isFalse hwrites =>
        exact iff_of_false (List.cons_ne_nil _ _).symm hwrites
  constructor
  · intro hnext other hother _
    rw [hobject] at hother
    cases hother
    exact hself.mp (hnext a)
  · intro hgood b
    by_cases hba : b = a
    · rw [hba]
      exact hself.mpr (hgood appender hobject hlevel)
    · rw [written_logTo hs hobject hlevel, accepted_logTo hobject hlevel,
        if_neg hba, if_neg hba]
      exact hkept b

/-! ### One event -/

theorem Wf.logAll (hs : s.Wf) (appenders : List A) (i : Nat) :
    (s.logAll level now event answers appenders i).Wf := by
  induction appenders generalizing s i with
  | nil => exact hs
  | cons a rest ih =>
      exact ih (hs.logTo level now event a (answers i)) (i + 1)

theorem lag_logAll (hs : s.Wf) (level : LogLevel) (now : Nat) (event : E)
    (answers : Nat → Answer) (appenders : List A) (i : Nat) (b : A) :
    ((s.logAll level now event answers appenders i).written b).length +
        (s.accepted b).length ≤
      (s.written b).length +
        ((s.logAll level now event answers appenders i).accepted b).length
      := by
  induction appenders generalizing s i with
  | nil => exact le_refl _
  | cons a rest ih =>
      have hfirst := lag_logTo hs level now event a (answers i) b
      have hrest := ih (hs.logTo level now event a (answers i)) (i + 1)
      rw [LogFiles.logAll]
      omega

/-- Once something is missing, the rest of the appenders do not make up. -/
theorem Kept.of_logAll (hs : s.Wf) {appenders : List A} {i : Nat}
    (hkept : (s.logAll level now event answers appenders i).Kept) :
    s.Kept := by
  intro b
  have hlag := lag_logAll hs level now event answers appenders i b
  rw [hkept b] at hlag
  exact (hs.sublist b).eq_of_length_le (by omega)

theorem kept_logAll_iff (hs : s.Wf) (hkept : s.Kept) (appenders : List A)
    (i : Nat) : (s.logAll level now event answers appenders i).Kept ↔
      s.goodAll level now event answers appenders i := by
  induction appenders generalizing s i with
  | nil => exact iff_of_true hkept trivial
  | cons a rest ih =>
      have hfirst := kept_logTo_iff hs hkept level now event a (answers i)
      have hwf := hs.logTo level now event a (answers i)
      rw [LogFiles.logAll, goodAll, ← hfirst]
      constructor
      · intro hall
        have hmid := Kept.of_logAll hwf hall
        exact ⟨hmid, (ih hwf hmid (i + 1)).mp hall⟩
      · rintro ⟨hmid, hrest⟩
        exact (ih hwf hmid (i + 1)).mpr hrest

/-! ### Whole runs -/

theorem Wf.step (hs : s.Wf) {command : FileLogCommand A K E}
    (hnext : s.step command = some next) : next.Wf := by
  cases command with
  | newAppender a m_filename opens =>
      simp only [LogFiles.step] at hnext
      split at hnext
      · cases hnext
      · case h_2 hnone =>
          cases hnext
          have hlogged := FileLogAppender.follows_new hs.linked
            (hs.fresh a hnone) m_filename opens
          obtain ⟨hfiles, hothers⟩ :=
            FileLogAppender.others_new (E := A × E) m_filename opens s.disk
          refine ⟨hlogged.linked, follows_update hlogged.follows ?_, ?_, ?_⟩
          · intro b _ other hother
            exact hothers (mine b) other (hs.follows b other hother)
          · intro b hnone
            exact (hfiles (mine b)).trans
              (hs.fresh b (ne_of_update hnone).2)
          · intro b
            change (((FileLogAppender.new m_filename opens s.disk).2.entries
              (mine b)).map Prod.snd).Sublist (s.accepted b)
            rw [hfiles]
            exact hs.sublist b
  | addAppender a =>
      simp only [LogFiles.step] at hnext
      split at hnext
      · cases hnext
      · cases hnext
        exact ⟨hs.linked, hs.follows, hs.fresh, hs.sublist⟩
  | delAppender a | clearAppenders | setLevel level =>
      cases hnext
      exact ⟨hs.linked, hs.follows, hs.fresh, hs.sublist⟩
  | setAppenderLevel a level =>
      simp only [LogFiles.step, Option.map_eq_some_iff] at hnext
      obtain ⟨appender, happender, rfl⟩ := hnext
      have hself := hs.follows a appender happender
      refine ⟨hs.linked, follows_update hself ?_, ?_, hs.sublist⟩
      · intro b _ other hother
        exact hs.follows b other hother
      · intro b hnone
        exact hs.fresh b (ne_of_update hnone).2
  | log level now event answers =>
      cases hnext
      rw [LogFiles.log]
      split
      · exact hs.logAll s.m_appenders 0
      · exact hs
  | remove name =>
      cases hnext
      exact ⟨hs.linked.remove name,
        fun a appender happender => (hs.follows a appender happender).remove
          name, hs.fresh, hs.sublist⟩

theorem kept_step_iff (hs : s.Wf) (hkept : s.Kept)
    {command : FileLogCommand A K E} (hnext : s.step command = some next) :
    next.Kept ↔ s.good command := by
  cases command with
  | newAppender a m_filename opens =>
      simp only [LogFiles.step] at hnext
      split at hnext
      · cases hnext
      · cases hnext
        refine iff_of_true (fun b => ?_) trivial
        change ((FileLogAppender.new m_filename opens s.disk).2.entries
          (mine b)).map Prod.snd = s.accepted b
        rw [(FileLogAppender.others_new m_filename opens s.disk).1]
        exact hkept b
  | addAppender a =>
      simp only [LogFiles.step] at hnext
      split at hnext
      · cases hnext
      · cases hnext
        exact iff_of_true hkept trivial
  | delAppender a | clearAppenders | setLevel level | remove name =>
      cases hnext
      exact iff_of_true hkept trivial
  | setAppenderLevel a level =>
      simp only [LogFiles.step, Option.map_eq_some_iff] at hnext
      obtain ⟨appender, -, rfl⟩ := hnext
      exact iff_of_true hkept trivial
  | log level now event answers =>
      cases hnext
      rw [LogFiles.log, good]
      split
      · case isTrue hlevel =>
          rw [kept_logAll_iff hs hkept]
          exact ⟨fun h _ => h, fun h => h hlevel⟩
      · case isFalse hlevel =>
          exact iff_of_true hkept fun h => absurd h hlevel

/-- Each appender's files, in the order in which they were made, are its events,
each once, as long as every event finds the stream in order or opens it again,
and the file takes the line; however often files are moved away. -/
theorem files_kept_iff {commands : List (FileLogCommand A K E)}
    {final : LogFiles A K E} (hrun : run step init commands = some final) :
    Always step Kept (init : LogFiles A K E) commands ↔
      Along step good init commands := by
  have hboth : Always step (fun s => s.Wf ∧ s.Kept)
      (init : LogFiles A K E) commands ↔
        ((init : LogFiles A K E).Wf ∧ (init : LogFiles A K E).Kept) ∧
          Along step good init commands := by
    refine always_iff_along ?_ hrun
    rintro s command _ next ⟨hs, hkept⟩ hnext
    rw [← kept_step_iff hs hkept hnext]
    exact and_iff_right (hs.step hnext)
  constructor
  · intro halways
    refine (hboth.mp ?_).2
    exact halways.with_invariant (fun _ _ _ hs hnext => hs.step hnext) wf_init
  · intro hgood
    refine (hboth.mpr ⟨⟨wf_init, fun _ => rfl⟩, hgood⟩).mono ?_
    exact fun _ h => h.2

/-- Three events, the log moved away after the first: the second goes to the
file that was moved, the third to a new one. -/
theorem files_kept_moved :
    Always step Kept (init : LogFiles Nat Nat Nat)
      [.newAppender 0 7 true, .addAppender 0,
        .log .info 10 100 fun _ => ⟨true, true⟩, .remove 7,
        .log .info 12 101 fun _ => ⟨false, true⟩,
        .log .warn 13 102 fun _ => ⟨true, true⟩] := by
  refine (files_kept_iff rfl).mpr (Along.cons trivial rfl (Along.cons trivial
    rfl (Along.cons ?_ rfl (Along.cons trivial rfl (Along.cons ?_ rfl
    (Along.cons ?_ rfl trivial))))))
  all_goals
    refine fun _ => ⟨?_, trivial⟩
    rintro appender ⟨⟩ _
    decide

/-! ### After a failed write -/

omit [DecidableEq A] in
theorem log_of_stuck {appender : FileLogAppender K} (hstuck : appender.Stuck)
    (now : Nat) (answer : Answer) (line : A × E) (d : Disk K (A × E)) :
    (appender.log now answer line d).1.Stuck ∧
      (appender.log now answer line d).2 = d := by
  have hrefresh : (appender.refresh now answer.opens d).1.Stuck ∧
      (appender.refresh now answer.opens d).2 = d := by
    rw [FileLogAppender.refresh, FileLogAppender.reopen_of_stuck hstuck]
    split
    · exact ⟨hstuck, rfl⟩
    · exact ⟨hstuck, rfl⟩
  rw [FileLogAppender.log, FileLogAppender.write, if_pos hrefresh.1.2]
  exact hrefresh

/-- The appender stays stuck, and its files stay as they are. -/
structure StaysStuck (a : A) (s next : LogFiles A K E) : Prop where
  stuck : ∃ appender, next.object a = some appender ∧ appender.Stuck
  written : next.written a = s.written a

theorem staysStuck_logTo (hs : s.Wf) {appender : FileLogAppender K}
    (hobject : s.object a = some appender) (hstuck : appender.Stuck)
    (level : LogLevel) (now : Nat) (event : E) (b : A) (answer : Answer) :
    StaysStuck a s (s.logTo level now event b answer) := by
  by_cases hnot : ∀ appender, s.object b = some appender →
      ¬appender.m_level.value ≤ level.value
  · rw [logTo_of_not hnot]
    exact ⟨⟨appender, hobject, hstuck⟩, rfl⟩
  push Not at hnot
  obtain ⟨other, hother, hlevel⟩ := hnot
  by_cases hab : a = b
  · subst hab
    obtain rfl : appender = other :=
      Option.some.inj (hobject.symm.trans hother)
    obtain ⟨hafter, hdisk⟩ := log_of_stuck hstuck now answer (a, event) s.disk
    rw [logTo_some hobject hlevel]
    refine ⟨⟨_, Function.update_self .., hafter⟩, ?_⟩
    rw [written, written, hdisk]
  · refine ⟨⟨appender, ?_, hstuck⟩, ?_⟩
    · rw [logTo_some hother hlevel]
      exact (Function.update_of_ne hab ..).trans hobject
    · rw [written_logTo hs hother hlevel, if_neg hab]

theorem staysStuck_logAll (hs : s.Wf) {appender : FileLogAppender K}
    (hobject : s.object a = some appender) (hstuck : appender.Stuck)
    (appenders : List A) (i : Nat) :
    StaysStuck a s (s.logAll level now event answers appenders i) := by
  induction appenders generalizing s i appender with
  | nil => exact ⟨⟨appender, hobject, hstuck⟩, rfl⟩
  | cons b rest ih =>
      obtain ⟨⟨after, hafter, hstill⟩, hwritten⟩ :=
        staysStuck_logTo hs hobject hstuck level now event b (answers i)
      obtain ⟨hend, hwrittenEnd⟩ := ih (hs.logTo level now event b (answers i))
        hafter hstill (i + 1)
      exact ⟨hend, hwrittenEnd.trans hwritten⟩

theorem staysStuck_step (hs : s.Wf) {appender : FileLogAppender K}
    (hobject : s.object a = some appender) (hstuck : appender.Stuck)
    {command : FileLogCommand A K E} (hnext : s.step command = some next) :
    StaysStuck a s next := by
  cases command with
  | newAppender b m_filename opens =>
      simp only [LogFiles.step] at hnext
      split at hnext
      · cases hnext
      · case h_2 hnone =>
          cases hnext
          have hab : a ≠ b := by
            rintro rfl
            rw [hobject] at hnone
            cases hnone
          refine ⟨⟨appender, (Function.update_of_ne hab ..).trans hobject,
            hstuck⟩, ?_⟩
          change ((FileLogAppender.new m_filename opens s.disk).2.entries
            (mine a)).map Prod.snd = s.written a
          rw [(FileLogAppender.others_new m_filename opens s.disk).1, written]
  | addAppender b =>
      simp only [LogFiles.step] at hnext
      split at hnext
      · cases hnext
      · cases hnext
        exact ⟨⟨appender, hobject, hstuck⟩, rfl⟩
  | delAppender b | clearAppenders | setLevel level | remove name =>
      cases hnext
      exact ⟨⟨appender, hobject, hstuck⟩, rfl⟩
  | setAppenderLevel b level =>
      simp only [LogFiles.step, Option.map_eq_some_iff] at hnext
      obtain ⟨other, hother, rfl⟩ := hnext
      refine ⟨?_, rfl⟩
      by_cases hab : a = b
      · subst hab
        obtain rfl : appender = other :=
          Option.some.inj (hobject.symm.trans hother)
        exact ⟨_, Function.update_self .., hstuck⟩
      · exact ⟨appender, (Function.update_of_ne hab ..).trans hobject, hstuck⟩
  | log level now event answers =>
      cases hnext
      rw [LogFiles.log]
      split
      · exact staysStuck_logAll hs hobject hstuck s.m_appenders 0
      · exact ⟨⟨appender, hobject, hstuck⟩, rfl⟩

theorem staysStuck_run (hs : s.Wf) {appender : FileLogAppender K}
    (hobject : s.object a = some appender) (hstuck : appender.Stuck)
    {commands : List (FileLogCommand A K E)} {final : LogFiles A K E}
    (hrun : run step s commands = some final) :
    final.written a = s.written a := by
  induction commands generalizing s appender with
  | nil =>
      cases hrun
      rfl
  | cons command rest ih =>
      rw [run_cons, Option.bind_eq_some_iff] at hrun
      obtain ⟨next, hnext, hrest⟩ := hrun
      obtain ⟨⟨after, hafter, hstill⟩, hwritten⟩ :=
        staysStuck_step hs hobject hstuck hnext
      exact (ih (hs.step hnext) hafter hstill hrest).trans hwritten

/-- An appender without an open file writes again once its file can be
opened. -/
theorem exists_run_writes (hs : s.Wf) {appender : FileLogAppender K}
    (hobject : s.object a = some appender)
    (hclosed : appender.m_filestream.handle = none) (event : E) :
    ∃ commands final, run step s commands = some final ∧
      final.written a ≠ s.written a := by
  let now := asSize (appender.m_lastTime + 3)
  let fresh : LogFiles A K E :=
    { s with m_level := .debug, m_appenders := [a] }
  have hfresh : fresh.Wf := ⟨hs.linked, hs.follows, hs.fresh, hs.sublist⟩
  have hlevel : appender.m_level.value ≤ LogLevel.fatal.value := by
    cases appender.m_level <;> decide
  have hwrites : appender.Writes now ⟨true, true⟩ := by
    have hdue : appender.due now = true := decide_eq_true (le_refl now)
    exact ⟨rfl, by rw [if_pos hdue]; exact ⟨rfl, Or.inl hclosed⟩⟩
  refine ⟨[.setLevel .debug, .clearAppenders, .addAppender a,
    .log .fatal now event fun _ => ⟨true, true⟩],
    fresh.logTo .fatal now event a ⟨true, true⟩, ?_, ?_⟩
  · have hsome : s.object a ≠ none := by simp [hobject]
    simp [run_cons, step, hsome, log, logAll, LogLevel.value, fresh]
  · rw [written_logTo hfresh hobject hlevel, if_pos rfl, if_pos hwrites]
    intro heq
    have hlength := congrArg List.length heq
    rw [List.length_append] at hlength
    change (s.written a).length + 1 = (s.written a).length at hlength
    omega

omit [DecidableEq K] in
/-- What has failed writes only in a call that opens its file. -/
theorem writes_iff_of_fail {appender : FileLogAppender K}
    (hfail : appender.m_filestream.fail = true) (now : Nat)
    (answer : Answer) :
    appender.Writes now answer ↔ appender.m_filestream.handle = none ∧
      appender.due now = true ∧ answer.opens = true ∧
        answer.writes = true := by
  rw [FileLogAppender.Writes, hfail]
  by_cases hdue : appender.due now = true
  · have hnot : ¬true = false := nofun
    rw [if_pos hdue, or_iff_left hnot]
    exact ⟨fun ⟨hwrites, hopens, hclosed⟩ => ⟨hclosed, hdue, hopens, hwrites⟩,
      fun ⟨hclosed, _, hopens, hwrites⟩ => ⟨hwrites, hopens, hclosed⟩⟩
  · rw [if_neg hdue]
    exact iff_of_false (fun h => nomatch h.2.2) fun h => hdue h.2.1

/-- A failed stream can come back exactly when it has no file open.  It does
with the log call that comes three seconds or more after the last that tried,
if the file can then be opened and takes the line; after a failed write it
never does. -/
theorem recovers_iff {commands : List (FileLogCommand A K E)}
    (hrun : run step init commands = some s) {appender : FileLogAppender K}
    (hobject : s.object a = some appender)
    (hfail : appender.m_filestream.fail = true) (event : E) :
    ((∃ rest final, run step s rest = some final ∧
        final.written a ≠ s.written a) ↔
      appender.m_filestream.handle = none) ∧
    ∀ (level : LogLevel) (now : Nat) (answer : Answer),
      appender.m_level.value ≤ level.value →
      ((s.logTo level now event a answer).written a = s.written a ++ [event] ↔
        appender.m_filestream.handle = none ∧ appender.due now = true ∧
          answer.opens = true ∧ answer.writes = true) := by
  have hs : s.Wf := run_invariant (fun _ _ _ hs hnext => hs.step hnext)
    wf_init hrun
  refine ⟨⟨?_, fun hclosed => exists_run_writes hs hobject hclosed event⟩, ?_⟩
  · rintro ⟨rest, final, hrest, hchanged⟩
    by_contra hopen
    exact hchanged (staysStuck_run hs hobject ⟨hopen, hfail⟩ hrest)
  · intro level now answer hlevel
    rw [← writes_iff_of_fail hfail now answer,
      written_logTo hs hobject hlevel, if_pos rfl, List.append_cancel_left_eq]
    by_cases hwrites : appender.Writes now answer
    · exact iff_of_true (if_pos hwrites) hwrites
    · rw [if_neg hwrites]
      exact iff_of_false (fun h => nomatch h) hwrites

/-- The file could not be opened at first, and can be at the next call. -/
theorem recovers_closed :
    let start : LogFiles Nat Nat Nat := init
    ∃ s appender, run step start [.newAppender 0 7 false] = some s ∧
      s.object 0 = some appender ∧
      (∃ rest final, run step s rest = some final ∧
        final.written 0 ≠ s.written 0) ∧
      (s.logTo .info 10 100 0 ⟨true, true⟩).written 0 =
        s.written 0 ++ [100] := by
  let closed : FileLogAppender Nat := ⟨7, .debug, 0, ⟨none, true⟩⟩
  let s : LogFiles Nat Nat Nat :=
    ⟨.debug, [], Function.update (fun _ => none) 0 (some closed), .blank,
      fun _ => []⟩
  have hrun : run step init [.newAppender 0 7 false] = some s := rfl
  have hobject : s.object 0 = some closed := rfl
  have hrecovers := recovers_iff hrun hobject rfl 100
  exact ⟨s, closed, hrun, hobject, hrecovers.1.mpr rfl,
    (hrecovers.2 .info 10 ⟨true, true⟩ (by decide)).mpr
      ⟨rfl, by decide, rfl, rfl⟩⟩

end LogFiles

end Sone

end LinuxTest
