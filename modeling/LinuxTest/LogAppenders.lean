/-
The formatters of a logger and its appenders in `http_server/Log.cpp`.  An
appender without a formatter of its own takes over the logger's.
-/
import Mathlib.Data.List.Basic
import Mathlib.Logic.Function.Basic
import LinuxTest.Runs
import LinuxTest.LogFormatter

namespace LinuxTest

namespace Sone

universe u v

/-! ### Appenders and the logger -/

/-- The formatter fields of a `LogAppender`; `F` are the formatters. -/
structure LogAppender (F : Type v) where
  m_hasFormatter : Bool := false
  m_formatter : Option F := none
deriving DecidableEq, Repr

namespace LogAppender

variable {F : Type v}

/-- `LogAppender::setFormatter`. -/
def setFormatter (val : Option F) : LogAppender F :=
  ⟨val.isSome, val⟩

/-- `LogAppender::getFormatter`. -/
def getFormatter (appender : LogAppender F) : Option F :=
  appender.m_formatter

/-- The body of the loop of `Logger::setFormatter`. -/
def push (val : Option F) (appender : LogAppender F) : LogAppender F :=
  if appender.m_hasFormatter then appender
  else { appender with m_formatter := val }

theorem push_push (val : Option F) (appender : LogAppender F) :
    push val (push val appender) = push val appender := by
  unfold push
  cases h : appender.m_hasFormatter <;> simp [h]

end LogAppender

/-- A logger with the appender objects `A` that are used with it. -/
structure Logging (A : Type u) (F : Type v) where
  m_formatter : Option F
  m_appenders : List A
  object : A → LogAppender F
  /-- What `LogAppender::setFormatter` gave to each object last.  The code does
  not keep it. -/
  given : A → Option F

/-- The calls on a logger and its appenders, none of them with a null
formatter. -/
inductive LogCommand (A : Type u) (F : Type v) where
  | addAppender (appender : A)
  | delAppender (appender : A)
  | clearAppenders
  | setFormatter (val : F)
  | setAppenderFormatter (appender : A) (val : F)
deriving DecidableEq, Repr

namespace Logging

variable {A : Type u} {F : Type v}

/-- `Logger::Logger`, which makes the formatter `f`. -/
def start (f : F) : Logging A F :=
  ⟨some f, [], fun _ => {}, fun _ => none⟩

/-- An attached appender has the formatter it was given, or else that of the
logger. -/
def Inherits (s : Logging A F) : Prop :=
  ∀ appender ∈ s.m_appenders, (s.object appender).getFormatter =
    (s.given appender).or s.m_formatter

/-- The flag of an appender tells whether it was given a formatter, and it
keeps that one. -/
def Flagged (s : Logging A F) : Prop :=
  ∀ appender, (s.object appender).m_hasFormatter =
      (s.given appender).isSome ∧
    ∀ val, s.given appender = some val →
      (s.object appender).m_formatter = some val

/-- An appender that is attached was given a formatter, or holds none, or
holds the one of the logger. -/
def Refreshed (s : Logging A F) : LogCommand A F → Prop
  | .addAppender appender => s.given appender ≠ none ∨
      (s.object appender).m_formatter = none ∨
      (s.object appender).m_formatter = s.m_formatter
  | _ => True

theorem flagged_start (f : F) : (start f : Logging A F).Flagged := by
  intro appender
  exact ⟨rfl, fun _ hgiven => by cases hgiven⟩

theorem inherits_start (f : F) : (start f : Logging A F).Inherits := by
  intro appender hmem
  cases hmem

variable [DecidableEq A]

/-- `Logger::setFormatter`. -/
def setFormatter (s : Logging A F) (val : Option F) : Logging A F :=
  { s with
    m_formatter := val
    object := s.m_appenders.foldl
      (fun object i => Function.update object i ((object i).push val))
      s.object }

/-- `Logger::addAppender`. -/
def addAppender (s : Logging A F) (appender : A) : Logging A F :=
  { s with
    m_appenders := s.m_appenders ++ [appender]
    object := if (s.object appender).getFormatter = none then
        Function.update s.object appender
          { s.object appender with m_formatter := s.m_formatter }
      else s.object }

/-- `Logger::delAppender`. -/
def delAppender (s : Logging A F) (appender : A) : Logging A F :=
  { s with m_appenders := s.m_appenders.erase appender }

/-- `Logger::clearAppenders`. -/
def clearAppenders (s : Logging A F) : Logging A F :=
  { s with m_appenders := [] }

/-- `LogAppender::setFormatter` on an object. -/
def setAppenderFormatter (s : Logging A F) (appender : A) (val : Option F) :
    Logging A F :=
  { s with
    object := Function.update s.object appender (.setFormatter val)
    given := Function.update s.given appender val }

def step (s : Logging A F) : LogCommand A F → Option (Logging A F)
  | .addAppender appender => some (s.addAppender appender)
  | .delAppender appender => some (s.delAppender appender)
  | .clearAppenders => some s.clearAppenders
  | .setFormatter val => some (s.setFormatter (some val))
  | .setAppenderFormatter appender val =>
      some (s.setAppenderFormatter appender (some val))

/-! ### One call -/

theorem foldl_push (val : Option F) (appenders : List A)
    (object : A → LogAppender F) (a : A) :
    appenders.foldl
        (fun object i => Function.update object i ((object i).push val))
        object a =
      if a ∈ appenders then (object a).push val else object a := by
  induction appenders generalizing object with
  | nil => rfl
  | cons head tail ih =>
      rw [List.foldl_cons, ih]
      by_cases hhead : a = head
      · subst hhead
        simp [LogAppender.push_push]
      · simp [hhead]

theorem object_setFormatter (s : Logging A F) (val : Option F) (a : A) :
    (s.setFormatter val).object a =
      if a ∈ s.m_appenders then (s.object a).push val else s.object a :=
  foldl_push val s.m_appenders s.object a

theorem object_addAppender (s : Logging A F) (appender a : A) :
    (s.addAppender appender).object a =
      if a = appender ∧ (s.object a).m_formatter = none then
        { s.object a with m_formatter := s.m_formatter }
      else s.object a := by
  unfold addAppender LogAppender.getFormatter
  by_cases ha : a = appender
  · subst ha
    by_cases hnone : (s.object a).m_formatter = none <;> simp [hnone]
  · split <;> simp [ha]

theorem Flagged.step {s next : Logging A F} {command : LogCommand A F}
    (hs : s.Flagged) (hstep : s.step command = some next) :
    next.Flagged := by
  cases command with
  | addAppender appender =>
      cases hstep
      intro a
      obtain ⟨hflag, hkeeps⟩ := hs a
      change ((s.addAppender appender).object a).m_hasFormatter =
        (s.given a).isSome ∧ ∀ val, s.given a = some val →
          ((s.addAppender appender).object a).m_formatter = some val
      rw [object_addAppender]
      split
      · next hadd =>
        refine ⟨hflag, fun val hval => ?_⟩
        rw [hadd.2] at hkeeps
        cases hkeeps val hval
      · exact ⟨hflag, hkeeps⟩
  | delAppender appender =>
      cases hstep
      exact hs
  | clearAppenders =>
      cases hstep
      exact hs
  | setFormatter val =>
      cases hstep
      intro a
      obtain ⟨hflag, hkeeps⟩ := hs a
      change ((s.setFormatter (some val)).object a).m_hasFormatter =
        (s.given a).isSome ∧ ∀ own, s.given a = some own →
          ((s.setFormatter (some val)).object a).m_formatter = some own
      rw [object_setFormatter, LogAppender.push]
      split
      · split
        · exact ⟨hflag, hkeeps⟩
        · next hnot =>
          refine ⟨hflag, fun own hown => absurd ?_ hnot⟩
          rw [hflag, hown]
          rfl
      · exact ⟨hflag, hkeeps⟩
  | setAppenderFormatter appender val =>
      cases hstep
      intro a
      by_cases ha : a = appender
      · subst ha
        simp [setAppenderFormatter, LogAppender.setFormatter]
      · simpa [setAppenderFormatter, ha] using hs a

theorem inherits_addAppender_iff {s : Logging A F} (hs : s.Flagged)
    (hinherits : s.Inherits) (appender : A) :
    (s.addAppender appender).Inherits ↔
      s.Refreshed (.addAppender appender) := by
  have hobject (a : A) := object_addAppender s appender a
  constructor
  · intro hnext
    have hlast := hnext appender (List.mem_append_right _ (by simp))
    rw [LogAppender.getFormatter, hobject] at hlast
    by_cases hnone : (s.object appender).m_formatter = none
    · exact Or.inr (Or.inl hnone)
    · rw [if_neg (by simp [hnone])] at hlast
      cases hgiven : s.given appender with
      | some val => exact Or.inl (by simp [hgiven])
      | none =>
          refine Or.inr (Or.inr (hlast.trans ?_))
          change (s.given appender).or s.m_formatter = s.m_formatter
          rw [hgiven, Option.none_or]
  · intro hrefreshed a ha
    change _ = (s.given a).or s.m_formatter
    rw [LogAppender.getFormatter, hobject]
    split
    · next hadd =>
      cases hgiven : s.given a with
      | none => rfl
      | some val =>
          rw [(hs a).2 val hgiven] at hadd
          cases hadd.2
    · next hkept =>
      rcases List.mem_append.mp ha with hold | hnew
      · exact hinherits a hold
      · obtain rfl := List.mem_singleton.mp hnew
        cases hgiven : s.given a with
        | some val => exact (hs a).2 val hgiven
        | none =>
            rcases hrefreshed with hown | hnone | hsame
            · exact absurd hgiven hown
            · exact absurd ⟨rfl, hnone⟩ hkept
            · exact hsame

theorem Flagged.inherits_setFormatter {s : Logging A F} (hs : s.Flagged)
    (val : Option F) : (s.setFormatter val).Inherits := by
  intro a ha
  change _ = (s.given a).or val
  have hmem : a ∈ s.m_appenders := ha
  rw [LogAppender.getFormatter, object_setFormatter, if_pos hmem,
    LogAppender.push]
  obtain ⟨hflag, hkeeps⟩ := hs a
  cases hgiven : s.given a with
  | none =>
      rw [hgiven] at hflag
      rw [if_neg (by simp [hflag])]
      rfl
  | some own =>
      have hown : (s.object a).m_hasFormatter = true := by
        rw [hflag, hgiven]
        rfl
      rw [if_pos hown]
      exact hkeeps own hgiven

/-- A call keeps the inheritance exactly when the appender it attaches, if
any, has no formatter left over. -/
theorem inherits_step_iff {s next : Logging A F} {command : LogCommand A F}
    (hs : s.Flagged) (hinherits : s.Inherits)
    (hstep : s.step command = some next) :
    next.Inherits ↔ s.Refreshed command := by
  cases command with
  | addAppender appender =>
      cases hstep
      exact inherits_addAppender_iff hs hinherits appender
  | delAppender appender =>
      cases hstep
      refine iff_of_true (fun a ha => ?_) trivial
      exact hinherits a (List.mem_of_mem_erase ha)
  | clearAppenders =>
      cases hstep
      exact iff_of_true (fun a ha => by cases ha) trivial
  | setFormatter val =>
      cases hstep
      exact iff_of_true (hs.inherits_setFormatter (some val)) trivial
  | setAppenderFormatter appender val =>
      cases hstep
      refine iff_of_true (fun a ha => ?_) trivial
      by_cases happender : a = appender
      · subst happender
        simp [setAppenderFormatter, LogAppender.setFormatter,
          LogAppender.getFormatter]
      · simpa [setAppenderFormatter, happender] using hinherits a ha

/-! ### Runs -/

/-- Through a run of calls every attached appender has its own formatter or
the logger's, exactly when no appender is attached that still holds an older
one of the logger. -/
theorem formatter_inherited_iff (f : F) (commands : List (LogCommand A F)) :
    Always step Inherits (start f) commands ↔
      Along step Refreshed (start f) commands := by
  have htotal : ∀ (s : Logging A F) (command : LogCommand A F),
      ∃ next, s.step command = some next := by
    intro s command
    cases command <;> exact ⟨_, rfl⟩
  obtain ⟨final, hrun⟩ := exists_run htotal (start f) commands
  have hstep : ∀ s : Logging A F, ∀ command ∈ commands, ∀ next,
      s.Flagged ∧ s.Inherits → s.step command = some next →
        (next.Flagged ∧ next.Inherits ↔ s.Refreshed command) := by
    intro s command _ next hinv hnext
    rw [and_iff_right (hinv.1.step hnext)]
    exact inherits_step_iff hinv.1 hinv.2 hnext
  have hiff := always_iff_along hstep hrun
  constructor
  · intro halways
    have hflagged := halways.with_invariant
      (fun _ _ _ hs hnext => Flagged.step hs hnext) (flagged_start f)
    exact (hiff.mp hflagged).2
  · intro halong
    have halways := hiff.mpr ⟨⟨flagged_start f, inherits_start f⟩, halong⟩
    exact halways.mono fun _ hs => hs.2

/-- An appender taken off and put back after a change of the formatter keeps
the old one. -/
theorem appender_keeps_old_formatter :
    ¬ Always step Inherits
        (start (.init (lit "%m%n")) : Logging Nat LogFormatter)
        [.addAppender 0, .delAppender 0,
          .setFormatter (.init (lit "%p %m%n")), .addAppender 0] := by
  intro halways
  obtain ⟨last, hrun, hlast⟩ := halways.final
  cases hrun
  have hsame : some (LogFormatter.init (lit "%m%n")) =
      some (LogFormatter.init (lit "%p %m%n")) := hlast 0 List.mem_cons_self
  have hpattern := congrArg (Option.map LogFormatter.m_pattern) hsame
  exact absurd hpattern (by decide)

end Logging

end Sone

end LinuxTest
