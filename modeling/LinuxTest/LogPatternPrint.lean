/-
Printed log patterns.  A pattern written from a list of literals and directives
is read back by `LogFormatter::init` as that list.
-/
import Mathlib.Data.List.Chain
import LinuxTest.LogPattern

namespace LinuxTest

namespace Sone

/-! ### Items and their text -/

/-- The directives that the table of `init` lists. -/
inductive Directive where
  | message | level | elapse | name | threadId | newLine
  | dateTime | filename | line | tab | pId | threadName
deriving DecidableEq, Repr

namespace Directive

/-- The letter behind the `%`. -/
def letter : Directive → Bytes
  | message => lit "m"
  | level => lit "p"
  | elapse => lit "r"
  | name => lit "c"
  | threadId => lit "t"
  | newLine => lit "n"
  | dateTime => lit "d"
  | filename => lit "f"
  | line => lit "l"
  | tab => lit "T"
  | pId => lit "P"
  | threadName => lit "N"

/-- The item that a directive stands for. -/
def item (fmt : Bytes) : Directive → FormatItem
  | message => .message
  | level => .level
  | elapse => .elapse
  | name => .name
  | threadId => .threadId
  | newLine => .newLine
  | dateTime => .makeDateTime fmt
  | filename => .filename
  | line => .line
  | tab => .tab
  | pId => .pId
  | threadName => .threadName

theorem letter_eq (d : Directive) :
    ∃ c, d.letter = [c] ∧ isLetter c = true := by
  cases d <;> exact ⟨_, rfl, by decide⟩

theorem letter_isNameByte (d : Directive) :
    ∀ c ∈ d.letter, isNameByte c := by
  obtain ⟨c, hc, hletter⟩ := d.letter_eq
  simp [hc, isNameByte, hletter]

theorem letter_head (d : Directive) (rest : Bytes) :
    (d.letter ++ rest).head? ≠ some percent := by
  cases d <;> simp [letter, lit, percent]

/-- The table has the directive under its letter. -/
theorem item_letter (d : Directive) (fmt : Bytes) :
    Piece.item ⟨d.letter, fmt, 1⟩ = (d.item fmt, false) := by
  cases d <;> rfl

end Directive

/-- A part of a pattern. -/
inductive PatternItem where
  | literal (text : Bytes)
  | directive (d : Directive) (fmt : Option Bytes)
deriving DecidableEq, Repr

namespace PatternItem

/-- How a part is written. -/
def print : PatternItem → Bytes
  | literal text => text
  | directive d none => percent :: d.letter
  | directive d (some fmt) =>
      percent :: (d.letter ++ openBrace :: (fmt ++ [closeBrace]))

def Ok : PatternItem → Prop
  | literal text => text ≠ [] ∧ percent ∉ text
  | directive _ fmt => ∀ text, fmt = some text → closeBrace ∉ text

/-- What may stand behind a part. -/
def Follows : PatternItem → PatternItem → Prop
  | literal _, literal _ => False
  | directive _ none, literal text =>
      ∀ c, text.head? = some c →
        ¬ isLetter c ∧ c ≠ openBrace ∧ c ≠ closeBrace
  | _, _ => True

/-- The piece of `vec` for a part. -/
def piece : PatternItem → Piece
  | literal text => ⟨text, [], 0⟩
  | directive d fmt => ⟨d.letter, fmt.getD [], 1⟩

/-- The format item for a part. -/
def item : PatternItem → FormatItem
  | literal text => .string text
  | directive d fmt => d.item (fmt.getD [])

theorem item_piece (part : PatternItem) :
    part.piece.item = (part.item, false) := by
  cases part with
  | literal text => rfl
  | directive d fmt => exact d.item_letter (fmt.getD [])

end PatternItem

def printItems (items : List PatternItem) : Bytes :=
  items.flatMap PatternItem.print

/-- The lists of parts whose text can be told apart again. -/
structure GoodItems (items : List PatternItem) : Prop where
  ok : ∀ part ∈ items, part.Ok
  follows : items.IsChain PatternItem.Follows

theorem GoodItems.tail {part : PatternItem} {items : List PatternItem}
    (h : GoodItems (part :: items)) : GoodItems items :=
  ⟨fun other hother => h.ok other (List.mem_cons_of_mem _ hother),
    h.follows.tail⟩

/-! ### Reading the text back -/

/-- Text without a `%` goes to the pending literal. -/
theorem Reads.literals {text rest nstr : Bytes} {vec : List Piece} {e : Bool}
    (htext : percent ∉ text) (h : Reads rest (nstr ++ text) vec e) :
    Reads (text ++ rest) nstr vec e := by
  induction text generalizing nstr with
  | nil => simpa using h
  | cons c text ih =>
      rw [List.mem_cons, not_or] at htext
      refine .literal (Ne.symm htext.1) (ih htext.2 ?_)
      simpa using h

/-- A directive without a format ends where no byte of a name follows. -/
theorem readDirective_letter (d : Directive) {rest : Bytes}
    (hrest : ∀ c, rest.head? = some c → ¬ isNameByte c ∧ c ≠ openBrace) :
    readDirective (d.letter ++ rest) = some (d.letter, [], rest) := by
  cases rest with
  | nil =>
      rw [List.append_nil]
      exact readDirective_end d.letter_isNameByte
  | cons c rest =>
      obtain ⟨hname, hopen⟩ := hrest c rfl
      exact readDirective_stop d.letter_isNameByte hname hopen rest

theorem readDirective_format (d : Directive) {fmt : Bytes}
    (hfmt : closeBrace ∉ fmt) (rest : Bytes) :
    readDirective (d.letter ++ openBrace :: (fmt ++ [closeBrace]) ++ rest) =
      some (d.letter, fmt, rest) := by
  have htext : d.letter ++ openBrace :: (fmt ++ [closeBrace]) ++ rest =
      d.letter ++ openBrace :: (fmt ++ closeBrace :: rest) := by
    simp
  rw [htext, readDirective_brace d.letter_isNameByte, cut_append hfmt]
  rfl

/-- What stands behind a directive without a format does not go on its
name. -/
theorem GoodItems.head_behind {d : Directive} {items : List PatternItem}
    (h : GoodItems (.directive d none :: items)) (c : UInt8)
    (hc : (printItems items).head? = some c) :
    ¬ isNameByte c ∧ c ≠ openBrace := by
  cases items with
  | nil => cases hc
  | cons part items =>
      have hfollows := (List.isChain_cons_cons.mp h.follows).1
      cases part with
      | literal text =>
          have hne : text ≠ [] := (h.ok (.literal text) (by simp)).1
          have hhead : text.head? = some c := by
            rw [← hc]
            exact (List.head?_append_of_ne_nil _ hne).symm
          obtain ⟨hletter, hopen, hclose⟩ := hfollows c hhead
          exact ⟨by simp [isNameByte, hletter, hclose], hopen⟩
      | directive d' fmt =>
          have hpercent : c = percent := by
            cases fmt <;> exact (Option.some.inj hc).symm
          subst hpercent
          decide

/-- The scanner reads a good list back, whatever literal is pending in front
of a directive. -/
theorem GoodItems.reads {items : List PatternItem} (h : GoodItems items)
    {nstr : Bytes}
    (hhead : nstr = [] ∨ ∀ text, items.head? ≠ some (.literal text)) :
    Reads (printItems items) nstr
      (flush nstr ++ items.map PatternItem.piece) false := by
  induction items generalizing nstr with
  | nil =>
      rw [List.map_nil, List.append_nil]
      exact .done nstr
  | cons part items ih =>
      cases part with
      | literal text =>
          obtain rfl : nstr = [] := hhead.resolve_right fun hne =>
            hne text rfl
          obtain ⟨hne, hpercent⟩ := h.ok (.literal text) (by simp)
          have hnext : ∀ other, items.head? ≠ some (.literal other) := by
            intro other hother
            obtain ⟨items', rfl⟩ := List.head?_eq_some_iff.mp hother
            exact (List.isChain_cons_cons.mp h.follows).1
          have hreads := @ih h.tail text (Or.inr hnext)
          rw [flush, if_neg hne] at hreads
          exact Reads.literals hpercent hreads
      | directive d fmt =>
          have hreads := ih h.tail (Or.inl rfl)
          cases fmt with
          | none =>
              exact .directive (d.letter_head _)
                (readDirective_letter d h.head_behind) hreads
          | some fmt =>
              have hfmt : closeBrace ∉ fmt :=
                h.ok (.directive d (some fmt)) (by simp) fmt rfl
              have hpercent := d.letter_head (openBrace ::
                (fmt ++ [closeBrace]) ++ printItems items)
              rw [← List.append_assoc] at hpercent
              exact .directive hpercent (readDirective_format d hfmt _) hreads

/-- `init` on the text of a good list gives back the list, with its formats,
and no error. -/
theorem init_printItems (items : List PatternItem) (h : GoodItems items) :
    LogFormatter.pieces (printItems items) =
        (items.map PatternItem.piece, false) ∧
      (LogFormatter.init (printItems items)).m_items =
        items.map PatternItem.item ∧
      (LogFormatter.init (printItems items)).m_error = false := by
  have hpieces : LogFormatter.pieces (printItems items) =
      (items.map PatternItem.piece, false) :=
    (LogFormatter.pieces_eq_iff _ _ _).mpr (h.reads (Or.inl rfl))
  refine ⟨hpieces, ?_, ?_⟩
  · simp [LogFormatter.init, hpieces, PatternItem.item_piece]
  · simp [LogFormatter.init, hpieces, PatternItem.item_piece]

/-- `[%d{%H:%M}] %m%n` with its parts. -/
theorem init_printItems_line :
    (LogFormatter.init (lit "[%d{%H:%M}] %m%n")).m_items =
        [.string (lit "["), .dateTime (lit "%H:%M"), .string (lit "] "),
          .message, .newLine] ∧
      (LogFormatter.init (lit "[%d{%H:%M}] %m%n")).m_error = false := by
  have hgood : GoodItems [.literal (lit "["),
      .directive .dateTime (some (lit "%H:%M")), .literal (lit "] "),
      .directive .message none, .directive .newLine none] := by
    constructor
    · simp [PatternItem.Ok, lit, percent, closeBrace]
    · simp [PatternItem.Follows]
  exact (init_printItems _ hgood).2

end Sone

end LinuxTest
