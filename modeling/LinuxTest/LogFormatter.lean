/-
The log formatter of `http_server/Log.cpp`: its format items, the scanner of
`LogFormatter::init` and `LogFormatter::format`.
-/
import LinuxTest.HttpServer

namespace LinuxTest

namespace Sone

/-! ### Events and format items -/

/-- `LogLevel::Level`. -/
inductive LogLevel where
  | unknow | debug | info | warn | error | fatal
deriving DecidableEq, Repr

/-- `LogLevel::ToString`. -/
def LogLevel.toBytes : LogLevel → Bytes
  | .unknow => lit "UNKNOW"
  | .debug => lit "DEBUG"
  | .info => lit "INFO"
  | .warn => lit "WARN"
  | .error => lit "ERROR"
  | .fatal => lit "FATAL"

/-- What the items print of a `LogEvent`. -/
structure LogEvent where
  file : Bytes
  line : Int32
  elapse : UInt32
  threadId : UInt32
  pId : UInt32
  time : UInt64
  threadName : Bytes
  content : Bytes

/-- The subclasses of `LogFormatter::FormatItem`, with what they keep. -/
inductive FormatItem where
  | message | level | elapse | name | threadId | newLine
  | dateTime (format : Bytes)
  | filename | line | tab | pId | threadName
  | string (text : Bytes)
deriving DecidableEq, Repr

def defaultDateFormat : Bytes := lit "%Y-%m-%d %H:%M:%S"

/-- `DateTimeFormatItem::DateTimeFormatItem`. -/
def FormatItem.makeDateTime (format : Bytes) : FormatItem :=
  .dateTime (if format = [] then defaultDateFormat else format)

/-- An integer as an output stream prints it. -/
def decimalInt (n : Int) : Bytes :=
  if n < 0 then lit "-" ++ decimal n.natAbs else decimal n.natAbs

/-- The `format` of the items.  `date` is `strftime` into the buffer of 64
bytes, after `localtime_r`; none where it leaves the buffer undefined. -/
def FormatItem.format (date : Bytes → UInt64 → Option Bytes)
    (logger : Bytes) (level : LogLevel) (event : LogEvent) :
    FormatItem → Option Bytes
  | .message => some event.content
  | .level => some level.toBytes
  | .elapse => some (decimal event.elapse.toNat)
  | .name => some logger
  | .threadId => some (decimal event.threadId.toNat)
  | .newLine => some (lit "\n")
  | .dateTime format => date (cString format) event.time
  | .filename => some event.file
  | .line => some (decimalInt event.line.toInt)
  | .tab => some (lit "\t")
  | .pId => some (decimal event.pId.toNat)
  | .threadName => some event.threadName
  | .string text => some text

/-! ### The scanner -/

/-- An element of `vec`: the text or the name, the format, and the type, 1 for
a directive. -/
structure Piece where
  str : Bytes
  fmt : Bytes
  type : Nat
deriving DecidableEq, Repr

def openBrace : UInt8 := 123
def closeBrace : UInt8 := 125

/-- `substr(pos, n)`. -/
def substr (text : Bytes) (pos n : Nat) : Bytes :=
  (text.drop pos).take n

/-- The variables of the inner loop of `init`. -/
structure DirectiveScan where
  n : Nat
  fmt_status : Nat
  fmt_begin : Nat
  str : Bytes
  fmt : Bytes
deriving DecidableEq, Repr

/-- The inner loop of `init`, behind the `%` at `i`. -/
def scanDirective (m_pattern : Bytes) (i : Nat) :
    Nat → DirectiveScan → DirectiveScan
  | 0, s => s
  | fuel + 1, s =>
      match m_pattern[s.n]? with
      | none => s
      | some c =>
          if s.fmt_status = 0 ∧ ¬ isLetter c ∧ c ≠ openBrace ∧
              c ≠ closeBrace then
            { s with str := substr m_pattern (i + 1) (s.n - i - 1) }
          else if s.fmt_status = 0 ∧ c = openBrace then
            scanDirective m_pattern i fuel
              { s with
                str := substr m_pattern (i + 1) (s.n - i - 1)
                fmt_status := 1
                fmt_begin := s.n
                n := s.n + 1 }
          else if s.fmt_status = 1 ∧ c = closeBrace then
            { s with
              fmt := substr m_pattern (s.fmt_begin + 1)
                (s.n - s.fmt_begin - 1)
              fmt_status := 0
              n := s.n + 1 }
          else
            scanDirective m_pattern i fuel
              { s with
                n := s.n + 1
                str := if s.n + 1 = m_pattern.length ∧ s.str = [] then
                  m_pattern.drop (i + 1) else s.str }

/-- The variables of the outer loop of `init`. -/
structure PatternScan where
  i : Nat
  nstr : Bytes
  vec : List Piece
  m_error : Bool
deriving DecidableEq, Repr

/-- Push the literal text read so far, if there is any. -/
def flush (nstr : Bytes) : List Piece :=
  if nstr = [] then [] else [⟨nstr, [], 0⟩]

/-- The body of the outer loop and its `++i`, at the byte `c` of the
pattern. -/
def scanByte (m_pattern : Bytes) (c : UInt8) (s : PatternScan) :
    PatternScan :=
  if c ≠ percent then
    { s with nstr := s.nstr ++ [c], i := s.i + 1 }
  else if m_pattern[s.i + 1]? = some percent then
    { s with nstr := s.nstr ++ [percent], i := s.i + 1 }
  else
    let d := scanDirective m_pattern s.i m_pattern.length
      ⟨s.i + 1, 0, 0, [], []⟩
    if d.fmt_status = 0 then
      { s with
        vec := s.vec ++ flush s.nstr ++ [⟨d.str, d.fmt, 1⟩]
        nstr := []
        i := d.n - 1 + 1 }
    else
      { s with
        m_error := true
        vec := s.vec ++ [⟨lit "<<pattern_error>>", d.fmt, 0⟩]
        i := s.i + 1 }

/-- The outer loop of `init`. -/
def scanPattern (m_pattern : Bytes) : Nat → PatternScan → PatternScan
  | 0, s => s
  | fuel + 1, s =>
      match m_pattern[s.i]? with
      | none => s
      | some c => scanPattern m_pattern fuel (scanByte m_pattern c s)

/-- `s_format_items`. -/
def formatItems : List (Bytes × (Bytes → FormatItem)) :=
  [(lit "m", fun _ => .message), (lit "p", fun _ => .level),
    (lit "r", fun _ => .elapse), (lit "c", fun _ => .name),
    (lit "t", fun _ => .threadId), (lit "n", fun _ => .newLine),
    (lit "d", .makeDateTime), (lit "f", fun _ => .filename),
    (lit "l", fun _ => .line), (lit "T", fun _ => .tab),
    (lit "P", fun _ => .pId), (lit "N", fun _ => .threadName)]

/-- The item made from a piece, and whether that is an error. -/
def Piece.item (piece : Piece) : FormatItem × Bool :=
  if piece.type = 0 then (.string piece.str, false)
  else match formatItems.find? fun entry => entry.1 = piece.str with
    | none => (.string (lit "<<error_format %" ++ piece.str ++ lit ">>"), true)
    | some entry => (entry.2 piece.fmt, false)

structure LogFormatter where
  m_pattern : Bytes
  m_items : List FormatItem
  m_error : Bool
deriving DecidableEq, Repr

namespace LogFormatter

/-- `vec` when all of the pattern is read, and whether a brace was left
open. -/
def pieces (m_pattern : Bytes) : List Piece × Bool :=
  let s := scanPattern m_pattern m_pattern.length ⟨0, [], [], false⟩
  (s.vec ++ flush s.nstr, s.m_error)

/-- `LogFormatter::LogFormatter` with `init`. -/
def init (m_pattern : Bytes) : LogFormatter :=
  let vec := pieces m_pattern
  ⟨m_pattern, vec.1.map fun piece => piece.item.1,
    vec.2 || vec.1.any fun piece => piece.item.2⟩

/-- `LogFormatter::format`. -/
def format (formatter : LogFormatter)
    (date : Bytes → UInt64 → Option Bytes) (logger : Bytes)
    (level : LogLevel) (event : LogEvent) : Option Bytes :=
  (formatter.m_items.mapM (FormatItem.format date logger level event)).map
    List.flatten

end LogFormatter

end Sone

end LinuxTest
