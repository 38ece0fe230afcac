import Mathlib.Data.Nat.Notation

/-! The pattern of a log line (`LogFormatter::init`).

`init` scans the pattern once: plain characters are collected, a `%` starts a
directive whose name and brace argument an inner loop reads, and the pieces are
then looked up in a table. The scan works on indices, as the source does; a
counter beside each loop bounds it by the characters that are left. -/
namespace SimpleHttpServer

/-- The subclasses of `FormatItem`, with what they store. -/
inductive FormatItem
  | message
  | level
  | elapse
  | name
  | threadId
  | newLine
  | dateTime (format : String)
  | filename
  | line
  | tab (str : String)
  | fiberId
  | threadName
  | string (str : String)
  deriving DecidableEq, Repr

namespace LogFormatter

/-- `isalpha` in the "C" locale. -/
def isAlpha (c : Char) : Bool := ('a' ≤ c && c ≤ 'z') || ('A' ≤ c && c ≤ 'Z')

/-- `m_pattern.substr(pos, len)`. -/
def substr (p : List Char) (pos len : ℕ) : List Char := (p.drop pos).take len

/-- The variables of the inner loop. -/
structure Scan where
  n : ℕ
  /-- `fmt_status`: behind an opening brace. -/
  inBrace : Bool
  fmtBegin : ℕ
  str : List Char
  fmt : List Char
  deriving DecidableEq, Repr

/-- The inner loop of a directive that starts at `i`. -/
def scan (p : List Char) (i : ℕ) : ℕ → Scan → Scan
  | 0, s => s
  | fuel + 1, s =>
    match p[s.n]? with
    | none => s
    | some c =>
      if !s.inBrace && !isAlpha c && c != '{' && c != '}' then
        {s with str := substr p (i + 1) (s.n - i - 1)}
      else if !s.inBrace && c == '{' then
        scan p i fuel {s with
          str := substr p (i + 1) (s.n - i - 1)
          inBrace := true
          fmtBegin := s.n
          n := s.n + 1}
      else if s.inBrace && c == '}' then
        {s with fmt := substr p (s.fmtBegin + 1) (s.n - s.fmtBegin - 1), inBrace := false, n := s.n + 1}
      else
        let s := {s with n := s.n + 1}
        scan p i fuel (if s.n == p.length && s.str.isEmpty then {s with str := p.drop (i + 1)} else s)

/-- An entry of `vec`: its text, its brace argument, and whether it is a directive. -/
structure Piece where
  str : List Char
  fmt : List Char
  directive : Bool
  deriving DecidableEq, Repr

/-- The variables of the outer loop. -/
structure Parse where
  nstr : List Char
  vec : List Piece
  error : Bool
  deriving DecidableEq, Repr

/-- The plain text collected so far becomes an entry. -/
def Parse.flush (r : Parse) : Parse :=
  if r.nstr.isEmpty then r else {r with vec := r.vec ++ [⟨r.nstr, [], false⟩], nstr := []}

/-- The outer loop. -/
def pieces (p : List Char) : ℕ → ℕ → Parse → Parse
  | 0, _, r => r
  | fuel + 1, i, r =>
    match p[i]? with
    | none => r
    | some c =>
      if c != '%' then pieces p fuel (i + 1) {r with nstr := r.nstr ++ [c]}
      else if p[i + 1]? == some '%' then pieces p fuel (i + 1) {r with nstr := r.nstr ++ ['%']}
      else
        let s := scan p i (p.length - (i + 1)) ⟨i + 1, false, 0, [], []⟩
        if s.inBrace then
          pieces p fuel (i + 1)
            {r with error := true, vec := r.vec ++ [⟨"<<pattern_error>>".toList, s.fmt, false⟩]}
        else
          let r := r.flush
          pieces p fuel ((s.n - 1) + 1) {r with vec := r.vec ++ [⟨s.str, s.fmt, true⟩]}

/-- `DateTimeFormatItem(format)`. -/
def newDateTime (format : String) : FormatItem :=
  .dateTime (if format.isEmpty then "%Y-%m-%d %H:%M:%S" else format)

/-- `s_format_items`. -/
def formatItems : List (String × (String → FormatItem)) :=
  [("m", fun _ => .message), ("p", fun _ => .level), ("r", fun _ => .elapse), ("c", fun _ => .name),
    ("t", fun _ => .threadId), ("n", fun _ => .newLine), ("d", newDateTime),
    ("f", fun _ => .filename), ("l", fun _ => .line), ("T", .tab), ("F", fun _ => .fiberId),
    ("N", fun _ => .threadName)]

/-- The item of an entry, and whether the entry is an error. -/
def Piece.item (e : Piece) : FormatItem × Bool :=
  if e.directive then
    match formatItems.lookup (String.ofList e.str) with
    | none => (.string ("<<error_format %" ++ String.ofList e.str ++ ">>"), true)
    | some make => (make (String.ofList e.fmt), false)
  else (.string (String.ofList e.str), false)

/-- `LogFormatter::init`: the items and the error flag of a pattern. -/
def init (pattern : String) : List FormatItem × Bool :=
  let p := pattern.toList
  let r := (pieces p p.length 0 ⟨[], [], false⟩).flush
  (r.vec.map fun e => e.item.1, r.error || r.vec.any fun e => e.item.2)

end LogFormatter

/-- `LogFormatter`: its items and its error flag are those of its pattern. -/
structure LogFormatter where
  pattern : String
  items : List FormatItem
  error : Bool
  built : LogFormatter.init pattern = (items, error)

namespace LogFormatter

/-- `LogFormatter(pattern)`. -/
def new (pattern : String) : LogFormatter := ⟨pattern, (init pattern).1, (init pattern).2, rfl⟩

def isError (f : LogFormatter) : Bool := f.error

def getPattern (f : LogFormatter) : String := f.pattern

@[simp] theorem new_getPattern (pattern : String) : (new pattern).getPattern = pattern := rfl

/-- A formatter is its pattern. -/
theorem new_pattern (f : LogFormatter) : new f.pattern = f := by
  obtain ⟨pattern, items, error, built⟩ := f
  simp only [new, built]

theorem ext_pattern {f g : LogFormatter} (h : f.pattern = g.pattern) : f = g := by
  rw [← new_pattern f, ← new_pattern g, h]

instance : DecidableEq LogFormatter := fun f g =>
  decidable_of_iff (f.pattern = g.pattern) ⟨ext_pattern, fun h => h ▸ rfl⟩

example : (new "%d\x7b%H:%M\x7d%T[%p] 100%n").items =
    [.dateTime "%H:%M", .tab "", .string "[", .level, .string "] 100", .newLine] := by
  decide +kernel

example : (new "a%d\x7bb").items = [.string "<<pattern_error>>", .string "ad\x7bb"] := by
  decide +kernel

/-- The pattern an appender starts with. -/
def defaultPattern : String :=
  "%d\x7b%Y-%m-%d %H:%M:%S\x7d%T%t%T%N%T%F%T[%p]%T[%c]%T%f:%l%T%m%n"

end LogFormatter
end SimpleHttpServer
