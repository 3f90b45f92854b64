import Mathlib.Tactic.Cases

/-!
# `LogFormatter` (`captain/log.cpp`)

`LogFormatter::init` reads a pattern from left to right: literal text, and directives `%name` and
`%name{format}`. The characters are those of the source's `char`; `directive` says how far the inner
loop goes, and `scan` skips what it went over.
-/

namespace Captain

/-- The classes of `s_format_items`. -/
inductive FormatItemKind
  | Message
  | Level
  | Elapse
  | Name
  | ThreadId
  | NewLine
  | DateTime
  | Filename
  | Line
  | Tab
  | FiberId
  | ThreadName
  deriving DecidableEq, Repr

/-- `LogFormatter::FormatItem`: a `StringFormatItem`, or an item with its format. -/
inductive FormatItem
  | string (str : List Char)
  | item (kind : FormatItemKind) (fmt : List Char)
  deriving DecidableEq, Repr

/-- `s_format_items.find`. -/
def formatItems : List Char → Option FormatItemKind
  | ['m'] => some .Message
  | ['p'] => some .Level
  | ['r'] => some .Elapse
  | ['c'] => some .Name
  | ['t'] => some .ThreadId
  | ['n'] => some .NewLine
  | ['d'] => some .DateTime
  | ['f'] => some .Filename
  | ['l'] => some .Line
  | ['T'] => some .Tab
  | ['F'] => some .FiberId
  | ['N'] => some .ThreadName
  | _ => none

/-- An entry of `vec`: a text (type 0), or a directive with its format (type 1). -/
inductive FormatPiece
  | text (str : List Char)
  | directive (str fmt : List Char)
  deriving DecidableEq, Repr

/-- What the inner loop finds after a `%`: the name, the format, how many characters it went over,
and whether an opened brace was closed. -/
structure FormatDirective where
  str : List Char
  fmt : List Char
  length : Nat
  closed : Bool
  deriving DecidableEq, Repr

namespace LogFormatter

/-- The inner loop in `fmt_status` 1, with the characters since the brace. -/
def directiveFormat (str fmt : List Char) : List Char → FormatDirective
  | [] => ⟨str, [], 0, false⟩
  | c :: rest =>
    if c = '}' then ⟨str, fmt, str.length + fmt.length + 2, true⟩
    else directiveFormat str (fmt ++ [c]) rest

/-- The inner loop in `fmt_status` 0, with the characters since the `%`. -/
def directiveName (str : List Char) : List Char → FormatDirective
  | [] => ⟨str, [], str.length, true⟩
  | c :: rest =>
    if ¬c.isAlpha ∧ c ≠ '{' ∧ c ≠ '}' then ⟨str, [], str.length, true⟩
    else if c = '{' then directiveFormat str [] rest
    else directiveName (str ++ [c]) rest

/-- Literal text that has been read, if any. -/
def flush (nstr : List Char) : List FormatPiece := if nstr = [] then [] else [.text nstr]

/-- The outer loop: `skip` characters have been read already. The result is `vec` and `m_error`. -/
def scan : List Char → Nat → List Char → List FormatPiece × Bool
  | [], _, nstr => (flush nstr, false)
  | _ :: rest, skip + 1, nstr => scan rest skip nstr
  | c :: rest, 0, nstr =>
    if c ≠ '%' then scan rest 0 (nstr ++ [c])
    else if rest.head? = some '%' then scan rest 0 (nstr ++ ['%'])
    else
      let found := directiveName [] rest
      if found.closed then
        let (vec, error) := scan rest found.length []
        (flush nstr ++ .directive found.str found.fmt :: vec, error)
      else
        let (vec, _) := scan rest 0 nstr
        (.text "<<pattern_error>>".toList :: vec, true)

/-- The item of an entry, and whether its name is unknown. -/
def toItem : FormatPiece → FormatItem × Bool
  | .text str => (.string str, false)
  | .directive str fmt =>
    match formatItems str with
    | some kind => (.item kind fmt, false)
    | none => (.string ("<<error_format %".toList ++ str ++ ">>".toList), true)

end LogFormatter

structure LogFormatter where
  m_pattern : String
  m_items : List FormatItem
  m_error : Bool
  deriving DecidableEq, Repr

/-- The constructor, which calls `init`. -/
def LogFormatter.make (pattern : String) : LogFormatter :=
  let (vec, error) := scan pattern.toList 0 []
  { m_pattern := pattern
    m_items := vec.map fun piece => (toItem piece).1
    m_error := error || vec.any fun piece => (toItem piece).2 }

end Captain
