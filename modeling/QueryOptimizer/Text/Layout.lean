import QueryOptimizer.Text.Combining
import QueryOptimizer.Text.Unprintable

/-!
# Text layout

How values with parts are written: lists, options, quoted strings, and records
with named fields. A part is given as the text it already has. A written text can
be cut into its lines again.
-/

namespace QueryOptimizer.Text

/-- Texts with a separator between them. -/
def joined (separator : String) (parts : List String) : String :=
  String.intercalate separator parts

/-- A list in brackets: `[a, b]`. -/
def list (parts : List String) : String :=
  "[" ++ joined ", " parts ++ "]"

/-- A set or a table in braces: `{a, b}`. -/
def braced (parts : List String) : String :=
  "\x7b" ++ joined ", " parts ++ "\x7d"

/-- An optional value: `Some(a)` or `None`. -/
def option : Option String → String
  | some part => "Some(" ++ part ++ ")"
  | none => "None"

/-- A record with named fields: `Name { a: 1, b: 2 }`, the bare name without fields. -/
def record (name : String) : List (String × String) → String
  | [] => name
  | fields =>
    let parts := fields.map fun (label, part) => label ++ ": " ++ part
    name ++ " \x7b " ++ joined ", " parts ++ " \x7d"

/-! ### Quoted strings -/

/-- A code point in lower-case hexadecimal digits. -/
def hexadecimal (n : Nat) : String :=
  String.ofList (Nat.toDigits 16 n)

/-- One character inside a quoted string. The quote and the backslash are escaped; a character
that would not show on its own is written as its code point. -/
def escaped (c : Char) : String :=
  if c = '"' then "\\\""
  else if c = '\\' then "\\\\"
  else if c = '\n' then "\\n"
  else if c = '\r' then "\\r"
  else if c = '\t' then "\\t"
  else if c.toNat = 0 then "\\0"
  else if CharSet.combining.contains c || CharSet.unprintable.contains c then
    "\\u\x7b" ++ hexadecimal c.toNat ++ "\x7d"
  else c.toString

/-- A string in quotes. -/
def quoted (s : String) : String :=
  "\"" ++ joined "" (s.toList.map escaped) ++ "\""

/-! ### Lines -/

/-- The lines of a text that goes on from the start of a line, of which `line` holds the
characters so far, the latest first. A line ends with a line feed, and a carriage return
just before that belongs to the end as well. What follows the last line feed is a line
unless it is empty. -/
def linesFrom (line : List Char) : List Char → List String
  | [] => if line.isEmpty then [] else [String.ofList line.reverse]
  | c :: rest =>
    if c = '\n' then
      let line := if line.head? = some '\r' then line.tail else line
      String.ofList line.reverse :: linesFrom [] rest
    else linesFrom (c :: line) rest

/-- The lines that come of writing each row on a line of its own. A row may hold
several lines. -/
def linesOfRows (rows : List String) : List String :=
  linesFrom [] (rows.flatMap fun row => row.toList ++ ['\n'])

end QueryOptimizer.Text
