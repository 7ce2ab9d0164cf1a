import MiniRuby.Span
import MiniRuby.Text.Columns

/-!
# Sources

A source is a program text with the place it came from.  It knows where its lines begin and end,
and marks a span by printing the lines that the span touches with carets below them.
-/

namespace MiniRuby

/-- A line of a text: its number, counted from one, the position of its first character, and the
position just after its last one, where the line break or the end of the text is. -/
structure Line where
  number : Nat
  first : Nat
  stop : Nat
deriving DecidableEq

/-- The lines of `cs`, a text whose first character stands at `pos` in a line that has the given
number and began at `first`. -/
def linesFrom (number first pos : Nat) : List Char → List Line
  | [] => [⟨number, first, pos⟩]
  | c :: cs =>
    if c = '\n' then ⟨number, first, pos⟩ :: linesFrom (number + 1) (pos + 1) (pos + 1) cs
    else linesFrom number first (pos + 1) cs

/-- A program text and the name of the place it came from, which may be empty. -/
structure Source where
  path : String
  code : List Char
deriving DecidableEq

namespace Source

/-- The source of a text. -/
def ofText (path text : String) : Source := ⟨path, text.toList⟩

/-- The lines of the text; there is always one, and a line break at the end opens an empty one. -/
def lines (s : Source) : List Line := linesFrom 1 0 0 s.code

/-- The number of the line that holds a position, a line break being part of the line it ends.
Positions outside of the text count as being on the first line. -/
def lineNumber (s : Source) (pos : Nat) : Nat :=
  match s.lines.find? fun l => l.first ≤ pos && pos ≤ l.stop with
  | some l => l.number
  | none => 1

/-- The characters from `first` up to, but not including, `stop`. -/
def slice (s : Source) (first stop : Nat) : List Char := (s.code.drop first).take (stop - first)

def blanks (n : Nat) : String := String.ofList (List.replicate n ' ')

def carets (n : Nat) : String := String.ofList (List.replicate n '^')

/-- A line of the source and below it a row that marks the part of the line in the span, given how
many columns a text takes up.  A part without any column is marked by a single caret. -/
def markLine (s : Source) (columns : List Char → Nat) (span : Span) (line : Line) : String :=
  let start := max span.first line.first
  let stop := min (span.last + 1) line.stop
  let header := if s.path.isEmpty then "" else s.path ++ ":"
  let lead := columns (s.slice line.first start)
  let marked := if start < stop then columns (s.slice start stop) else 1
  header ++ toString line.number ++ "\n"
    ++ String.ofList (s.slice line.first line.stop) ++ "\n"
    ++ blanks lead ++ carets (max marked 1) ++ "\n"

/-- Whether a span touches a line, its line break included. -/
def touches (span : Span) (line : Line) : Bool := span.first ≤ line.stop && line.first ≤ span.last

/-- The lines that a span touches, each with its mark. -/
def mark (s : Source) (span : Span) (columns : List Char → Nat := Text.columns) : String :=
  String.join ((s.lines.filter (touches span)).map (s.markLine columns span))

end Source

end MiniRuby
