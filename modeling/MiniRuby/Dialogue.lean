import MiniRuby.Session

/-!
# Dialogues

A dialogue takes program text line by line.  As long as the text may become right with more lines,
it waits for them; otherwise it runs the text, shows its value, and starts afresh.
-/

namespace MiniRuby

namespace Machine

/-- An error as it is shown: the lines that it is about, marked, and the message. -/
def report (m : Machine) (e : ProgramError) : String :=
  let lines :=
    match e.span? with
    | some span => m.mark span
    | none => ""
  lines ++ e.message m ++ "\n"

end Machine

/-- A dialogue: the machine, the lines that wait for more, and the errors that were shown. -/
structure Dialogue where
  machine : Machine
  pending : String
  errors : String

namespace Dialogue

/-- A dialogue that begins on a machine. -/
def start (m : Machine) : Dialogue := ⟨m, "", ""⟩

/-- Run a text that has been read, and show its value. -/
def respond (node : Node) : Session Unit := Session.ofRun do
  let v ← Run.evalProgram node
  let text ← Run.inspect Run.invoke v
  Run.write ("=> " ++ text ++ "\n")

/-- Take a line. -/
def feed (d : Dialogue) (line : String) : Dialogue :=
  let text := d.pending ++ line ++ "\n"
  match Session.parse "REPL" text d.machine with
  | .failed e m =>
    if e.isIncomplete then { d with machine := m, pending := text }
    else ⟨m, "", d.errors ++ m.report e⟩
  | .done node m =>
    match respond node m with
    | .done _ m => ⟨m, "", d.errors⟩
    | .failed e m => ⟨m, "", d.errors ++ m.report e⟩
    | .exhausted => { d with pending := "" }
  | .exhausted => { d with pending := "" }

/-- The lines of an input, each with the line break that ends it. -/
def linesOf (cs : List Char) : List String :=
  (go [] cs).map String.ofList
where
  /-- The lines of what is left, the current one having begun with `line`, in reverse. -/
  go (line : List Char) : List Char → List (List Char)
    | [] => if line.isEmpty then [] else [line.reverse]
    | c :: cs => if c = '\n' then (c :: line).reverse :: go [] cs else go (c :: line) cs

/-- Take a whole input. -/
def feedAll (d : Dialogue) (input : String) : Dialogue := (linesOf input.toList).foldl feed d

end Dialogue

end MiniRuby
