import MiniRuby.Boot
import MiniRuby.Evaluator
import MiniRuby.Grammar.Program
import MiniRuby.Token.Lexer

/-!
# Sessions

A session reads and runs program texts, one after the other, on one machine.  Variables that an
earlier text has set at the top are known when a later one is read, and the text that was read
last is the one that failures are marked in.
-/

namespace MiniRuby

/-- Why a program text has no value. -/
inductive ProgramError where
  | unreadable (e : SyntaxError)
  | failed (f : Failure)

namespace ProgramError

/-- The text that an error is about. -/
def span? : ProgramError → Option Span
  | unreadable e => some e.span
  | failed f => f.span?

/-- An error as it is told to the user. -/
def message (m : Machine) : ProgramError → String
  | unreadable e => e.message
  | failed f => m.failureMessage f

/-- Whether the text may become right when more is added to it. -/
def isIncomplete : ProgramError → Bool
  | unreadable e => e.isIncomplete
  | failed _ => false

end ProgramError

/-- A step of a session. -/
abbrev Session (α : Type) : Type := Action Machine ProgramError α

namespace Session

/-- Read a program text.  The names that it has are kept, and it becomes the text that was read
last, even when it is wrong. -/
def parse (path text : String) : Session Node := fun m =>
  let source? := some (Source.ofText path text)
  match tokenize text.toList with
  | .error e => .failed (.unreadable e) { m with source? := source? }
  | .ok tokens =>
    match parseTokens tokens m.names (m.frames.names .top) with
    | .done node c => .done node { m with names := c.names, source? := source? }
    | .failed e c => .failed (.unreadable e) { m with names := c.names, source? := source? }
    | .halted c => .halted { m with names := c.names, source? := source? }

/-- Run something that is not a program text. -/
def ofRun {α : Type} (x : Run α) : Session α := Action.mapError .failed x

/-- Read and run a program text. -/
def run (path text : String) : Session Value := do
  let node ← parse path text
  ofRun (Run.evalProgram node)

end Session

end MiniRuby
