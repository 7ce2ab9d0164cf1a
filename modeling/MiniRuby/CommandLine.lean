import MiniRuby.Dialogue
import MiniRuby.Files
import MiniRuby.Syntax.Printer

/-!
# The command line

The arguments say what to run: a text that is given as an option, a script, or a dialogue.
Options stand before the first free argument; everything after it is handed to the program.
-/

namespace MiniRuby

/-- What a command leaves behind: what it wrote, the errors it showed, and its exit code. -/
structure Report where
  output : String
  errors : String
  code : UInt32
deriving DecidableEq

/-- What is asked for by the arguments. -/
structure Options where
  /-- A program text. -/
  text? : Option String
  /-- Tell the version first. -/
  verbose : Bool
  /-- Print the syntax tree instead of running it. -/
  tree : Bool
  /-- The free arguments. -/
  free : List String
deriving DecidableEq

/-- How the arguments are understood. -/
inductive Command where
  | run (options : Options)
  | version
  | help
  | misused (why : String)
deriving DecidableEq

namespace Command

/-- Options that stand together in one argument, letter by letter.  `more` is what comes after
that argument.  A program text is the rest of the argument, or the next argument if that is no
option. -/
def letters (next : Options → List String → Command) (o : Options) (more : List String) :
    List Char → Command
  | [] => next o more
  | 'e' :: cs =>
    if o.text?.isSome then misused "-e is given twice"
    else if cs.isEmpty then
      match more with
      | text :: more =>
        if text.startsWith "-" && text != "-" then misused "-e needs a program text"
        else next { o with text? := some text } more
      | [] => misused "-e needs a program text"
    else next { o with text? := some (String.ofList (cs.dropWhile (· = '='))) } more
  | 'v' :: cs =>
    if o.verbose then misused "-v is given twice"
    else letters next { o with verbose := true } more cs
  | 'V' :: _ => version
  | 'h' :: _ => help
  | c :: _ => misused s!"-{c} is not known"

/-- Understand arguments one after the other, given what the ones before said.  An option takes up
two arguments at most, so their number is fuel enough. -/
def understand : Nat → Options → List String → Command
  | 0, o, _ => run o
  | _ + 1, o, [] => run o
  | fuel + 1, o, arg :: more =>
    if arg = "--" then run { o with free := more }
    else if arg = "--version" then version
    else if arg = "--help" then help
    else if arg = "--dump-ast" then
      if o.tree then misused "--dump-ast is given twice"
      else understand fuel { o with tree := true } more
    else if arg.startsWith "--" then misused s!"{arg} is not known"
    else if arg.startsWith "-" && arg != "-" then
      letters (understand fuel) o more (arg.toList.drop 1)
    else run { o with free := arg :: more }

/-- Understand the arguments. -/
def ofArgs (args : List String) : Command :=
  understand (args.length + 1) ⟨none, false, false, []⟩ args

end Command

namespace CommandLine

def programName : String := "rubytree"

def versionLine : String := programName ++ " 0.1.0\n"

def usage : String :=
  "Usage: " ++ programName ++ " [-v] [--dump-ast] [-e TEXT | FILE] [ARGUMENT]...\n"

/-- Hand the arguments to the program, as a constant. -/
def setArguments (args : List String) : Run Unit := do
  let texts ← Action.each Run.newString args
  let v ← Run.newArray texts.toArray
  let name ← Run.intern "ARGV"
  Action.update fun m => { m with constants := m.constants.insert name v }

/-- The machine that a program starts from, with its arguments. -/
def machineFor (args : List String) : Machine :=
  match setArguments args (.boot (.collecting "")) with
  | .done _ m | .failed _ m => m
  | .exhausted => .boot (.collecting "")

/-- Run a program text, or print its tree. -/
def execute (m : Machine) (tree : Bool) (path text : String) : Report :=
  let program : Session Unit :=
    if tree then do
      let node ← Session.parse path text
      let names ← Action.view Machine.names
      Session.ofRun (Run.write (node.render names ++ "\n"))
    else do
      let _ ← Session.run path text
  match program m with
  | .done _ m => ⟨m.sink.written, "", 0⟩
  | .failed e m => ⟨m.sink.written, m.report e, 1⟩
  | .exhausted => ⟨"", "", 1⟩

/-- Load a script and run it, with the arguments after it. -/
def runScript (look : String → Found) (tree : Bool) (name : String) (args : List String) : Report :=
  match Script.load look name with
  | .ok (path, text) => execute (machineFor args) tree path text
  | .error e => ⟨"", programName ++ ": " ++ e.message ++ "\n", 1⟩

/-- Carry on a dialogue until the input ends. -/
def converse (input : String) : Report :=
  let d := (Dialogue.start (machineFor [])).feedAll input
  ⟨d.machine.sink.written, d.errors, 0⟩

/-- Do what the options ask for. -/
def runOptions (look : String → Found) (input : String) (o : Options) : Report :=
  match o.text?, o.free with
  | some text, args => execute (machineFor args) o.tree "-e" text
  | none, name :: args => runScript look o.tree name args
  | none, [] => if o.verbose then ⟨"", "", 0⟩ else converse input

/-- Run a command. -/
def run (look : String → Found) (input : String) (args : List String) : Report :=
  match Command.ofArgs args with
  | .version => ⟨versionLine, "", 0⟩
  | .help => ⟨usage, "", 0⟩
  | .misused why => ⟨"", "error: " ++ why ++ "\n" ++ usage, 1⟩
  | .run o =>
    let r := runOptions look input o
    if o.verbose then { r with output := versionLine ++ r.output } else r

end CommandLine

end MiniRuby
