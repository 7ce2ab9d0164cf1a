import MiniRuby.CommandLine

/-!
# The program

Reads what the command line asks for and prints what comes of it.
-/

namespace MiniRuby

/-- What there is under a name. -/
def lookUp (name : String) : IO Found := do
  match ← (IO.FS.realPath name).toBaseIO with
  | .error _ => return .missing
  | .ok place =>
    if ← place.isDir then return .directory
    match ← (IO.FS.readBinFile place).toBaseIO with
    | .error e => return .unreadable (toString e)
    | .ok content => return .file (toString place) content

/-- What there is under the names that a script may have. -/
def lookUpScript (name : String) : IO (String → Found) := do
  let names := name :: (Script.withExtension? name).toList
  let found ← names.mapM fun n => return (n, ← lookUp n)
  return fun n => (found.lookup n).getD .missing

/-- Print a report. -/
def tell (r : Report) : IO Unit := do
  IO.print r.output
  IO.eprint r.errors

/-- Take lines from the input and answer each. -/
partial def talk (d : Dialogue) : IO Unit := do
  let line ← (← IO.getStdin).getLine
  if line.isEmpty then return
  let d := d.feed line
  tell ⟨d.machine.sink.written, d.errors, 0⟩
  (← IO.getStdout).flush
  talk { d with machine := { d.machine with sink := .collecting "" }, errors := "" }

/-- Print a report and answer its exit code. -/
def finish (r : Report) : IO UInt32 := do
  tell r
  return r.code

end MiniRuby

open MiniRuby

/-- Run the command. -/
def main (args : List String) : IO UInt32 := do
  match Command.ofArgs args with
  | .run ⟨none, false, _, []⟩ =>
    talk (.start (CommandLine.machineFor []))
    return 0
  | .run ⟨none, _, _, name :: _⟩ =>
    let look ← lookUpScript name
    finish (CommandLine.run look "" args)
  | _ => finish (CommandLine.run (fun _ => .missing) "" args)
