import MiniRuby.Evaluator.Task
import MiniRuby.Library

/-!
# Calls

A call first checks the number of arguments, then that calls are not nested too deeply.  A method
that a program defined runs in a new frame with its parameters bound.  `return` ends the call;
`break` and `next` do not reach out of it.
-/

namespace MiniRuby

/-- How deeply calls may be nested. -/
def maxDepth : Nat := 200

namespace Run

/-- Run something as a call, which counts while it lasts, however it ends. -/
def nested {α : Type} (x : Run α) : Run α := do
  Action.update fun m => { m with depth := m.depth + 1 }
  let result ← Action.attempt x
  Action.update fun m => { m with depth := m.depth - 1 }
  Action.ofExcept result

end Run

namespace Perform

/-- Bind the parameters of a method, first to last.  A parameter without an argument gets its
default, which may refer to the parameters before it. -/
def bindParams (perform : Perform) (env : Env) : List (Param Node) → List Value → Run Unit
  | [], _ => pure ()
  | p :: ps, v :: args => do
    Run.setLocal env.scope p.name v
    perform.bindParams env ps args
  | p :: ps, [] => do
    let v ←
      match p.default? with
      | some node => perform.eval env node
      | none => pure .nil
    Run.setLocal env.scope p.name v
    perform.bindParams env ps []

/-- Evaluate the body of a method: `return` gives its value, and jumps that no loop has caught
are faults. -/
def body (perform : Perform) (env : Env) (node : Node) : Run Value := do
  match ← Action.attempt (perform.eval env node) with
  | .ok v => pure v
  | .error f =>
    match f.signal with
    | .returned v => pure v
    | .broke _ | .skipped _ => Action.fail f.settle
    | .fault _ | .raised _ => Action.fail f

/-- What a method does, once it may be called. -/
def enter (fuel : Nat) (perform : Perform) (method : Method) (receiver : Value)
    (args : List Value) : Run Value :=
  match method with
  | .native _ _ op => op.run fuel perform.invoke receiver args
  | .defined _ params node scope => do
    let env : Env := ⟨← Run.openScope scope, receiver⟩
    perform.bindParams env params args
    perform.body env node

/-- Call a method. -/
def call (fuel : Nat) (perform : Perform) (method : Method) (receiver : Value)
    (args : List Value) : Run Value := do
  if method.arity.accepts args.length then
    if (← Action.view Machine.depth) < maxDepth then
      Run.nested (perform.enter fuel method receiver args)
    else Run.fault .tooDeep
  else Run.fault (.wrongCount args.length method.arity)

end Perform

end MiniRuby
