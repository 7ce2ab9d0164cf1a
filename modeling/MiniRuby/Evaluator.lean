import MiniRuby.Evaluator.Call
import MiniRuby.Evaluator.Construct

/-!
# The evaluator

Tasks are carried out with fuel: every step that a task leads to has one unit less.  A task that
is done or fails with some fuel ends in the same way with more.
-/

namespace MiniRuby

/-- Carry out a task, with steps nested at most as deeply as there is fuel. -/
def perform : Nat → Task → Machine → Outcome Machine Failure Value
  | 0, _, m => .halted m
  | fuel + 1, .eval node env, m => Perform.node fuel (perform fuel) env node m
  | fuel + 1, .invoke method receiver args, m =>
    Perform.call fuel (perform fuel) method receiver args m

/-- More fuel than any run can use up. -/
def budget : Nat := 4611686018427387904

namespace Run

/-- Evaluate a node. -/
def eval (env : Env) (node : Node) : Run Value := perform budget (.eval node env)

/-- Call a method. -/
def invoke : Invoke := fun method receiver args => perform budget (.invoke method receiver args)

/-- Evaluate a whole program.  `return` ends it with a value, and other jumps that nothing has
caught are faults. -/
def evalProgram (node : Node) : Run Value := do
  Action.update fun m => { m with depth := 0 }
  match ← Action.attempt (eval .top node) with
  | .ok v => pure v
  | .error f =>
    match f.signal with
    | .returned v => pure v
    | _ => Action.fail f.settle

end Run

end MiniRuby
