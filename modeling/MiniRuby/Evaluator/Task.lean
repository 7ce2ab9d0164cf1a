import MiniRuby.Dispatch

/-!
# Tasks

The evaluator has two tasks, which come back to each other: to evaluate a node, and to call a
method.  What one step of a task does is written down for any way of carrying out the tasks that
the step leads to.
-/

namespace MiniRuby

/-- Where a node is evaluated: in which scope, and what self is. -/
structure Env where
  scope : Scope
  self : Value

/-- Outside of all classes and methods. -/
def Env.top : Env := ⟨.top, .main⟩

/-- Something for the evaluator to do. -/
inductive Task where
  | eval (node : Node) (env : Env)
  | invoke (method : Method) (receiver : Value) (args : List Value)

/-- A way of carrying out tasks. -/
abbrev Perform : Type := Task → Run Value

namespace Perform

/-- Evaluate a node. -/
@[inline] def eval (perform : Perform) (env : Env) (node : Node) : Run Value :=
  perform (.eval node env)

/-- Call a method. -/
@[inline] def invoke (perform : Perform) : Invoke := fun method receiver args =>
  perform (.invoke method receiver args)

end Perform

end MiniRuby
