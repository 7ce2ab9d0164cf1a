import MiniRuby.Library.Argument

/-!
# Output and exceptions

The methods that can be called anywhere: they write output, raise exceptions and check that
values are equal.
-/

namespace MiniRuby

/-- A text as a line of its own. -/
def asLine (s : String) : String := if s.endsWith "\n" then s else s ++ "\n"

namespace KernelOp

/-- Write a value, and an array as its elements, each on a line.  `path` holds the arrays that are
being written; an array that is among them is only hinted at.  Arrays are followed as deeply as
there is fuel. -/
def putsValue (invoke : Invoke) : Nat → List ArrayId → Value → Run Unit
  | 0, _, _ => Action.exhaust
  | fuel + 1, path, v => do
    match v with
    | .arr id =>
      if path.contains id then Run.write "[...]\n"
      else
        let elements ← Action.view fun m => m.heap.elements id
        if elements.isEmpty then Run.write "\n"
        else
          let _ ← Action.each (putsValue invoke fuel (id :: path)) elements.toList
    | _ => Run.write (asLine (← Run.toText invoke v))

def putLines (fuel : Nat) (invoke : Invoke) (args : List Value) : Run Value := do
  if args.isEmpty then Run.write "\n"
  let _ ← Action.each (putsValue invoke fuel []) args
  pure .nil

def printTexts (invoke : Invoke) (args : List Value) : Run Value := do
  let _ ← Action.each (fun v => do Run.write (← Run.toText invoke v)) args
  pure .nil

/-- Write values as programmers see them, and answer them. -/
def showValues (invoke : Invoke) (args : List Value) : Run Value := do
  let _ ← Action.each (fun v => do Run.write ((← Run.inspect invoke v) ++ "\n")) args
  match args with
  | [] => pure .nil
  | [v] => pure v
  | _ => Run.newArray args.toArray

/-- The exception that the arguments of `raise` ask for: one of the standard class with a message,
one of a given class, or the argument itself. -/
def exceptionFor (invoke : Invoke) (args : List Value) : Run Value := do
  match args with
  | [] => Run.newException invoke "RuntimeError" "unhandled exception"
  | [.str id] =>
    let message ← Action.view fun m => m.heap.text id
    Run.newException invoke "RuntimeError" message
  | [.cls c] => Run.send invoke (.cls c) .new []
  | [.cls c, message] => Run.send invoke (.cls c) .new [message]
  | [v] => pure v
  | _ => Run.fault .notAnException

def raiseException (invoke : Invoke) (args : List Value) : Run Value := do
  let e ← exceptionFor invoke args
  if ← Run.ofExcept (← Action.view fun m => m.isA e .exception) then Action.fail ⟨.raised e, none⟩
  else Run.fault .notAnException

def checkEqual (invoke : Invoke) (args : List Value) : Run Value := do
  let expected := Run.arg args 0
  let given := Run.arg args 1
  if (← Run.send invoke expected .equals [given]).truthy then pure .nil
  else
    let left ← Run.inspect invoke expected
    let right ← Run.inspect invoke given
    Run.fault (.assertion left right)

def run (fuel : Nat) (invoke : Invoke) (op : KernelOp) (args : List Value) : Run Value :=
  match op with
  | .puts => putLines fuel invoke args
  | .print => printTexts invoke args
  | .p => showValues invoke args
  | .raise => raiseException invoke args
  | .assert => checkEqual invoke args

end KernelOp

namespace ExceptionOp

/-- Exceptions keep the message that they are made with, unless it is `nil`. -/
def keepMessage (self : Value) (args : List Value) : Run Value := do
  match self, args with
  | .obj id, v :: _ =>
    if v.isNil then pure .nil
    else
      Run.updateHeap fun h => h.setVariable id .message v
      pure .nil
  | _, _ => pure .nil

/-- The class and the message of an exception; one that says no more than its class is shown by
its class alone. -/
def shown (className message : String) : String :=
  if message.isEmpty || message == className then className
  else "#<" ++ className ++ ": " ++ message ++ ">"

def run (op : ExceptionOp) (self : Value) (args : List Value) : Run Value := do
  match op with
  | .setup => keepMessage self args
  | .message =>
    let message ← Action.view fun m => m.exceptionMessage self
    Run.newString message
  | .inspect =>
    let text ← Action.view fun m => shown (m.className self) (m.exceptionMessage self)
    Run.newString text

end ExceptionOp

end MiniRuby
