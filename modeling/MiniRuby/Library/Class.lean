import MiniRuby.Library.Argument

/-!
# Classes and bound methods

The native methods by which programs make instances, ask classes about their ancestors and
methods, have accessors defined, and use methods as objects.
-/

namespace MiniRuby

namespace ClassOp

/-- Make an instance.  A plain object is set up with the arguments. -/
def makeInstance (invoke : Invoke) (c : ClassId) (args : List Value) : Run Value := do
  let make (args : List Value) : Run Value := fun m =>
    match m.classes.instantiate m.heap c args m.host.memory with
    | .ok (v, heap) => .done v { m with heap := heap }
    | .error cause => .failed (.ofFault cause) m
  match ← Action.view fun m => m.classes.payload c with
  | .ivars =>
    let v ← make []
    let _ ← Run.send invoke v .setup args
    pure v
  | _ => make args

/-- The names of the methods that instances of some classes have, each name once. -/
def methodNames (t : ClassTable) (classes : List ClassId) : List NameId :=
  (classes.flatMap t.methodNames).eraseDups

/-- Take methods from the instances of a class, one after the other. -/
def removeMethods (invoke : Invoke) (c : ClassId) (args : List Value) : Run Unit := do
  let _ ← Action.each (fun v => do
    let name ← Run.expectName invoke v
    if (← Action.view fun m => (m.classes.get c).methods.get? name).isSome then
      Run.updateClasses fun t => t.removeMethod c name
    else
      let cause ← Action.view fun m =>
        Fault.notDefinedIn (m.names.text name) (m.classes.name c)
      Run.fault cause) args

/-- Define a reader, a writer or both for the instance variable of each name. -/
def defineAccessors (invoke : Invoke) (reads writes : Bool) (c : ClassId) (args : List Value) :
    Run Value := do
  let defined ← Action.each (fun v => do
    let name ← Run.expectName invoke v
    let text ← Action.view fun m => m.names.text name
    let variableName ← Run.intern ("@" ++ text)
    if reads then
      Run.updateClasses fun t => t.addMethod c (.native name (.exact 0) (.reader variableName))
    if writes then
      let setter ← Run.intern (text ++ "=")
      Run.updateClasses fun t => t.addMethod c (.native setter (.exact 1) (.writer variableName))
      pure (if reads then [Value.sym name, .sym setter] else [.sym setter])
    else pure (if reads then [Value.sym name] else [])) args
  Run.newArray defined.flatten.toArray

def run (invoke : Invoke) (op : ClassOp) (self : Value) (args : List Value) : Run Value := do
  let c ← Run.expectClass self
  let other := Run.arg args 0
  match op with
  | .new => makeInstance invoke c args
  | .name =>
    let name ← Action.view fun m => m.classes.name c
    Run.newString name
  | .parent => Action.view fun m =>
    match m.classes.parent? c with
    | some above => .cls above
    | none => .nil
  | .ancestors =>
    let classes ← Action.view fun m => (m.classes.ancestors c).map Value.cls
    Run.newArray classes.toArray
  | .methods =>
    let inherited :=
      match args with
      | [] => true
      | v :: _ => v.truthy
    let names ← Action.view fun m =>
      methodNames m.classes (if inherited then m.classes.ancestors c else [c])
    Run.newArray (names.map Value.sym).toArray
  | .definesMethod =>
    let name ← Run.expectName invoke other
    Run.answer (← Action.view fun m => m.classes.findMethod? c name).isSome
  | .removeMethod =>
    removeMethods invoke c args
    pure self
  | .covers => .bool <$> Run.ofExcept (← Action.view fun m => m.isA other c)
  | .readers => defineAccessors invoke true false c args
  | .writers => defineAccessors invoke false true c args
  | .accessors => defineAccessors invoke true true c args

end ClassOp

namespace BoundOp

def boundId (self : Value) : Run BoundId :=
  match self with
  | .bound id => pure id
  | _ => Run.fault (.wrongReceiver "a Method")

def run (invoke : Invoke) (op : BoundOp) (self : Value) (args : List Value) : Run Value := do
  let id ← boundId self
  let cell ← Action.view fun m => m.heap.bound id
  match op with
  | .call => Run.callBound invoke id args
  | .arity => pure (.int cell.method.arity.number)
  | .name => pure (.sym cell.name)
  | .owner => pure (.cls cell.owner)
  | .receiver => pure cell.receiver
  | .inspect =>
    let text ← Action.view fun m =>
      "#<Method: " ++ m.classes.name cell.owner ++ "#" ++ m.names.text cell.name ++ ">"
    Run.newString text

end BoundOp

end MiniRuby
