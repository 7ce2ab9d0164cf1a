import MiniRuby.Library.Argument

/-!
# Objects

The native methods that every object has: identity, class, instance variables, and methods taken
by name.
-/

namespace MiniRuby

/-- The instance variables of an object with their names in alphabetical order. -/
def Machine.variablesByName (m : Machine) (id : ObjectId) : List (String × NameId × Value) :=
  ((m.heap.object id).ivars.entries.map fun e => (m.names.text e.1, e.1, e.2)).mergeSort
    fun a b => a.1 ≤ b.1

namespace ObjectOp

/-- The name of an instance variable, given as a symbol or as a string. -/
def variableName (invoke : Invoke) (v : Value) : Run NameId := do
  let name ← Run.expectName invoke v
  let text ← Action.view fun m => m.names.text name
  if text.startsWith "@" then pure name else Run.fault (.badVariableName text)

def plainText (self : Value) : Run Value := do
  let text ← Action.view fun m => m.plainText self
  Run.newString text

/-- The class of an object and its instance variables in alphabetical order. -/
def inspectObject (invoke : Invoke) (self : Value) : Run Value := do
  match self with
  | .obj id =>
    if self.identical .main then plainText self
    else
      let entries ← Action.view fun m => m.variablesByName id
      let parts ← Action.each (fun (text, _, v) => do
        pure (" " ++ text ++ "=" ++ (← Run.inspect invoke v))) entries
      let name ← Run.className self
      Run.newString ("#<" ++ name ++ ",".intercalate parts ++ ">")
  | _ => plainText self

/-- The names of the instance variables in alphabetical order. -/
def namesOfVariables (self : Value) : Run Value := do
  match self with
  | .obj id =>
    let entries ← Action.view fun m => m.variablesByName id
    Run.newArray (entries.map fun (_, name, _) => Value.sym name).toArray
  | _ => Run.newArray #[]

def run (invoke : Invoke) (op : ObjectOp) (self : Value) (args : List Value) : Run Value := do
  let other := Run.arg args 0
  match op with
  | .same => Run.answer (self.identical other)
  | .differs => Run.answer !(← Run.send invoke self .equals args).truthy
  | .negate => Run.answer !self.truthy
  | .setup => pure .nil
  | .classOf => .cls <$> Run.ofExcept (← Action.view fun m => m.classOf self)
  | .inspect => inspectObject invoke self
  | .toS => plainText self
  | .isNil => Run.answer false
  | .isA =>
    let c ← Run.expectClass other
    .bool <$> Run.ofExcept (← Action.view fun m => m.isA self c)
  | .instanceOf =>
    let c ← Run.expectClass other
    let own ← Run.ofExcept (← Action.view fun m => m.classOf self)
    Run.answer (own == c)
  | .respondTo =>
    let name ← Run.expectName invoke other
    Run.answer (← Run.findMethod self name).isSome
  | .objectId => pure (.int self.objectId.toInt64)
  | .send =>
    let name ← Run.expectName invoke other
    Run.send invoke self name args.tail
  | .bind =>
    let name ← Run.expectName invoke other
    Run.bindMethod self name
  | .variableGet =>
    let name ← variableName invoke other
    Run.getVariable self name
  | .variableSet =>
    let name ← variableName invoke other
    Run.setVariable self name (Run.arg args 1)
  | .variableNames => namesOfVariables self

end ObjectOp

end MiniRuby
