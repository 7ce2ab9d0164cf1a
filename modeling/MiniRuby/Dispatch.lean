import MiniRuby.Machine

/-!
# Dispatch

Sending a message to a receiver: the method is looked up by the receiver's class and called, and
when there is none, `method_missing` is called in its place.  How a method is called is a
parameter here, so that native methods can send messages of their own.
-/

namespace MiniRuby

/-- How a method is called on a receiver. -/
abbrev Invoke : Type := Method → Value → List Value → Run Value

namespace Run

/-- The method that a receiver has under a name. -/
def findMethod (receiver : Value) (name : NameId) : Run (Option (Method × ClassId)) := do
  ofExcept (← Action.view fun m => m.findMethod? receiver name)

/-- Call `method_missing` with the name of the method that is missing. -/
def sendMissing (invoke : Invoke) (receiver : Value) (name : NameId) (args : List Value) :
    Run Value := do
  match ← findMethod receiver .methodMissing with
  | some (method, _) => invoke method receiver (.sym name :: args)
  | none =>
    let cause ← Action.view fun m => Fault.noMethod (m.names.text name) (m.describe receiver)
    fault cause

/-- Send a message. -/
def send (invoke : Invoke) (receiver : Value) (name : NameId) (args : List Value) : Run Value := do
  match ← findMethod receiver name with
  | some (method, _) => invoke method receiver args
  | none => sendMissing invoke receiver name args

/-- Call a bound method. -/
def callBound (invoke : Invoke) (id : BoundId) (args : List Value) : Run Value := do
  let cell ← Action.view fun m => m.heap.bound id
  invoke cell.method cell.receiver args

/-- Take a method of a receiver as an object. -/
def bindMethod (receiver : Value) (name : NameId) : Run Value := do
  match ← findMethod receiver name with
  | some (method, owner) =>
    allocate fun h => h.newBound ⟨.method, name, receiver, method, owner⟩
  | none =>
    let cause ← Action.view fun m => Fault.nothingToBind (m.names.text name) (m.describe receiver)
    fault cause

/-- What a value answered a request for a text with; a value that is no string does not count, and
the plain text of `v` stands in. -/
def textOr (v answer : Value) : Run String :=
  Action.view fun m => (m.heap.text? answer).getD (m.plainText v)

/-- The text of a value. -/
def toText (invoke : Invoke) (v : Value) : Run String := do
  match v with
  | .str id => Action.view fun m => m.heap.text id
  | _ => textOr v (← send invoke v .toS [])

/-- The text of a value as it is shown to programmers. -/
def inspect (invoke : Invoke) (v : Value) : Run String := do
  textOr v (← send invoke v .inspect [])

/-- The class that a name stands for. -/
def classNamed (name : String) : Run ClassId := do
  match ← Action.view fun m => m.classes.find? name with
  | some c => pure c
  | none => fault (.unknownConstant name)

/-- Make an exception of the class with the given name. -/
def newException (invoke : Invoke) (className message : String) : Run Value := do
  let c ← classNamed className
  let text ← newString message
  send invoke (.cls c) .new [text]

end Run

end MiniRuby
