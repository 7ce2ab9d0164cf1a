import MiniRuby.Dispatch

/-!
# Arguments

What native methods ask of their arguments.  The number of arguments has been checked when a
native method runs, so an argument that is not there is never looked at.
-/

namespace MiniRuby.Run

/-- The argument at a position. -/
def arg (args : List Value) (i : Nat) : Value := args.getD i .nil

/-- The name of a value's class. -/
def className (v : Value) : Run String := Action.view fun m => m.className v

/-- Fail with a fault that tells the class of a value. -/
def faultOn {α : Type} (v : Value) (cause : String → Fault) : Run α := do
  fault (cause (← className v))

def expectInteger (v : Value) : Run Int64 :=
  match v with
  | .int i => pure i
  | _ => faultOn v (.noConversion · "Integer")

def expectText (v : Value) : Run String := do
  match v with
  | .str id => Action.view fun m => m.heap.text id
  | _ => faultOn v (.noConversion · "String")

def expectClass (v : Value) : Run ClassId :=
  match v with
  | .cls c => pure c
  | _ => faultOn v .notAClass

def expectElements (v : Value) : Run (List Value) := do
  match v with
  | .arr id => Action.view fun m => (m.heap.elements id).toList
  | _ => faultOn v (.noConversion · "Array")

/-- A name, given as a symbol or as a string. -/
def expectName (invoke : Invoke) (v : Value) : Run NameId := do
  match v with
  | .sym name => pure name
  | .str id =>
    let text ← Action.view fun m => m.heap.text id
    intern text
  | _ => fault (.notAName (← inspect invoke v))

/-- The truth of something as a value. -/
def answer (b : Bool) : Run Value := pure (.bool b)

end MiniRuby.Run
