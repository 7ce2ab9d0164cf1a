import MiniRuby.Action
import MiniRuby.Failure
import MiniRuby.Instance
import MiniRuby.Source

/-!
# The machine

All that a running program can see or change: the names, the classes, the heap, the frames of
local variables, the constants, what has been written, and how deeply calls are nested.  A run is
an action on a machine that may fail; what it did before it failed stays done.
-/

namespace MiniRuby

/-- Where output goes: it is collected, or refused for a reason. -/
inductive Sink where
  | collecting (written : String)
  | refusing (reason : String)

namespace Sink

/-- What has been written. -/
def written : Sink → String
  | collecting text => text
  | refusing _ => ""

end Sink

/-- The state of the interpreter. -/
structure Machine where
  names : NameTable
  classes : ClassTable
  heap : Heap
  frames : FrameStore
  constants : Bindings Value
  /-- The text that was read last. -/
  source? : Option Source
  sink : Sink
  /-- The number of calls that have not ended yet. -/
  depth : Nat
  /-- What is lent from outside; it stays the same. -/
  host : Host

/-! ### The classes that the interpreter itself refers to -/

namespace ClassId

def basicObject : ClassId := ⟨0⟩
def object : ClassId := ⟨1⟩
/-- The class of classes. -/
def classes : ClassId := ⟨2⟩
def nilClass : ClassId := ⟨3⟩
def trueClass : ClassId := ⟨4⟩
def falseClass : ClassId := ⟨5⟩
def integer : ClassId := ⟨6⟩
def float : ClassId := ⟨7⟩
def string : ClassId := ⟨8⟩
def symbol : ClassId := ⟨9⟩
def array : ClassId := ⟨10⟩
def method : ClassId := ⟨11⟩
def exception : ClassId := ⟨12⟩
def standardError : ClassId := ⟨13⟩

end ClassId

namespace Machine

/-- The name of a value's class. -/
def className (m : Machine) (v : Value) : String := m.classes.nameOf m.heap v

/-- The class of a value. -/
def classOf (m : Machine) (v : Value) : Except Fault ClassId := m.classes.classOf m.heap v

/-- A receiver as messages describe it. -/
def describe (m : Machine) (v : Value) : String :=
  match v with
  | .nil => "nil"
  | .bool true => "true"
  | .bool false => "false"
  | .cls c => "class " ++ m.classes.name c
  | _ => if v.identical .main then "main:Object" else "an instance of " ++ m.className v

/-- The text of a value that has no text of its own. -/
def plainText (m : Machine) (v : Value) : String :=
  if v.identical .main then "main" else "#<" ++ m.className v ++ ">"

/-- The message of an exception: what its message variable says, or else the name of its
class. -/
def exceptionMessage (m : Machine) (v : Value) : String :=
  match v with
  | .obj id =>
    match m.heap.ivar? id .message with
    | some (.str text) => m.heap.text text
    | _ => m.className v
  | _ => m.className v

/-- A failure as it is told to the user. -/
def failureMessage (m : Machine) (f : Failure) : String :=
  match f.signal with
  | .fault cause => cause.report
  | .raised e => m.exceptionMessage e ++ " (" ++ m.className e ++ ")"
  | .returned _ | .broke _ | .skipped _ => "LocalJumpError"

/-- What a constant stands for; a class need not be set to be known by its name. -/
def constant (m : Machine) (name : NameId) : Except Fault Value :=
  match m.constants.get? name with
  | some v => .ok v
  | none =>
    let text := m.names.text name
    match m.classes.find? text with
    | some c => .ok (.cls c)
    | none => .error (.unknownConstant text)

/-- The method that a receiver has under a name, with its owner.  A class has its own methods and
those of the classes above it before the ones that all classes have. -/
def findMethod? (m : Machine) (receiver : Value) (name : NameId) :
    Except Fault (Option (Method × ClassId)) := do
  match receiver with
  | .cls c =>
    match m.classes.findClassMethod? c name with
    | some found => .ok (some found)
    | none => .ok (m.classes.findMethod? (← m.classOf receiver) name)
  | _ => .ok (m.classes.findMethod? (← m.classOf receiver) name)

/-- Whether a value is an instance of a class or of one below it. -/
def isA (m : Machine) (v : Value) (c : ClassId) : Except Fault Bool := do
  .ok (m.classes.isSubclass (← m.classOf v) c)

/-- The lines that a span touches in the text that was read last. -/
def mark (m : Machine) (span : Span) : String :=
  match m.source? with
  | some source => source.mark span m.host.columns
  | none => ""

end Machine

/-- A step of a running program. -/
abbrev Run (α : Type) : Type := Action Machine Failure α

namespace Run

variable {α : Type}

/-- Fail with a fault whose place is not known yet. -/
def fault (cause : Fault) : Run α := Action.fail (.ofFault cause)

/-- Answer what was worked out, or fail with the fault that came up. -/
def ofExcept : Except Fault α → Run α
  | .ok a => pure a
  | .error cause => fault cause

/-- Note the place of a failure. -/
def located (place : Span) (x : Run α) : Run α := Action.mapError (Failure.locate place) x

/-- The position of a name. -/
def intern (text : String) : Run NameId := Action.transform fun m =>
  let r := m.names.intern text
  (r.1, { m with names := r.2 })

/-- Make a value in the heap. -/
def allocate (make : Heap → Value × Heap) : Run Value := Action.transform fun m =>
  let r := make m.heap
  (r.1, { m with heap := r.2 })

/-- Make a string. -/
def newString (text : String) : Run Value := allocate fun h => h.newString .string text

/-- Make an array. -/
def newArray (elements : Array Value) : Run Value := allocate fun h => h.newArray .array elements

/-- Change the heap. -/
def updateHeap (f : Heap → Heap) : Run Unit := Action.update fun m => { m with heap := f m.heap }

/-- Change the classes. -/
def updateClasses (f : ClassTable → ClassTable) : Run Unit :=
  Action.update fun m => { m with classes := f m.classes }

/-- What an instance variable holds; one that was never set holds `nil`, and only plain objects
have any. -/
def getVariable (self : Value) (name : NameId) : Run Value := do
  match self with
  | .obj id => Action.view fun m => (m.heap.ivar? id name).getD .nil
  | _ => pure .nil

/-- Set an instance variable, which only plain objects have. -/
def setVariable (self : Value) (name : NameId) (v : Value) : Run Value := do
  match self with
  | .obj id =>
    updateHeap fun h => h.setVariable id name v
    pure v
  | _ => fault (.noVariables (← Action.view fun m => m.describe self))

/-- Bind a variable in the innermost frame of a scope. -/
def setLocal (scope : Scope) (name : NameId) (v : Value) : Run Unit :=
  Action.update fun m => { m with frames := m.frames.set scope name v }

/-- Open a new frame inside a scope. -/
def openScope (scope : Scope) : Run Scope := Action.transform fun m =>
  let r := m.frames.child scope
  (r.1, { m with frames := r.2 })

/-- Write a text.  Nothing is refused when there is nothing to write. -/
def write (text : String) : Run Unit := fun m =>
  match m.sink with
  | .collecting written => .done () { m with sink := .collecting (written ++ text) }
  | .refusing reason =>
    if text.isEmpty then .done () m else .failed (.ofFault (.outputFailed reason)) m

end Run

end MiniRuby
