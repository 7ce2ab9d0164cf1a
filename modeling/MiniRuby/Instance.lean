import MiniRuby.Heap
import MiniRuby.Host

/-!
# Instances

Which class a value belongs to, and how an instance of a class is made.  A value that lives in the
heap has its class in its cell.  Any other value belongs to the class that a fixed name stands
for.
-/

namespace MiniRuby

/-- Where the class of a value is found. -/
inductive Home where
  /-- Under a name. -/
  | known (name : String)
  /-- In the value's cell. -/
  | cell (c : ClassId)

namespace Heap

/-- Where the class of a value is found. -/
def home (h : Heap) : Value → Home
  | .nil => .known "NilClass"
  | .bool true => .known "TrueClass"
  | .bool false => .known "FalseClass"
  | .int _ => .known "Integer"
  | .float _ => .known "Float"
  | .sym _ => .known "Symbol"
  | .cls _ => .known "Class"
  | .str id => .cell (h.string id).cls
  | .arr id => .cell (h.array id).cls
  | .obj id => .cell (h.object id).cls
  | .bound id => .cell (h.bound id).cls

end Heap

namespace ClassTable

/-- The name of a value's class. -/
def nameOf (t : ClassTable) (h : Heap) (v : Value) : String :=
  match h.home v with
  | .known name => name
  | .cell c => t.name c

/-- The class of a value. -/
def classOf (t : ClassTable) (h : Heap) (v : Value) : Except Fault ClassId :=
  match h.home v with
  | .known name =>
    match t.find? name with
    | some c => .ok c
    | none => .error (.unknownConstant name)
  | .cell c => .ok c

/-- The size that an array is asked for with. -/
def sizeOfNew (t : ClassTable) (h : Heap) (v : Value) : Except Fault Nat :=
  match v with
  | .int i => if i < 0 then .error .negativeSize else .ok i.toInt.toNat
  | _ => .error (.noConversion (t.nameOf h v) "Integer")

/-- Make an instance of a class, with the arguments that its payload asks for: a text may be
given, or a size that memory can be reserved for, and a first element. -/
def instantiate (t : ClassTable) (h : Heap) (c : ClassId) (args : List Value)
    (memory : Memory := Host.standard.memory) : Except Fault (Value × Heap) :=
  match t.payload c with
  | .ivars => .ok (h.newObject c)
  | .text =>
    match args with
    | [] => .ok (h.newString c "")
    | [.str id] => .ok (h.newString c (h.text id))
    | [v] => .error (.noConversion (t.nameOf h v) "String")
    | _ => .error (.wrongCount args.length (.between 0 1))
  | .elements =>
    let make (size : Nat) (v : Value) : Except Fault (Value × Heap) :=
      if memory.holdsElements 0 size then .ok (h.newArray c (Array.replicate size v))
      else .error .tooBig
    match args with
    | [] => make 0 .nil
    | [size] => do make (← t.sizeOfNew h size) .nil
    | [size, v] => do make (← t.sizeOfNew h size) v
    | _ => .error (.wrongCount args.length (.between 0 2))
  | .withheld => .error (.noAllocator (t.name c))

end ClassTable

end MiniRuby
