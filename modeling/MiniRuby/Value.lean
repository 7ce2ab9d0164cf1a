import MiniRuby.Name

/-!
# Values

What expressions evaluate to.  Numbers, symbols, classes and the three constants are known by
what they are; strings, arrays, objects and bound methods live in the heap, and a value only says
where.  Two values are identical when nothing can tell them apart.
-/

namespace MiniRuby

/-- A position in the table of classes. -/
structure ClassId where
  index : Nat
deriving DecidableEq, Inhabited

/-- A string in the heap. -/
structure StringId where
  index : Nat
deriving DecidableEq, Inhabited

/-- An array in the heap. -/
structure ArrayId where
  index : Nat
deriving DecidableEq, Inhabited

/-- An object in the heap. -/
structure ObjectId where
  index : Nat
deriving DecidableEq, Inhabited

/-- A bound method in the heap. -/
structure BoundId where
  index : Nat
deriving DecidableEq, Inhabited

/-- What an expression evaluates to. -/
inductive Value where
  | nil
  | bool (b : Bool)
  | int (i : Int64)
  | float (x : Float)
  | str (id : StringId)
  | sym (name : NameId)
  | arr (id : ArrayId)
  | cls (id : ClassId)
  | obj (id : ObjectId)
  | bound (id : BoundId)
deriving Inhabited

namespace Value

/-- The object that is self outside of all classes and methods. -/
def main : Value := obj ⟨0⟩

/-- Everything but `nil` and `false` counts as true. -/
def truthy : Value → Bool
  | nil | bool false => false
  | _ => true

def isNil : Value → Bool
  | nil => true
  | _ => false

/-- Whether two values are the same one.  Floats are the same when all their bits are, so a zero
differs from its negative; what lives in the heap is the same when it stands in the same place. -/
def identical : Value → Value → Bool
  | nil, nil => true
  | bool a, bool b => a == b
  | int a, int b => a == b
  | float x, float y => x.toBits == y.toBits
  | str a, str b => a == b
  | sym a, sym b => a == b
  | arr a, arr b => a == b
  | cls a, cls b => a == b
  | obj a, obj b => a == b
  | bound a, bound b => a == b
  | _, _ => false

/-- A number for a value, by which it can be told from others.  An integer has an odd number; the
numbers of symbols, classes and heap cells differ in what they leave modulo 256. -/
def objectId : Value → UInt64
  | nil => 8
  | bool false => 0
  | bool true => 20
  | int i => i.toUInt64 * 2 + 1
  | float x => x.toBits ||| 2
  | sym name => UInt64.ofNat name.index * 256 + 12
  | cls id => UInt64.ofNat id.index * 256 + 16
  | str id => UInt64.ofNat id.index * 256 + 32
  | arr id => UInt64.ofNat id.index * 256 + 40
  | obj id => UInt64.ofNat id.index * 256 + 48
  | bound id => UInt64.ofNat id.index * 256 + 56

/-- Whether a value lives in the heap. -/
def inHeap : Value → Bool
  | str _ | arr _ | obj _ | bound _ => true
  | _ => false

@[simp] theorem identical_self (v : Value) : v.identical v = true := by
  cases v <;> simp [identical]

theorem identical_comm (v w : Value) : v.identical w = w.identical v := by
  cases v <;> cases w <;> simp [identical, Bool.beq_comm]

end Value

end MiniRuby
