import MiniRuby.Library.Argument

/-!
# Arrays

The native methods of arrays.  An index below zero counts from the end.  Where a method asks the
elements for something, it goes through the elements that the array had when it was called.
-/

namespace MiniRuby

/-- The position that an index means in an array of a given size; it may lie outside. -/
def position (index : Int) (size : Nat) : Int := if index < 0 then index + size else index

/-- The element that an index means, or `nil` when it is out of range. -/
def elementAt (elements : Array Value) (index : Int) : Value :=
  let p := position index elements.size
  if p < 0 then .nil else (elements[p.toNat]?).getD .nil

/-- The position that an element is stored at, in an array of a given size.  It may lie past the
end, but neither before the beginning nor farther out than memory can be reserved for. -/
def storePosition (memory : Memory) (index : Int) (size : Nat) : Except Fault Nat :=
  let p := position index size
  if p < 0 then .error (.indexTooSmall index size)
  else if memory.holdsElements size (p.toNat + 1) then .ok p.toNat
  else .error (.indexTooBig index)

/-- Put an element at a position; past the end, the gap is filled with `nil`. -/
def place (elements : Array Value) (p : Nat) (v : Value) : Array Value :=
  if p < elements.size then elements.setIfInBounds p v
  else (elements ++ Array.replicate (p - elements.size) Value.nil).push v

namespace ArrayOp

def receiver (self : Value) : Run ArrayId :=
  match self with
  | .arr id => pure id
  | _ => Run.fault (.wrongReceiver "an Array")

/-- The elements of the receiver. -/
def selfElements (self : Value) : Run (Array Value) := do
  let id ← receiver self
  Action.view fun m => m.heap.elements id

/-- Put an element into the receiver. -/
def store (self index v : Value) : Run Value := do
  let i ← Run.expectInteger index
  let id ← receiver self
  let size ← Action.view fun m => (m.heap.elements id).size
  let memory ← Action.view fun m => m.host.memory
  let p ← Run.ofExcept (storePosition memory i.toInt size)
  Run.updateHeap fun h => h.modifyElements id fun elements => place elements p v
  pure v

/-- Whether `==` holds between two values, as the first one understands it. -/
def equal (invoke : Invoke) (v w : Value) : Run Bool := do
  return (← Run.send invoke v .equals [w]).truthy

/-- Whether two arrays have the same size and equal elements. -/
def equalElements (invoke : Invoke) (self other : Value) : Run Value := do
  match other with
  | .arr id =>
    let right ← Action.view fun m => m.heap.elements id
    let left ← selfElements self
    if left.size = right.size then
      let differ ← Action.any (fun p => Bool.not <$> equal invoke p.1 p.2)
        (left.toList.zip right.toList)
      Run.answer !differ
    else Run.answer false
  | _ => Run.answer false

/-- The texts of the elements, with a separator between them. -/
def joined (invoke : Invoke) (self : Value) (args : List Value) : Run Value := do
  let separator ←
    match args with
    | [] => pure ""
    | v :: _ => Run.expectText v
  let elements ← selfElements self
  let parts ← Action.each (Run.toText invoke) elements.toList
  Run.newString (separator.intercalate parts)

/-- The elements in brackets; an array that is an element of itself is only hinted at. -/
def inspectElements (invoke : Invoke) (self : Value) : Run Value := do
  let elements ← selfElements self
  let parts ← Action.each (fun v =>
    if v.identical self then pure "[...]" else Run.inspect invoke v) elements.toList
  Run.newString ("[" ++ ", ".intercalate parts ++ "]")

def run (invoke : Invoke) (op : ArrayOp) (self : Value) (args : List Value) : Run Value := do
  let other := Run.arg args 0
  match op with
  | .get =>
    let i ← Run.expectInteger other
    pure (elementAt (← selfElements self) i.toInt)
  | .set => store self other (Run.arg args 1)
  | .push =>
    let id ← receiver self
    Run.updateHeap fun h => h.modifyElements id fun elements => elements ++ args
    pure self
  | .pop =>
    let id ← receiver self
    let v ← Action.view fun m => (m.heap.elements id).back?
    Run.updateHeap fun h => h.modifyElements id Array.pop
    pure (v.getD .nil)
  | .first => pure ((← selfElements self)[0]?.getD .nil)
  | .last => pure ((← selfElements self).back?.getD .nil)
  | .size => pure (.int (Int64.ofNat (← selfElements self).size))
  | .isEmpty => Run.answer (← selfElements self).isEmpty
  | .includes =>
    let elements ← selfElements self
    let found ← Action.any (fun v => equal invoke v other) elements.toList
    Run.answer found
  | .concat =>
    let right ← Run.expectElements other
    let left ← selfElements self
    Run.newArray (left ++ right)
  | .equals => equalElements invoke self other
  | .join => joined invoke self args
  | .reverse => Run.newArray (← selfElements self).reverse
  | .inspect => inspectElements invoke self

end ArrayOp

end MiniRuby
