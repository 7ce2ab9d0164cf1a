import MiniRuby.Decimal.Remainder
import MiniRuby.Decimal.Writing
import MiniRuby.Integer
import MiniRuby.Library.Argument

/-!
# Numbers

The native methods of integers and floats.  An operation of two integers is an exact one; as soon
as one operand is a float, both are taken as floats.
-/

namespace MiniRuby

/-! ### Order -/

/-- The order of two floats; there is none when one of them is not a number. -/
def compareFloats? (x y : Float) : Option Ordering :=
  if x < y then some .lt
  else if x == y then some .eq
  else if x > y then some .gt
  else none

/-- The order of two numbers; there is none when one of the values is not a number. -/
def compareNumbers? : Value → Value → Option Ordering
  | .int a, .int b => some (compare a b)
  | .int a, .float y => compareFloats? a.toFloat y
  | .float x, .int b => compareFloats? x b.toFloat
  | .float x, .float y => compareFloats? x y
  | _, _ => none

/-- Whether a value is the float that is not a number. -/
def isNaN : Value → Bool
  | .float x => x.isNaN
  | _ => false

/-- Sign of an order. -/
def signOf : Ordering → Int64
  | .lt => -1
  | .eq => 0
  | .gt => 1

/-- Whether two numbers are in an order.  Nothing is in any order with the float that is not a
number; what is no number at all cannot be compared. -/
def inOrder (invoke : Invoke) (test : Ordering → Bool) (self other : Value) : Run Value := do
  match compareNumbers? self other with
  | some o => Run.answer (test o)
  | none =>
    if isNaN self || isNaN other then Run.answer false
    else
      let left ← Run.className self
      Run.fault (.incomparable left (← Run.inspect invoke other))

def OrderOp.run (invoke : Invoke) (op : OrderOp) (self : Value) (args : List Value) : Run Value :=
  let other := Run.arg args 0
  match op with
  | .equals => Run.answer (compareNumbers? self other == some .eq)
  | .compare =>
    match compareNumbers? self other with
    | some o => pure (.int (signOf o))
    | none => pure .nil
  | .less => inOrder invoke (· == .lt) self other
  | .atMost => inOrder invoke (· != .gt) self other
  | .greater => inOrder invoke (· == .gt) self other
  | .atLeast => inOrder invoke (· != .lt) self other

/-! ### Integers -/

namespace IntegerOp

def receiver (self : Value) : Run Int64 :=
  match self with
  | .int i => pure i
  | _ => Run.fault (.wrongReceiver "an Integer")

/-- An operation of two numbers, by what it is for two integers and for two floats. -/
def arithmetic (onIntegers : Int64 → Int64 → Except Fault Int64)
    (onFloats : Float → Float → Float) (self other : Value) : Run Value := do
  let a ← receiver self
  match other with
  | .int b => .int <$> Run.ofExcept (onIntegers a b)
  | .float y => pure (.float (onFloats a.toFloat y))
  | _ => Run.faultOn other (.noCoercion · "Integer")

/-- A power; a negative exponent makes it a float. -/
def power (self other : Value) : Run Value := do
  let a ← receiver self
  match other with
  | .int b =>
    if b < 0 then pure (.float (a.toFloat.pow b.toFloat))
    else .int <$> Run.ofExcept (Integer.pow a b.toInt.toNat)
  | .float y => pure (.float (a.toFloat.pow y))
  | _ => Run.faultOn other (.noCoercion · "Integer")

/-- An operation of one integer that may not fit. -/
def unary (f : Int64 → Except Fault Int64) (self : Value) : Run Value := do
  .int <$> Run.ofExcept (f (← receiver self))

def run (op : IntegerOp) (self : Value) (args : List Value) : Run Value := do
  let other := Run.arg args 0
  match op with
  | .add => arithmetic Integer.add (· + ·) self other
  | .sub => arithmetic Integer.sub (· - ·) self other
  | .mul => arithmetic Integer.mul (· * ·) self other
  | .div =>
    let d ← Action.view fun m => m.host.division
    arithmetic (Integer.div d) (· / ·) self other
  | .mod =>
    let d ← Action.view fun m => m.host.division
    arithmetic (Integer.mod d) Decimal.flooredRemainder self other
  | .pow => power self other
  | .neg => unary Integer.neg self
  | .abs => unary Integer.abs self
  | .succ => unary Integer.succ self
  | .toS => Run.newString (Integer.text (← receiver self))
  | .toI => pure self
  | .toF => pure (.float (← receiver self).toFloat)
  | .isZero => Run.answer (compareNumbers? self (.int 0) == some .eq)
  | .isEven => Run.answer ((← receiver self) % 2 == 0)
  | .isOdd => Run.answer ((← receiver self) % 2 != 0)

end IntegerOp

/-! ### Floats -/

namespace FloatOp

def receiver (self : Value) : Run Float :=
  match self with
  | .float x => pure x
  | _ => Run.fault (.wrongReceiver "a Float")

def operand (v : Value) : Run Float :=
  match v with
  | .int i => pure i.toFloat
  | .float x => pure x
  | _ => Run.faultOn v (.noCoercion · "Float")

/-- An operation of two floats. -/
def arithmetic (f : Float → Float → Float) (self other : Value) : Run Value := do
  let x ← receiver self
  let y ← operand other
  pure (.float (f x y))

/-- The text of a float. -/
def text (x : Float) : String := Decimal.write .value x

/-- The integer that a float without a fraction stands for. -/
def toInteger (x : Float) : Except Fault Int64 :=
  if x.isNaN || x.isInf then .error (.notFinite (text x))
  else if x < -9223372036854775808.0 || x >= 9223372036854775808.0 then
    .error (.outOfRange (text x))
  else .ok x.toInt64

/-- A way of rounding a float to an integer. -/
def rounded (f : Float → Float) (self : Value) : Run Value := do
  .int <$> Run.ofExcept (toInteger (f (← receiver self)))

def run (op : FloatOp) (self : Value) (args : List Value) : Run Value := do
  let other := Run.arg args 0
  match op with
  | .add => arithmetic (· + ·) self other
  | .sub => arithmetic (· - ·) self other
  | .mul => arithmetic (· * ·) self other
  | .div => arithmetic (· / ·) self other
  | .mod => arithmetic Decimal.flooredRemainder self other
  | .pow => arithmetic Float.pow self other
  | .neg => pure (.float (-(← receiver self)))
  | .toS => Run.newString (text (← receiver self))
  | .toI => rounded Decimal.truncate self
  | .toF => pure self
  | .floor => rounded Float.floor self
  | .ceil => rounded Float.ceil self
  | .round => rounded Float.round self
  | .abs => pure (.float (← receiver self).abs)
  | .isNaN => Run.answer (← receiver self).isNaN

end FloatOp

end MiniRuby
