import MiniRuby.Arity

/-!
# Faults

What the interpreter itself finds wrong while a program runs, as opposed to an exception that the
program raises.  A fault is told by its cause; its kind and its wording follow from that.
-/

namespace MiniRuby

/-- The kinds of faults. -/
inductive FaultKind where
  | unresolvedClass
  | noMethod
  | argument
  | type
  | name
  | zeroDivision
  | range
  | index
  | localJump
  | stackOverflow
  | runtime
  | internal
deriving DecidableEq

/-- The name of the exception class that a kind of faults stands for. -/
def FaultKind.className : FaultKind → String
  | unresolvedClass => "NameError"
  | noMethod => "NoMethodError"
  | argument => "ArgumentError"
  | type => "TypeError"
  | name => "NameError"
  | zeroDivision => "ZeroDivisionError"
  | range => "RangeError"
  | index => "IndexError"
  | localJump => "LocalJumpError"
  | stackOverflow => "SystemStackError"
  | runtime => "RuntimeError"
  | internal => "InternalError"

/-- What went wrong.  Receivers are given as they are described in messages, and values that a
message shows as they are written there. -/
inductive Fault where
  /-- No class or constant has this name. -/
  | unknownConstant (name : String)
  /-- A method was called that the receiver does not have. -/
  | noMethod (name receiver : String)
  /-- A method was asked for as an object that the receiver does not have. -/
  | nothingToBind (name receiver : String)
  /-- A bare name is neither a variable nor a method. -/
  | unknownName (name receiver : String)
  /-- An instance variable was asked for by a name that none can have. -/
  | badVariableName (name : String)
  /-- A method was to be removed from a class that does not define it. -/
  | notDefinedIn (name owner : String)
  | wrongCount (given : Nat) (expected : Arity)
  | negativeSize
  | negativeCount
  | tooBig
  | incomparable (left right : String)
  | noConversion (given wanted : String)
  | noCoercion (given wanted : String)
  | notAName (text : String)
  | notAClass (given : String)
  | rescueNeedsClass
  | noSingleton (receiver : String)
  | parentNotAClass (given : String)
  | parentMismatch (name : String)
  | noAllocator (name : String)
  | notAnException
  | divisionByZero
  | overflow
  /-- A float that is not finite has no integer part. -/
  | notFinite (text : String)
  /-- The integer part of a float is too large. -/
  | outOfRange (text : String)
  | indexTooSmall (index : Int) (size : Nat)
  | indexTooBig (index : Int)
  | strayBreak
  | strayNext
  | strayReturn
  | tooDeep
  /-- Only plain objects have instance variables. -/
  | noVariables (receiver : String)
  | assertion (expected given : String)
  /-- A native method was run on a receiver that it is not for. -/
  | wrongReceiver (wanted : String)
  | badTarget
  | outputFailed (reason : String)
deriving DecidableEq

namespace Fault

/-- The kind of a fault. -/
def kind : Fault → FaultKind
  | unknownConstant _ => .unresolvedClass
  | noMethod _ _ => .noMethod
  | nothingToBind _ _ | unknownName _ _ | badVariableName _ | notDefinedIn _ _ => .name
  | wrongCount _ _ | negativeSize | negativeCount | tooBig | incomparable _ _ => .argument
  | noConversion _ _ | noCoercion _ _ | notAName _ | notAClass _ | rescueNeedsClass
  | noSingleton _ | parentNotAClass _ | parentMismatch _ | noAllocator _ | notAnException => .type
  | divisionByZero => .zeroDivision
  | overflow | notFinite _ | outOfRange _ => .range
  | indexTooSmall _ _ | indexTooBig _ => .index
  | strayBreak | strayNext | strayReturn => .localJump
  | tooDeep => .stackOverflow
  | noVariables _ | assertion _ _ => .runtime
  | wrongReceiver _ | badTarget | outputFailed _ => .internal

/-- The wording of a fault. -/
def message : Fault → String
  | unknownConstant name => s!"uninitialized constant {name}"
  | noMethod name receiver | nothingToBind name receiver =>
    s!"undefined method '{name}' for {receiver}"
  | unknownName name receiver => s!"undefined local variable or method '{name}' for {receiver}"
  | badVariableName name => s!"'{name}' is not allowed as an instance variable name"
  | notDefinedIn name owner => s!"method '{name}' not defined in {owner}"
  | wrongCount given expected =>
    s!"wrong number of arguments (given {given}, expected {expected.text})"
  | negativeSize => "negative array size"
  | negativeCount => "negative argument"
  | tooBig => "argument too big"
  | incomparable left right => s!"comparison of {left} with {right} failed"
  | noConversion given wanted => s!"no implicit conversion of {given} into {wanted}"
  | noCoercion given wanted => s!"{given} can't be coerced into {wanted}"
  | notAName text => s!"{text} is not a symbol nor a string"
  | notAClass given => s!"class or module required ({given} given)"
  | rescueNeedsClass => "class or module required for rescue clause"
  | noSingleton receiver => s!"can't define singleton method for {receiver}"
  | parentNotAClass given => s!"superclass must be a Class ({given} given)"
  | parentMismatch name => s!"superclass mismatch for class {name}"
  | noAllocator name => s!"allocator undefined for {name}"
  | notAnException => "exception class/object expected"
  | divisionByZero => "divided by 0"
  | overflow => "integer overflow"
  | notFinite text => text
  | outOfRange text => s!"float {text} out of range of integer"
  | indexTooSmall index size => s!"index {index} too small for array; minimum: -{size}"
  | indexTooBig index => s!"index {index} too big"
  | strayBreak => "break from proc-closure"
  | strayNext => "next used outside of a loop"
  | strayReturn => "unexpected return"
  | tooDeep => "stack level too deep"
  | noVariables receiver => s!"can't modify instance variable of {receiver}"
  | assertion expected given => s!"assertion failed: expected {expected} but got {given}"
  | wrongReceiver wanted => s!"receiver is not {wanted}"
  | badTarget => "unsupported assignment target"
  | outputFailed reason => s!"failed to write output: {reason}"

/-- The wording of a fault with the name of the exception class that it stands for. -/
def report (f : Fault) : String := s!"{f.message} ({f.kind.className})"

end Fault

end MiniRuby
