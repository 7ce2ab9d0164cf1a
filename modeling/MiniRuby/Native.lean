import MiniRuby.Name

/-!
# Native methods

The methods that come with the interpreter, as names for what they do.  Their meaning is given in
the library; here they are plain data, so that a table of methods is plain data too.
-/

namespace MiniRuby

/-- What every object can do. -/
inductive ObjectOp where
  | same
  | differs
  | negate
  | setup
  | classOf
  | inspect
  | toS
  | isNil
  | isA
  | instanceOf
  | respondTo
  | objectId
  | send
  | bind
  | variableGet
  | variableSet
  | variableNames
deriving DecidableEq

/-- What can be done anywhere: writing output, raising exceptions, checking. -/
inductive KernelOp where
  | puts
  | print
  | p
  | raise
  | assert
deriving DecidableEq

/-- What classes can do. -/
inductive ClassOp where
  | new
  | name
  | parent
  | ancestors
  | methods
  | definesMethod
  | removeMethod
  | covers
  | readers
  | writers
  | accessors
deriving DecidableEq

/-- What `nil`, `true` and `false` can do. -/
inductive TruthOp where
  /-- Answer a constant, whatever the argument. -/
  | always (answer : Bool)
  /-- Answer whether the argument counts as true. -/
  | argument
  | noElements
  | text (answer : String)
deriving DecidableEq

/-- Comparisons of numbers. -/
inductive OrderOp where
  | equals
  | compare
  | less
  | atMost
  | greater
  | atLeast
deriving DecidableEq

/-- What integers can do. -/
inductive IntegerOp where
  | add
  | sub
  | mul
  | div
  | mod
  | pow
  | neg
  | toS
  | toI
  | toF
  | abs
  | succ
  | isZero
  | isEven
  | isOdd
deriving DecidableEq

/-- What floats can do. -/
inductive FloatOp where
  | add
  | sub
  | mul
  | div
  | mod
  | pow
  | neg
  | toS
  | toI
  | toF
  | floor
  | ceil
  | round
  | abs
  | isNaN
deriving DecidableEq

/-- What strings can do. -/
inductive StringOp where
  | concat
  | append
  | times
  | equals
  | size
  | isEmpty
  | includes
  | startsWith
  | upcase
  | downcase
  | reverse
  | toS
  | toSym
  | toI
  | inspect
deriving DecidableEq

/-- What symbols can do. -/
inductive SymbolOp where
  | toS
  | toSym
  | inspect
deriving DecidableEq

/-- What arrays can do. -/
inductive ArrayOp where
  | get
  | set
  | push
  | pop
  | first
  | last
  | size
  | isEmpty
  | includes
  | concat
  | equals
  | join
  | reverse
  | inspect
deriving DecidableEq

/-- What bound methods can do. -/
inductive BoundOp where
  | call
  | arity
  | name
  | owner
  | receiver
  | inspect
deriving DecidableEq

/-- What exceptions can do. -/
inductive ExceptionOp where
  | setup
  | message
  | inspect
deriving DecidableEq

/-- A native method. -/
inductive Native where
  | object (op : ObjectOp)
  | kernel (op : KernelOp)
  | cls (op : ClassOp)
  | truth (op : TruthOp)
  | order (op : OrderOp)
  | integer (op : IntegerOp)
  | float (op : FloatOp)
  | string (op : StringOp)
  | symbol (op : SymbolOp)
  | array (op : ArrayOp)
  | bound (op : BoundOp)
  | exception (op : ExceptionOp)
  /-- Read an instance variable. -/
  | reader (variableName : NameId)
  /-- Write an instance variable. -/
  | writer (variableName : NameId)
  /-- Answer the array of the receiver and the arguments. -/
  | gather
deriving DecidableEq

end MiniRuby
