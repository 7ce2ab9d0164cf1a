import MiniRuby.Span
import MiniRuby.Name

/-!
# Syntax trees

The constructs of the language.  Every node carries the span of the text that it was read from.
Infix operators, indexing and unary minus have no nodes of their own: they are method calls.
-/

namespace MiniRuby

/-- A formal parameter of a method; the default makes it optional. -/
structure Param (ν : Type) where
  name : NameId
  default? : Option ν

/-- A `rescue` clause: the exception classes it is for, none meaning the standard one, the
variable that is bound to the exception, and what is done then. -/
structure RescueClause (ν : Type) where
  classes : List ν
  binder? : Option NameId
  body : ν

/-- A construct of the language. -/
inductive Node where
  | self (span : Span)
  | nil (span : Span)
  | int (span : Span) (value : Int64)
  | float (span : Span) (value : Float)
  | bool (span : Span) (value : Bool)
  | str (span : Span) (text : String)
  | symbol (span : Span) (name : NameId)
  | array (span : Span) (elements : List Node)
  /-- A bare name: a local variable, or a call on self without arguments. -/
  | ident (span : Span) (name : NameId)
  | instanceVar (span : Span) (name : NameId)
  | const (span : Span) (name : NameId)
  | assign (span : Span) (target value : Node)
  | and (span : Span) (left right : Node)
  | or (span : Span) (left right : Node)
  | not (span : Span) (operand : Node)
  | stmts (span : Span) (body : List Node)
  | cond (span : Span) (test yes no : Node)
  | loop (span : Span) (test body : Node)
  | guarded (span : Span) (body : Node) (rescues : List (RescueClause Node))
      (otherwise cleanup : Node)
  | breakWith (span : Span) (value : Node)
  | nextWith (span : Span) (value : Node)
  | returnWith (span : Span) (value : Node)
  | methodDef (span : Span) (name : NameId) (params : List (Param Node)) (body : Node)
  | singletonDef (span : Span) (target : Node) (name : NameId) (params : List (Param Node))
      (body : Node)
  | classDef (span : Span) (name : NameId) (parent? : Option Node) (body : Node)
  /-- A method call; without a receiver it is a call on self. -/
  | send (span : Span) (receiver? : Option Node) (name : NameId) (args : List Node)

namespace Node

instance : Inhabited Node := ⟨.nil default⟩

/-- The text that a node was read from. -/
def span : Node → Span
  | self s | nil s | int s _ | float s _ | bool s _ | str s _ | symbol s _ | array s _
  | ident s _ | instanceVar s _ | const s _ | assign s _ _ | and s _ _ | or s _ _ | not s _
  | stmts s _ | cond s _ _ _ | loop s _ _ | guarded s _ _ _ _ | breakWith s _ | nextWith s _
  | returnWith s _ | methodDef s _ _ _ | singletonDef s _ _ _ _ | classDef s _ _ _
  | send s _ _ _ => s

/-- Whether a node is the statement list without statements. -/
def isNop : Node → Bool
  | stmts _ [] => true
  | _ => false

/-! ### Nodes from parts

The span of a compound construct is put together from the spans of its parts. -/

/-- The statement list without statements. -/
def nop (place : Span) : Node := stmts place []

/-- A statement list; without statements it has the given span. -/
def ofStmts (place : Span) (body : List Node) : Node :=
  match body.head?, body.getLast? with
  | some first, some last => stmts (first.span.merge last.span) body
  | _, _ => stmts place body

def ofAssign (target value : Node) : Node := assign (target.span.merge value.span) target value

def ofAnd (left right : Node) : Node := and (left.span.merge right.span) left right

def ofOr (left right : Node) : Node := or (left.span.merge right.span) left right

def ofNot (place : Span) (operand : Node) : Node := not (place.merge operand.span) operand

/-- A call, which reaches from its receiver to its last argument. -/
def ofSend (place : Span) (receiver? : Option Node) (name : NameId) (args : List Node) : Node :=
  let withArgs :=
    match args.getLast? with
    | some arg => place.merge arg.span
    | none => place
  let whole :=
    match receiver? with
    | some receiver => withArgs.merge receiver.span
    | none => withArgs
  send whole receiver? name args

/-- An infix operator: a call on the left operand. -/
def ofInfix (name : NameId) (left right : Node) : Node :=
  ofSend left.span (some left) name [right]

def ofCond (place : Span) (test yes no : Node) : Node :=
  cond ((place.merge yes.span).merge no.span) test yes no

def ofLoop (place : Span) (test body : Node) : Node := loop (place.merge body.span) test body

def ofBreak (place : Span) (value : Node) : Node := breakWith (place.merge value.span) value

def ofNext (place : Span) (value : Node) : Node := nextWith (place.merge value.span) value

def ofReturn (place : Span) (value : Node) : Node := returnWith (place.merge value.span) value

end Node

end MiniRuby
