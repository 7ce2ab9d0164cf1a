import MiniRuby.Arity
import MiniRuby.Native
import MiniRuby.Scope
import MiniRuby.Syntax.Node

/-!
# Methods

A method is either native or given by a definition in a program.  It belongs to a class and not to
an object: the receiver is an argument of each call.
-/

namespace MiniRuby

/-- A method with its name. -/
inductive Method where
  | native (name : NameId) (arity : Arity) (op : Native)
  /-- A method that a program defined; calls run in a new frame inside the scope of the
  definition. -/
  | defined (name : NameId) (params : List (Param Node)) (body : Node) (scope : Scope)

namespace Method

def name : Method → NameId
  | native name _ _ => name
  | defined name _ _ _ => name

/-- The arguments that a list of parameters takes: one for each, and those with a default may be
left out. -/
def arityOf (params : List (Param Node)) : Arity :=
  .between (params.countP fun p => p.default?.isNone) params.length

def arity : Method → Arity
  | native _ arity _ => arity
  | defined _ params _ _ => arityOf params

def isNative : Method → Bool
  | native _ _ _ => true
  | defined _ _ _ _ => false

end Method

end MiniRuby
