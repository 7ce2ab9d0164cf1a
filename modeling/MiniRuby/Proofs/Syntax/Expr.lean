import MiniRuby.Proofs.Name
import MiniRuby.Syntax.Node

/-!
# Expressions without places

What an expression of integers, calls and operators is, apart from where it stands in a text and
where its names stand in a table (`Expr`).  A node denotes at most one expression
(`Node.Denotes.unique`), and it goes on to denote it when more names become known.
-/

namespace MiniRuby

/-- An expression of integers, calls without arguments, and infix operators. -/
inductive Expr where
  | int (value : Int64)
  | call (receiver : Expr) (method : String)
  /-- The call of an operator's method on the left operand. -/
  | binary (left : Expr) (method : String) (right : Expr)
  | and (left right : Expr)
  | or (left right : Expr)

namespace Node

/-- Whether a node is an expression, with its names in a table. -/
inductive Denotes (names : NameTable) : Node → Expr → Prop where
  | int (s : Span) (i : Int64) : Denotes names (.int s i) (.int i)
  | call (s : Span) {receiver : Node} {e : Expr} {id : NameId} (known : names.Has id)
      (h : Denotes names receiver e) :
      Denotes names (.send s (some receiver) id []) (.call e (names.text id))
  | binary (s : Span) {left right : Node} {e e' : Expr} {id : NameId} (known : names.Has id)
      (h : Denotes names left e) (h' : Denotes names right e') :
      Denotes names (.send s (some left) id [right]) (.binary e (names.text id) e')
  | and (s : Span) {left right : Node} {e e' : Expr} (h : Denotes names left e)
      (h' : Denotes names right e') : Denotes names (.and s left right) (.and e e')
  | or (s : Span) {left right : Node} {e e' : Expr} (h : Denotes names left e)
      (h' : Denotes names right e') : Denotes names (.or s left right) (.or e e')

variable {names names' : NameTable} {node : Node} {e e' : Expr}

theorem Denotes.extend (h : node.Denotes names e) (he : names.Extends names') :
    node.Denotes names' e := by
  induction h with
  | int s i => exact .int s i
  | call s known _ ih => exact he.text_eq _ known ▸ .call s (he.has known) ih
  | binary s known _ _ ih ih' => exact he.text_eq _ known ▸ .binary s (he.has known) ih ih'
  | and s _ _ ih ih' => exact .and s ih ih'
  | or s _ _ ih ih' => exact .or s ih ih'

theorem Denotes.unique (h : node.Denotes names e) (h' : node.Denotes names e') : e = e' := by
  induction h generalizing e' with
  | int s i =>
      cases h'
      rfl
  | call s known _ ih =>
      cases h' with
      | call _ _ h' => rw [ih h']
  | binary s known _ _ ih ih' =>
      cases h' with
      | binary _ _ h₁ h₂ => rw [ih h₁, ih' h₂]
  | and s _ _ ih ih' =>
      cases h' with
      | and _ h₁ h₂ => rw [ih h₁, ih' h₂]
  | or s _ _ ih ih' =>
      cases h' with
      | or _ h₁ h₂ => rw [ih h₁, ih' h₂]

end Node

end MiniRuby
