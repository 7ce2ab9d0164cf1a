import MiniRuby.Syntax.Node
import MiniRuby.Decimal.Writing
import MiniRuby.Text.Quoted

/-!
# Printing syntax trees

A tree is printed as an s-expression: a head that names the construct and then the parts, such as
`(call puts "foo")`.  Names and literals stand for themselves.
-/

namespace MiniRuby.Node

/-- A list with a head. -/
def sexp (head : String) (items : List String) : String :=
  "(" ++ String.intercalate " " (head :: items) ++ ")"

/-- A list without a head. -/
def group (items : List String) : String := "(" ++ String.intercalate " " items ++ ")"

mutual

/-- The s-expression of a tree. -/
def render (names : NameTable) : Node → String
  | self _ => "self"
  | nil _ => "nil"
  | int _ n => toString n.toInt
  | float _ x => Decimal.write .listing x
  | bool _ b => if b then "true" else "false"
  | str _ s => Text.listing s
  | symbol _ name => ":" ++ names.text name
  | array _ elements => sexp "array" (renderAll names elements)
  | ident _ name => names.text name
  | instanceVar _ name => names.text name
  | const _ name => names.text name
  | assign _ target value => sexp "=" [target.render names, value.render names]
  | and _ left right => sexp "&&" [left.render names, right.render names]
  | or _ left right => sexp "||" [left.render names, right.render names]
  | not _ operand => sexp "!" [operand.render names]
  | stmts _ body => sexp "stmts" (renderAll names body)
  | cond _ test yes no => sexp "if" [test.render names, yes.render names, no.render names]
  | loop _ test body => sexp "while" [test.render names, body.render names]
  | guarded _ body rescues otherwise cleanup =>
    sexp "begin" (body.render names :: renderRescues names rescues
      ++ (if otherwise.isNop then [] else [sexp "else" [otherwise.render names]])
      ++ (if cleanup.isNop then [] else [sexp "ensure" [cleanup.render names]]))
  | breakWith _ value => sexp "break" [value.render names]
  | nextWith _ value => sexp "next" [value.render names]
  | returnWith _ value => sexp "return" [value.render names]
  | methodDef _ name params body =>
    sexp "def" [names.text name, group (renderParams names params), body.render names]
  | singletonDef _ target name params body =>
    sexp "defs" [target.render names, names.text name, group (renderParams names params),
      body.render names]
  | classDef _ name none body => sexp "class" [names.text name, "nil", body.render names]
  | classDef _ name (some parent) body =>
    sexp "class" [names.text name, parent.render names, body.render names]
  | send _ none name args => sexp "call" (names.text name :: renderAll names args)
  | send _ (some receiver) name args =>
    sexp "send" (receiver.render names :: names.text name :: renderAll names args)

/-- The s-expressions of several trees. -/
def renderAll (names : NameTable) : List Node → List String
  | [] => []
  | n :: ns => n.render names :: renderAll names ns

/-- Parameters: a name, or a name and its default in parentheses. -/
def renderParams (names : NameTable) : List (Param Node) → List String
  | [] => []
  | ⟨name, none⟩ :: ps => names.text name :: renderParams names ps
  | ⟨name, some d⟩ :: ps => sexp (names.text name) [d.render names] :: renderParams names ps

/-- Rescue clauses: the classes, the variable if there is one, and the body. -/
def renderRescues (names : NameTable) : List (RescueClause Node) → List String
  | [] => []
  | ⟨classes, binder?, body⟩ :: rs =>
    sexp "rescue" (group (renderAll names classes) :: (binder?.map names.text).toList
      ++ [body.render names]) :: renderRescues names rs

end

end MiniRuby.Node
