import MiniRuby.Syntax.Node

/-!
# The variables that a tree sets

Evaluating a node sets variables in the frame at hand: by assignments to bare names, and by
`rescue` clauses that bind the error.  The bodies of methods and classes are left out, as they have
frames of their own.

* `Node.mem_varsAll`, `Node.mem_varsRescues`: the variables of several parts are those of
  each of them.
-/

namespace MiniRuby.Node

/-- The variable that an assignment to this node sets, if it sets one. -/
def assigned : Node → List NameId
  | ident _ name => [name]
  | _ => []

mutual

/-- The variables that evaluating a tree may set in the frame at hand. -/
def vars : Node → List NameId
  | array _ elements => varsAll elements
  | assign _ target value => target.assigned ++ target.vars ++ value.vars
  | and _ left right => left.vars ++ right.vars
  | or _ left right => left.vars ++ right.vars
  | not _ operand => operand.vars
  | stmts _ body => varsAll body
  | cond _ test yes no => test.vars ++ yes.vars ++ no.vars
  | loop _ test body => test.vars ++ body.vars
  | guarded _ body rescues otherwise cleanup =>
    body.vars ++ varsRescues rescues ++ otherwise.vars ++ cleanup.vars
  | breakWith _ value => value.vars
  | nextWith _ value => value.vars
  | returnWith _ value => value.vars
  | singletonDef _ target _ _ _ => target.vars
  | classDef _ _ (some parent) _ => parent.vars
  | send _ none _ args => varsAll args
  | send _ (some receiver) _ args => receiver.vars ++ varsAll args
  | _ => []

/-- The variables of several trees. -/
def varsAll : List Node → List NameId
  | [] => []
  | n :: ns => n.vars ++ varsAll ns

/-- The variables of `rescue` clauses: those of the classes, the one that is bound, and those of
the body. -/
def varsRescues : List (RescueClause Node) → List NameId
  | [] => []
  | ⟨classes, binder?, body⟩ :: rs =>
    varsAll classes ++ binder?.toList ++ body.vars ++ varsRescues rs

end

attribute [simp] vars varsAll varsRescues

/-- The variables of one `rescue` clause. -/
def ofClause (c : RescueClause Node) : List NameId :=
  varsAll c.classes ++ c.binder?.toList ++ c.body.vars

/-- A variable of several trees is one of some tree. -/
@[simp] theorem mem_varsAll {name : NameId} {nodes : List Node} :
    name ∈ varsAll nodes ↔ ∃ n ∈ nodes, name ∈ n.vars := by
  induction nodes with
  | nil => simp [varsAll]
  | cons n nodes ih => simp [varsAll, ih]

/-- A variable of rescue clauses is one of some clause. -/
@[simp] theorem mem_varsRescues {name : NameId} {clauses : List (RescueClause Node)} :
    name ∈ varsRescues clauses ↔ ∃ c ∈ clauses, name ∈ ofClause c := by
  induction clauses with
  | nil => simp [varsRescues]
  | cons c clauses ih =>
      obtain ⟨classes, binder?, body⟩ := c
      simp [varsRescues, ih, ofClause, or_assoc]

/-! ### Nodes from parts -/

@[simp] theorem vars_nop (place : Span) : (nop place).vars = [] := by
  simp [nop, vars, varsAll]

/-- Statements have the variables of each of them. -/
@[simp] theorem vars_ofStmts (place : Span) (body : List Node) :
    (ofStmts place body).vars = varsAll body := by
  unfold ofStmts
  split <;> rw [vars]

/-- An assignment has what it assigns to among its variables. -/
@[simp] theorem vars_ofAssign (target value : Node) :
    (ofAssign target value).vars = target.assigned ++ target.vars ++ value.vars := by
  rw [ofAssign, vars]

@[simp] theorem vars_ofAnd (left right : Node) :
    (ofAnd left right).vars = left.vars ++ right.vars := by
  rw [ofAnd, vars]

@[simp] theorem vars_ofOr (left right : Node) :
    (ofOr left right).vars = left.vars ++ right.vars := by
  rw [ofOr, vars]

@[simp] theorem vars_ofNot (place : Span) (operand : Node) :
    (ofNot place operand).vars = operand.vars := by
  rw [ofNot, vars]

/-- A call has those of its receiver and its arguments, and its name is none. -/
@[simp] theorem vars_ofCall (place : Span) (name : NameId) (args : List Node) :
    (ofSend place none name args).vars = varsAll args := by
  simp [ofSend, vars]

@[simp] theorem vars_ofSend (place : Span) (receiver : Node) (name : NameId)
    (args : List Node) :
    (ofSend place (some receiver) name args).vars =
      receiver.vars ++ varsAll args := by
  simp [ofSend, vars]

@[simp] theorem vars_ofInfix (name : NameId) (left right : Node) :
    (ofInfix name left right).vars = left.vars ++ right.vars := by
  simp [ofInfix, varsAll]

@[simp] theorem vars_ofCond (place : Span) (test yes no : Node) :
    (ofCond place test yes no).vars = test.vars ++ yes.vars ++ no.vars := by
  rw [ofCond, vars]

@[simp] theorem vars_ofLoop (place : Span) (test body : Node) :
    (ofLoop place test body).vars = test.vars ++ body.vars := by
  rw [ofLoop, vars]

@[simp] theorem vars_ofBreak (place : Span) (value : Node) :
    (ofBreak place value).vars = value.vars := by
  rw [ofBreak, vars]

@[simp] theorem vars_ofNext (place : Span) (value : Node) :
    (ofNext place value).vars = value.vars := by
  rw [ofNext, vars]

@[simp] theorem vars_ofReturn (place : Span) (value : Node) :
    (ofReturn place value).vars = value.vars := by
  rw [ofReturn, vars]

end MiniRuby.Node
