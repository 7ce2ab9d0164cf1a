import MiniRuby.Syntax.Node

/-!
# Outlines

The nodes of a tree in preorder: each construct before its parts, the parts from left to right.
-/

namespace MiniRuby.Node

/-- The name of a construct. -/
def label : Node → String
  | self _ => "Self"
  | nil _ => "Nil"
  | int _ _ => "Integer"
  | float _ _ => "Float"
  | bool _ _ => "Bool"
  | str _ _ => "String"
  | symbol _ _ => "Symbol"
  | array _ _ => "Array"
  | ident _ _ => "Ident"
  | instanceVar _ _ => "InstanceVar"
  | const _ _ => "Const"
  | assign _ _ _ => "Assign"
  | and _ _ _ => "And"
  | or _ _ _ => "Or"
  | not _ _ => "Not"
  | stmts _ _ => "CompStmt"
  | cond _ _ _ _ => "If"
  | loop _ _ _ => "While"
  | guarded _ _ _ _ _ => "Begin"
  | breakWith _ _ => "Break"
  | nextWith _ _ => "Next"
  | returnWith _ _ => "Return"
  | methodDef _ _ _ _ => "MethodDef"
  | singletonDef _ _ _ _ _ => "SingletonMethodDef"
  | classDef _ _ _ _ => "ClassDef"
  | send _ _ _ _ => "Send"

mutual

/-- The nodes of a tree, each before its parts. -/
def preorder : Node → List Node
  | array s elements => array s elements :: preorderAll elements
  | assign s target value => assign s target value :: target.preorder ++ value.preorder
  | and s left right => and s left right :: left.preorder ++ right.preorder
  | or s left right => or s left right :: left.preorder ++ right.preorder
  | not s operand => not s operand :: operand.preorder
  | stmts s body => stmts s body :: preorderAll body
  | cond s test yes no => cond s test yes no :: test.preorder ++ yes.preorder ++ no.preorder
  | loop s test body => loop s test body :: test.preorder ++ body.preorder
  | guarded s body rescues otherwise cleanup =>
    guarded s body rescues otherwise cleanup :: body.preorder ++ preorderRescues rescues
      ++ otherwise.preorder ++ cleanup.preorder
  | breakWith s value => breakWith s value :: value.preorder
  | nextWith s value => nextWith s value :: value.preorder
  | returnWith s value => returnWith s value :: value.preorder
  | methodDef s name params body =>
    methodDef s name params body :: preorderParams params ++ body.preorder
  | singletonDef s target name params body =>
    singletonDef s target name params body :: target.preorder ++ preorderParams params
      ++ body.preorder
  | classDef s name none body => classDef s name none body :: body.preorder
  | classDef s name (some parent) body =>
    classDef s name (some parent) body :: parent.preorder ++ body.preorder
  | send s none name args => send s none name args :: preorderAll args
  | send s (some receiver) name args =>
    send s (some receiver) name args :: receiver.preorder ++ preorderAll args
  | self s => [self s]
  | nil s => [nil s]
  | int s n => [int s n]
  | float s x => [float s x]
  | bool s b => [bool s b]
  | str s t => [str s t]
  | symbol s n => [symbol s n]
  | ident s n => [ident s n]
  | instanceVar s n => [instanceVar s n]
  | const s n => [const s n]

/-- The nodes of several trees, one tree after the other. -/
def preorderAll : List Node → List Node
  | [] => []
  | n :: ns => n.preorder ++ preorderAll ns

/-- The nodes of the defaults. -/
def preorderParams : List (Param Node) → List Node
  | [] => []
  | ⟨_, none⟩ :: ps => preorderParams ps
  | ⟨_, some d⟩ :: ps => d.preorder ++ preorderParams ps

/-- The nodes of the clauses: the classes, then the body. -/
def preorderRescues : List (RescueClause Node) → List Node
  | [] => []
  | ⟨classes, _, body⟩ :: rs => preorderAll classes ++ body.preorder ++ preorderRescues rs

end

end MiniRuby.Node
