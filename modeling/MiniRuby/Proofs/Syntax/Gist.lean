import MiniRuby.Proofs.Syntax.Sexp
import MiniRuby.Decimal.Reading

/-!
# The gist of a tree

What is printed of a tree is the text of an s-expression (`Node.toSexp`).  It leaves out the places
of the nodes (`Node.unplaced`), and it does not tell a class whose parent is written `nil` from one
that names no parent, nor the bare name `inf` from an infinite number.  The gist of a tree
(`Node.gist`) is the tree without its places in which these two are fused, so it is printed alike.

* `Node.text_toSexp`: the text of the s-expression of a tree is what is printed.
* `Node.toSexp_gist`: a tree is printed like its gist.
-/

namespace MiniRuby

/-! ### Trees without places -/

namespace Node

mutual

/-- A tree without the places of its nodes, of which each is replaced once its parts are. -/
def reshape (f : Node → Node) : Node → Node
  | self _ => f (.self default)
  | nil _ => f (.nil default)
  | int _ n => f (.int default n)
  | float _ x => f (.float default x)
  | bool _ b => f (.bool default b)
  | str _ s => f (.str default s)
  | symbol _ name => f (.symbol default name)
  | array _ elements => f (.array default (reshapeAll f elements))
  | ident _ name => f (.ident default name)
  | instanceVar _ name => f (.instanceVar default name)
  | const _ name => f (.const default name)
  | assign _ target value => f (.assign default (target.reshape f) (value.reshape f))
  | and _ left right => f (.and default (left.reshape f) (right.reshape f))
  | or _ left right => f (.or default (left.reshape f) (right.reshape f))
  | not _ operand => f (.not default (operand.reshape f))
  | stmts _ body => f (.stmts default (reshapeAll f body))
  | cond _ test yes no => f (.cond default (test.reshape f) (yes.reshape f) (no.reshape f))
  | loop _ test body => f (.loop default (test.reshape f) (body.reshape f))
  | guarded _ body rescues otherwise cleanup =>
    f (.guarded default (body.reshape f) (reshapeRescues f rescues) (otherwise.reshape f)
      (cleanup.reshape f))
  | breakWith _ value => f (.breakWith default (value.reshape f))
  | nextWith _ value => f (.nextWith default (value.reshape f))
  | returnWith _ value => f (.returnWith default (value.reshape f))
  | methodDef _ name params body =>
    f (.methodDef default name (reshapeParams f params) (body.reshape f))
  | singletonDef _ target name params body =>
    f (.singletonDef default (target.reshape f) name (reshapeParams f params) (body.reshape f))
  | classDef _ name none body => f (.classDef default name none (body.reshape f))
  | classDef _ name (some parent) body =>
    f (.classDef default name (some (parent.reshape f)) (body.reshape f))
  | send _ none name args => f (.send default none name (reshapeAll f args))
  | send _ (some receiver) name args =>
    f (.send default (some (receiver.reshape f)) name (reshapeAll f args))

def reshapeAll (f : Node → Node) : List Node → List Node
  | [] => []
  | n :: ns => n.reshape f :: reshapeAll f ns

def reshapeParams (f : Node → Node) : List (Param Node) → List (Param Node)
  | [] => []
  | ⟨name, none⟩ :: ps => ⟨name, none⟩ :: reshapeParams f ps
  | ⟨name, some d⟩ :: ps => ⟨name, some (d.reshape f)⟩ :: reshapeParams f ps

def reshapeRescues (f : Node → Node) : List (RescueClause Node) → List (RescueClause Node)
  | [] => []
  | ⟨classes, binder?, body⟩ :: rs =>
    ⟨reshapeAll f classes, binder?, body.reshape f⟩ :: reshapeRescues f rs

end

/-- A tree without the places of its nodes. -/
def unplaced (a : Node) : Node := a.reshape id

/-- The literal that is too big for a number. -/
def infinity : Float := Decimal.toFloat 1 400

/-- A class whose parent is `nil` is taken for one without, and the name `inf` for a number. -/
def fuse (t : NameTable) : Node → Node
  | ident s name => if t.text name = "inf" then .float s infinity else .ident s name
  | classDef s name (some (nil _)) body => .classDef s name none body
  | a => a

/-- What the s-expression of a tree tells of it. -/
def gist (t : NameTable) (a : Node) : Node := a.reshape (fuse t)

/-! ### S-expressions of trees -/

mutual

/-- The s-expression of a tree, as it is printed. -/
def toSexp (t : NameTable) : Node → Sexp
  | self _ => .word "self"
  | nil _ => .word "nil"
  | int _ n => .word (toString n.toInt)
  | float _ x => .word (Decimal.write .listing x)
  | bool _ b => .word (if b then "true" else "false")
  | str _ s => .quoted s
  | symbol _ name => .word (":" ++ t.text name)
  | array _ elements => .list (.word "array" :: toSexpAll t elements)
  | ident _ name => .word (t.text name)
  | instanceVar _ name => .word (t.text name)
  | const _ name => .word (t.text name)
  | assign _ target value => .list [.word "=", target.toSexp t, value.toSexp t]
  | and _ left right => .list [.word "&&", left.toSexp t, right.toSexp t]
  | or _ left right => .list [.word "||", left.toSexp t, right.toSexp t]
  | not _ operand => .list [.word "!", operand.toSexp t]
  | stmts _ body => .list (.word "stmts" :: toSexpAll t body)
  | cond _ test yes no => .list [.word "if", test.toSexp t, yes.toSexp t, no.toSexp t]
  | loop _ test body => .list [.word "while", test.toSexp t, body.toSexp t]
  | guarded _ body rescues otherwise cleanup =>
    .list (.word "begin" :: body.toSexp t :: toSexpRescues t rescues
      ++ (if otherwise.isNop then [] else [.list [.word "else", otherwise.toSexp t]])
      ++ (if cleanup.isNop then [] else [.list [.word "ensure", cleanup.toSexp t]]))
  | breakWith _ value => .list [.word "break", value.toSexp t]
  | nextWith _ value => .list [.word "next", value.toSexp t]
  | returnWith _ value => .list [.word "return", value.toSexp t]
  | methodDef _ name params body =>
    .list [.word "def", .word (t.text name), .list (toSexpParams t params), body.toSexp t]
  | singletonDef _ target name params body =>
    .list [.word "defs", target.toSexp t, .word (t.text name), .list (toSexpParams t params),
      body.toSexp t]
  | classDef _ name none body =>
    .list [.word "class", .word (t.text name), .word "nil", body.toSexp t]
  | classDef _ name (some parent) body =>
    .list [.word "class", .word (t.text name), parent.toSexp t, body.toSexp t]
  | send _ none name args => .list (.word "call" :: .word (t.text name) :: toSexpAll t args)
  | send _ (some receiver) name args =>
    .list (.word "send" :: receiver.toSexp t :: .word (t.text name) :: toSexpAll t args)

def toSexpAll (t : NameTable) : List Node → List Sexp
  | [] => []
  | n :: ns => n.toSexp t :: toSexpAll t ns

def toSexpParams (t : NameTable) : List (Param Node) → List Sexp
  | [] => []
  | ⟨name, none⟩ :: ps => .word (t.text name) :: toSexpParams t ps
  | ⟨name, some d⟩ :: ps => .list [.word (t.text name), d.toSexp t] :: toSexpParams t ps

def toSexpRescues (t : NameTable) : List (RescueClause Node) → List Sexp
  | [] => []
  | ⟨classes, binder?, body⟩ :: rs =>
    .list (.word "rescue" :: .list (toSexpAll t classes) ::
      (binder?.map fun name => Sexp.word (t.text name)).toList ++ [body.toSexp t]) ::
      toSexpRescues t rs

end

end Node

namespace Sexp

theorem texts_append (xs ys : List Sexp) : texts (xs ++ ys) = texts xs ++ texts ys := by
  induction xs with
  | nil => rfl
  | cons x xs ih => rw [List.cons_append, texts, texts, ih, List.cons_append]

end Sexp

namespace Node

variable (t : NameTable)

mutual

/-- The text of the s-expression of a tree is what is printed. -/
theorem text_toSexp (a : Node) : (a.toSexp t).text = a.render t := by
  cases a with
  | self | nil | int | float | str | symbol | ident | instanceVar | const => rfl
  | bool _ b => cases b <;> rfl
  | array _ as | stmts _ as => rw [render, ← texts_toSexpAll as]; rfl
  | assign _ a b | and _ a b | or _ a b | loop _ a b =>
      rw [render, ← text_toSexp a, ← text_toSexp b]; rfl
  | not _ a | breakWith _ a | nextWith _ a | returnWith _ a => rw [render, ← text_toSexp a]; rfl
  | cond _ a b c => rw [render, ← text_toSexp a, ← text_toSexp b, ← text_toSexp c]; rfl
  | guarded _ a rs b c =>
      rw [render, ← text_toSexp a, ← text_toSexp b, ← text_toSexp c, ← texts_toSexpRescues rs]
      cases hb : b.isNop <;> cases hc : c.isNop <;>
        simp [toSexp, hb, hc, Sexp.text, Sexp.texts, Sexp.texts_append, sexp, group]
  | methodDef _ name ps a => rw [render, ← text_toSexp a, ← texts_toSexpParams ps]; rfl
  | singletonDef _ a name ps b =>
      rw [render, ← text_toSexp a, ← text_toSexp b, ← texts_toSexpParams ps]; rfl
  | classDef _ name parent? a =>
      cases parent? with
      | none => rw [render, ← text_toSexp a]; rfl
      | some p => rw [render, ← text_toSexp a, ← text_toSexp p]; rfl
  | send _ receiver? name as =>
      cases receiver? with
      | none => rw [render, ← texts_toSexpAll as]; rfl
      | some r => rw [render, ← texts_toSexpAll as, ← text_toSexp r]; rfl

theorem texts_toSexpAll (as : List Node) : Sexp.texts (toSexpAll t as) = renderAll t as := by
  cases as with
  | nil => rfl
  | cons a as => rw [toSexpAll, Sexp.texts, renderAll, text_toSexp a, texts_toSexpAll as]

theorem texts_toSexpParams (ps : List (Param Node)) :
    Sexp.texts (toSexpParams t ps) = renderParams t ps := by
  cases ps with
  | nil => rfl
  | cons p ps =>
      obtain ⟨name, d | d⟩ := p
      · rw [toSexpParams, Sexp.texts, renderParams, texts_toSexpParams ps]; rfl
      · rw [toSexpParams, Sexp.texts, renderParams, texts_toSexpParams ps, ← text_toSexp d]; rfl

theorem texts_toSexpRescues (rs : List (RescueClause Node)) :
    Sexp.texts (toSexpRescues t rs) = renderRescues t rs := by
  cases rs with
  | nil => rfl
  | cons r rs =>
      obtain ⟨classes, binder?, body⟩ := r
      rw [toSexpRescues, Sexp.texts, renderRescues, texts_toSexpRescues rs, ← text_toSexp body,
        ← texts_toSexpAll classes]
      cases binder? <;> rfl

end

theorem write_infinity : Decimal.write .listing infinity = "inf" := by decide +kernel

/-- What is fused is printed alike. -/
theorem toSexp_fuse (a : Node) : (fuse t a).toSexp t = a.toSexp t := by
  fun_cases fuse t a with
  | case1 s name h => rw [toSexp, toSexp, write_infinity, h]
  | case2 s name h => rfl
  | case3 s name s' body => rfl
  | case4 => rfl

theorem isNop_fuse (a : Node) : (fuse t a).isNop = a.isNop := by
  fun_cases fuse t a <;> rfl

theorem isNop_gist (a : Node) : (a.gist t).isNop = a.isNop := by
  cases a with
  | ident => rw [gist, reshape, isNop_fuse]; rfl
  | stmts s body => cases body <;> rfl
  | classDef s name parent? body => cases parent? <;> rw [gist, reshape, isNop_fuse] <;> rfl
  | send s receiver? name args => cases receiver? <;> rfl
  | _ => rfl

mutual

/-- A tree is printed like its gist. -/
theorem toSexp_gist (a : Node) : (a.gist t).toSexp t = a.toSexp t := by
  cases a with
  | self | nil | int | float | str | symbol | instanceVar | const | bool => rfl
  | ident _ name => rw [gist, reshape, toSexp_fuse]; rfl
  | array _ as | stmts _ as => rw [toSexp, ← toSexpAll_gist as]; rfl
  | assign _ a b | and _ a b | or _ a b | loop _ a b =>
      rw [toSexp, ← toSexp_gist a, ← toSexp_gist b]; rfl
  | not _ a | breakWith _ a | nextWith _ a | returnWith _ a => rw [toSexp, ← toSexp_gist a]; rfl
  | cond _ a b c => rw [toSexp, ← toSexp_gist a, ← toSexp_gist b, ← toSexp_gist c]; rfl
  | guarded _ a rs b c =>
      rw [toSexp, ← toSexp_gist a, ← toSexp_gist b, ← toSexp_gist c, ← toSexpRescues_gist rs,
        ← isNop_gist t b, ← isNop_gist t c]
      rfl
  | methodDef _ name ps a => rw [toSexp, ← toSexp_gist a, ← toSexpParams_gist ps]; rfl
  | singletonDef _ a name ps b =>
      rw [toSexp, ← toSexp_gist a, ← toSexp_gist b, ← toSexpParams_gist ps]; rfl
  | classDef _ name parent? a =>
      rw [gist]
      cases parent? with
      | none => rw [reshape, toSexp_fuse, toSexp, toSexp, ← toSexp_gist a]; rfl
      | some p => rw [reshape, toSexp_fuse, toSexp, toSexp, ← toSexp_gist a, ← toSexp_gist p]; rfl
  | send _ receiver? name as =>
      cases receiver? with
      | none => rw [toSexp, ← toSexpAll_gist as]; rfl
      | some r => rw [toSexp, ← toSexpAll_gist as, ← toSexp_gist r]; rfl

theorem toSexpAll_gist (as : List Node) :
    toSexpAll t (reshapeAll (fuse t) as) = toSexpAll t as := by
  cases as with
  | nil => rfl
  | cons a as => rw [reshapeAll, toSexpAll, toSexpAll, toSexpAll_gist as, ← toSexp_gist a]; rfl

theorem toSexpParams_gist (ps : List (Param Node)) :
    toSexpParams t (reshapeParams (fuse t) ps) = toSexpParams t ps := by
  cases ps with
  | nil => rfl
  | cons p ps =>
      obtain ⟨name, d | d⟩ := p
      · rw [reshapeParams, toSexpParams, toSexpParams, toSexpParams_gist ps]
      · rw [reshapeParams, toSexpParams, toSexpParams, toSexpParams_gist ps, ← toSexp_gist d]; rfl

theorem toSexpRescues_gist (rs : List (RescueClause Node)) :
    toSexpRescues t (reshapeRescues (fuse t) rs) = toSexpRescues t rs := by
  cases rs with
  | nil => rfl
  | cons r rs =>
      obtain ⟨classes, binder?, body⟩ := r
      rw [reshapeRescues, toSexpRescues, toSexpRescues, toSexpRescues_gist rs, ← toSexp_gist body,
        ← toSexpAll_gist classes]
      rfl

end

end Node

end MiniRuby
