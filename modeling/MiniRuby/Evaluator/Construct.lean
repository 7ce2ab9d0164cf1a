import MiniRuby.Evaluator.Task

/-!
# Constructs

What each construct of the language evaluates to.  Evaluation goes from left to right, and a
failure ends it at once, except that loops catch `break` and `next`, `rescue` catches exceptions
that were raised, and `ensure` is evaluated in any case.
-/

namespace MiniRuby.Perform

/-- A bare name: a variable, or else a method of self that is called without arguments. -/
def bareName (perform : Perform) (env : Env) (place : Span) (name : NameId) : Run Value := do
  match ← Action.view fun m => m.frames.get? env.scope name with
  | some v => pure v
  | none =>
    match ← Run.findMethod env.self name with
    | some _ => Run.located place (Run.send perform.invoke env.self name [])
    | none =>
      let cause ← Action.view fun m => Fault.unknownName (m.names.text name) (m.describe env.self)
      Run.located place (Run.fault cause)

/-- A method call: the receiver, then the arguments, then the call.  Without a receiver, a
variable that holds a bound method is called, and otherwise a method of self. -/
def send (perform : Perform) (env : Env) (place : Span) (receiver? : Option Node) (name : NameId)
    (args : List Node) : Run Value := do
  match receiver? with
  | some node =>
    let receiver ← perform.eval env node
    let args ← Action.each (perform.eval env) args
    Run.located place (Run.send perform.invoke receiver name args)
  | none =>
    let args ← Action.each (perform.eval env) args
    match ← Action.view fun m => m.frames.get? env.scope name with
    | some (.bound id) => Run.located place (Run.callBound perform.invoke id args)
    | _ => Run.located place (Run.send perform.invoke env.self name args)

/-! ### Assignment -/

/-- The method that assigns to what a method reads. -/
def setterOf (name : NameId) : Run NameId := do
  if name = .subscript then pure .subscriptAssign
  else
    let text ← Action.view fun m => m.names.text name
    Run.intern (text ++ "=")

/-- Assign a value that has been evaluated already. -/
def assign (perform : Perform) (env : Env) (target : Node) (v : Value) : Run Value := do
  match target with
  | .ident _ name =>
    Run.setLocal env.scope name v
    pure v
  | .instanceVar place name => Run.located place (Run.setVariable env.self name v)
  | .const _ name =>
    Action.update fun m => { m with constants := m.constants.insert name v }
    pure v
  | .send place (some node) name args =>
    let receiver ← perform.eval env node
    let args ← Action.each (perform.eval env) args
    let setter ← setterOf name
    let _ ← Run.located place (Run.send perform.invoke receiver setter (args ++ [v]))
    pure v
  | _ => Run.located target.span (Run.fault .badTarget)

/-! ### Loops -/

/-- One pass of a loop, which answers a value when the loop ends. -/
def pass (perform : Perform) (env : Env) (test body : Node) : Run (Option Value) := do
  if (← perform.eval env test).truthy then
    match ← Action.attempt (perform.eval env body) with
    | .ok _ => pure none
    | .error f =>
      match f.signal with
      | .broke v => pure (some v)
      | .skipped _ => pure none
      | _ => Action.fail f
  else pure (some .nil)

/-! ### Exceptions -/

/-- The class that a `rescue` clause lists. -/
def rescueClass (perform : Perform) (env : Env) (node : Node) : Run ClassId := do
  match ← perform.eval env node with
  | .cls c => pure c
  | _ => Run.located node.span (Run.fault .rescueNeedsClass)

/-- The first clause that lists a class which an exception of class `c` belongs to. -/
def findRescue (perform : Perform) (env : Env) (c : ClassId) :
    List (RescueClause Node) → Run (Option (RescueClause Node))
  | [] => pure none
  | clause :: clauses => do
    let classes ←
      if clause.classes.isEmpty then pure [ClassId.standardError]
      else Action.each (perform.rescueClass env) clause.classes
    if ← Action.view fun m => classes.any fun a => m.classes.isSubclass c a then
      pure (some clause)
    else perform.findRescue env c clauses

/-- Do what a clause says with the exception that it has caught. -/
def handle (perform : Perform) (env : Env) (clause : RescueClause Node) (e : Value) :
    Run Value := do
  match clause.binder? with
  | some name => Run.setLocal env.scope name e
  | none => pure ()
  perform.eval env clause.body

/-- The body with its `rescue` and `else` clauses. -/
def rescued (perform : Perform) (env : Env) (body : Node) (rescues : List (RescueClause Node))
    (otherwise : Node) : Run Value := do
  match ← Action.attempt (perform.eval env body) with
  | .ok v => if otherwise.isNop then pure v else perform.eval env otherwise
  | .error f =>
    match f.signal with
    | .raised e =>
      let c ← Run.ofExcept (← Action.view fun m => m.classOf e)
      match ← perform.findRescue env c rescues with
      | some clause => perform.handle env clause e
      | none => Action.fail f
    | _ => Action.fail f

/-- Evaluate something and then the `ensure` clause, however it ended.  A failure of the clause
takes the place of what came before. -/
def ensured (perform : Perform) (env : Env) (cleanup : Node) (x : Run Value) : Run Value := do
  let result ← Action.attempt x
  if !cleanup.isNop then
    let _ ← perform.eval env cleanup
  Action.ofExcept result

/-! ### Definitions -/

/-- The class whose instances get a method that is defined where self is the given value. -/
def definitionClass (self : Value) : Run ClassId := do
  match self with
  | .cls c => pure c
  | _ => Run.ofExcept (← Action.view fun m => m.classOf self)

/-- The class that a name stands for, or a new one.  A class that is there already has to have the
class above it that is asked for, if any is. -/
def openClass (name : NameId) (parent? : Option ClassId) : Run ClassId := do
  let text ← Action.view fun m => m.names.text name
  match ← Action.view fun m => m.classes.find? text with
  | some c =>
    let actual ← Action.view fun m => m.classes.parent? c
    if parent?.isNone || actual == parent? then pure c else Run.fault (.parentMismatch text)
  | none => Action.transform fun m =>
    let r := m.classes.register text text (some (parent?.getD .object)) none
    (r.1, { m with classes := r.2 })

/-- The class that is asked for above a new one. -/
def parentClass (perform : Perform) (env : Env) (node : Node) : Run ClassId := do
  match ← perform.eval env node with
  | .cls c => pure c
  | v =>
    let given ← Action.view fun m => m.className v
    Run.located node.span (Run.fault (.parentNotAClass given))

/-- A class definition: its body is evaluated in a new frame, with the class as self. -/
def classDef (perform : Perform) (env : Env) (place : Span) (name : NameId)
    (parent? : Option Node) (body : Node) : Run Value := do
  let above ←
    match parent? with
    | some node => some <$> perform.parentClass env node
    | none => pure none
  let c ← Run.located place (openClass name above)
  let scope ← Run.openScope env.scope
  perform.eval ⟨scope, .cls c⟩ body

/-- The definition of a method of a class itself. -/
def singletonDef (perform : Perform) (env : Env) (place : Span) (target : Node) (method : Method) :
    Run Value := do
  match ← perform.eval env target with
  | .cls c =>
    Run.updateClasses fun t => t.addClassMethod c method
    pure (.sym method.name)
  | v =>
    let receiver ← Action.view fun m => m.describe v
    Run.located place (Run.fault (.noSingleton receiver))

/-! ### All constructs -/

/-- Evaluate a node.  The passes of a loop are limited by the fuel. -/
def node (fuel : Nat) (perform : Perform) (env : Env) : Node → Run Value
  | .self _ => pure env.self
  | .nil _ => pure .nil
  | .int _ i => pure (.int i)
  | .float _ x => pure (.float x)
  | .bool _ b => pure (.bool b)
  | .str _ s => Run.newString s
  | .symbol _ name => pure (.sym name)
  | .array _ nodes => do
    let elements ← Action.each (perform.eval env) nodes
    Run.newArray elements.toArray
  | .ident place name => perform.bareName env place name
  | .instanceVar _ name => Run.getVariable env.self name
  | .const place name => do
    Run.located place (Run.ofExcept (← Action.view fun m => m.constant name))
  | .assign _ target value => do
    let v ← perform.eval env value
    perform.assign env target v
  | .and _ left right => do
    let v ← perform.eval env left
    if v.truthy then perform.eval env right else pure v
  | .or _ left right => do
    let v ← perform.eval env left
    if v.truthy then pure v else perform.eval env right
  | .not _ operand => do
    let v ← perform.eval env operand
    pure (.bool !v.truthy)
  | .stmts _ nodes => Action.last (perform.eval env) .nil nodes
  | .cond _ test yes no => do
    let v ← perform.eval env test
    if v.truthy then perform.eval env yes else perform.eval env no
  | .loop _ test body => Action.untilSome (perform.pass env test body) fuel
  | .guarded _ body rescues otherwise cleanup =>
    perform.ensured env cleanup (perform.rescued env body rescues otherwise)
  | .breakWith place value => do
    let v ← perform.eval env value
    Action.fail ⟨.broke v, some place⟩
  | .nextWith place value => do
    let v ← perform.eval env value
    Action.fail ⟨.skipped v, some place⟩
  | .returnWith place value => do
    let v ← perform.eval env value
    Action.fail ⟨.returned v, some place⟩
  | .methodDef _ name params body => do
    let c ← definitionClass env.self
    Run.updateClasses fun t => t.addMethod c (.defined name params body env.scope)
    pure (.sym name)
  | .singletonDef place target name params body =>
    perform.singletonDef env place target (.defined name params body env.scope)
  | .classDef place name parent? body => perform.classDef env place name parent? body
  | .send place receiver? name args => perform.send env place receiver? name args

end MiniRuby.Perform
