import MiniRuby.Proofs.Evaluator.Native

/-!
# Steps of the evaluator are scripts

One step of a task, as a function of how the tasks are carried out that it leads to, is a script
(`Perform.script_step`).  It is a strict one unless the task is to evaluate a construct with an
`ensure` clause: nothing else goes on after a fault.  And it runs out of fuel by itself only if the
task is a loop or the native method that writes lines.

A call begins with checks, and what comes after them is the same for all methods that pass
(`Perform.call_of_callable`).
-/

namespace MiniRuby

open Run (Quiet)

/-- Whether a node is not a construct with an `ensure` clause that does something. -/
def Node.NoEnsure : Node → Prop
  | .guarded _ _ _ _ cleanup => cleanup.isNop = true
  | _ => True

instance : DecidablePred Node.NoEnsure := fun n =>
  decidable_of_iff ((match n with
    | .guarded _ _ _ _ cleanup => cleanup.isNop
    | _ => true) = true) (by cases n <;> simp [Node.NoEnsure])

/-- Whether a task is not to evaluate a construct with an `ensure` clause. -/
def Task.NoEnsure : Task → Prop
  | .eval node _ => node.NoEnsure
  | .invoke _ _ _ => True

/-- Whether a node is a loop. -/
def Node.IsLoop : Node → Prop
  | .loop _ _ _ => True
  | _ => False

/-- Whether a method is the native one that writes lines. -/
def Method.WritesLines : Method → Prop
  | .native _ _ op => op = .kernel .puts
  | .defined _ _ _ _ => False

/-- Whether a step of a task may run out of fuel by itself. -/
def Task.Endless : Task → Prop
  | .eval node _ => node.IsLoop
  | .invoke method _ _ => method.WritesLines

namespace Perform

/-- One step of a task. -/
def step (fuel : Nat) (perform : Perform) : Task → Run Value
  | .eval node env => perform.node fuel env node
  | .invoke method receiver args => perform.call fuel method receiver args

end Perform

/-- Performing a task with more fuel is one step, whose tasks have the fuel that is left. -/
theorem perform_succ (fuel : Nat) (task : Task) :
    perform (fuel + 1) task = Perform.step fuel (perform fuel) task := by
  funext m
  cases task <;> rfl

namespace Perform

variable {strict endless : Prop} {frame? : Option FrameId}

/-- Evaluating a part is a script with one call. -/
theorem script_eval (env : Env) (node : Node) :
    Script strict endless (some env.scope.inner) fun perform => perform.eval env node :=
  .ask (.eval node env) (.inr rfl)

/-- Evaluating several parts is a script with a call for each. -/
theorem script_evalAll (env : Env) (nodes : List Node) :
    Script strict endless (some env.scope.inner) fun perform =>
      Action.each (perform.eval env) nodes :=
  .each (script_eval env) nodes

/-- Sending a message calls the method that answers it. -/
theorem script_send (receiver : Value) (name : NameId) (args : List Value) :
    Script strict endless frame? fun perform => Run.send perform.invoke receiver name args :=
  .ofCalls (Run.calls_send receiver name args)

/-! ### Calls -/

/-- **Parameters** are bound in the innermost frame, and defaults are evaluated there. -/
theorem script_bindParams (env : Env) (params : List (Param Node)) (args : List Value) :
    Script strict endless (some env.scope.inner) fun perform =>
      perform.bindParams env params args := by
  induction params generalizing args with
  | nil => exact .quiet (.pure ())
  | cons p params ih =>
      cases args with
      | cons v args =>
          simp only [bindParams]
          exact (Script.setLocal env.scope p.name v).bind fun _ => ih args
      | nil =>
          simp only [bindParams]
          have rest : ∀ v, Script strict endless (some env.scope.inner) fun perform => (do
              Run.setLocal env.scope p.name v
              perform.bindParams env params []) := fun v =>
            (Script.setLocal env.scope p.name v).bind fun _ => ih []
          cases p.default? with
          | none => exact (Script.quiet (.pure .nil)).bind rest
          | some node => exact (script_eval env node).bind rest

/-- A body is evaluated in the frame of its method. -/
theorem script_body (env : Env) (node : Node) :
    Script strict endless (some env.scope.inner) fun perform => perform.body env node := by
  refine (script_eval env node).catching (fun r => ?_) fun _ f cause hf perform m => ?_
  · rcases r with ⟨signal, place?⟩ | v
    · cases signal with
      | returned v => exact .quiet (.pure v)
      | _ => exact .fail _
    · exact .quiet (.pure v)
  · obtain ⟨signal, place?⟩ := f
    cases hf
    rfl

/-- **Entering a method** opens a frame, so those of the caller are kept. -/
theorem script_enter (fuel : Nat) (method : Method) (h : method.WritesLines → endless)
    (receiver : Value) (args : List Value) :
    Script strict endless frame? fun perform => perform.enter fuel method receiver args := by
  cases method with
  | native name arity op => exact .ofCalls (op.calls_run fuel h receiver args)
  | defined name params body scope =>
      exact .inside scope fun scope => (script_bindParams ⟨scope, receiver⟩ params args).bind
        fun _ => script_body ⟨scope, receiver⟩ body

/-- Calling a method keeps all frames, as the depth is counted outside of them. -/
theorem script_call (fuel : Nat) (method : Method) (h : method.WritesLines → endless)
    (receiver : Value) (args : List Value) :
    Script strict endless none fun perform => perform.call fuel method receiver args := by
  refine .ite (Script.depth.bind fun depth => .ite ?_ (.quiet (.fault _)))
    (.quiet (.fault _))
  exact (script_enter fuel method h receiver args).nested

/-! ### Constructs -/

/-- A name that stands alone is read from the frames, or is a call. -/
theorem script_bareName (env : Env) (place : Span) (name : NameId) :
    Script strict endless (some env.scope.inner) fun perform =>
      perform.bareName env place name := by
  refine (Script.view fun _ _ => rfl).bind fun r => ?_
  cases r with
  | some v => exact .quiet (.pure v)
  | none =>
      refine (Script.quiet (.findMethod env.self name)).bind fun r => ?_
      cases r with
      | some found => exact (script_send env.self name []).located place
      | none =>
          exact (Script.view fun _ _ => rfl).bind fun cause =>
            (Script.quiet (.fault cause)).located place

/-- **A call** evaluates its parts in the frame that it is in. -/
theorem script_message (env : Env) (place : Span) (receiver? : Option Node) (name : NameId)
    (args : List Node) :
    Script strict endless (some env.scope.inner) fun perform =>
      perform.send env place receiver? name args := by
  cases receiver? with
  | some node =>
      exact (script_eval env node).bind fun receiver => (script_evalAll env args).bind fun args =>
        (script_send receiver name args).located place
  | none =>
      refine (script_evalAll env args).bind fun args =>
        (Script.view fun _ _ => rfl).bind fun r => ?_
      have self : Script strict endless (some env.scope.inner) fun perform =>
          Run.located place (Run.send perform.invoke env.self name args) :=
        (script_send env.self name args).located place
      rcases r with _ | v
      · exact self
      · cases v with
        | bound id => exact (Script.ofCalls (Run.calls_callBound id args)).located place
        | _ => exact self

/-- The name of a setter is looked up without a call. -/
theorem quiet_setterOf (name : NameId) : Quiet (setterOf name) := by
  unfold setterOf
  split
  · exact .pure _
  · exact (Quiet.view fun _ _ => rfl).bind fun _ => .intern _

/-- **An assignment** sets a local of the innermost frame at most. -/
theorem script_assign (env : Env) (target : Node) (v : Value) :
    Script strict endless (some env.scope.inner) fun perform => perform.assign env target v := by
  cases target with
  | ident place name =>
      exact (Script.setLocal env.scope name v).bind fun _ => .quiet (.pure v)
  | instanceVar place name => exact (Script.quiet (.setVariable env.self name v)).located place
  | const place name =>
      exact (Script.setConstant name v).bind fun _ => .quiet (.pure v)
  | send place receiver? name args =>
      cases receiver? with
      | some node =>
          exact (script_eval env node).bind fun receiver =>
            (script_evalAll env args).bind fun args =>
              (Script.quiet (quiet_setterOf name)).bind fun setter =>
                ((script_send receiver setter (args ++ [v])).located place).bind fun _ =>
                  .quiet (.pure v)
      | none => exact (Script.quiet (.fault _)).located _
  | _ => exact (Script.quiet (.fault _)).located _

/-- One round of a loop is a script. -/
theorem script_pass (env : Env) (test body : Node) :
    Script strict endless (some env.scope.inner) fun perform => perform.pass env test body := by
  refine (script_eval env test).bind fun v => .ite ?_ (.quiet (.pure _))
  refine (script_eval env body).catching (fun r => ?_) fun _ f cause hf perform m => ?_
  · rcases r with ⟨signal, place?⟩ | v
    · cases signal with
      | broke v => exact .quiet (.pure _)
      | skipped v => exact .quiet (.pure _)
      | _ => exact .fail _
    · exact .quiet (.pure _)
  · obtain ⟨signal, place?⟩ := f
    cases hf
    rfl

/-- The class of a clause is the value of a part. -/
theorem script_rescueClass (env : Env) (node : Node) :
    Script strict endless (some env.scope.inner) fun perform => perform.rescueClass env node := by
  refine (script_eval env node).bind fun v => ?_
  cases v with
  | cls c => exact .quiet (.pure c)
  | _ => exact (Script.quiet (.fault _)).located node.span

/-- Clauses are looked through until one fits. -/
theorem script_findRescue (env : Env) (c : ClassId) (clauses : List (RescueClause Node)) :
    Script strict endless (some env.scope.inner) fun perform =>
      perform.findRescue env c clauses := by
  induction clauses with
  | nil => exact .quiet (.pure none)
  | cons clause clauses ih =>
      simp only [findRescue]
      have rest : ∀ classes : List ClassId,
          Script strict endless (some env.scope.inner) fun perform => (do
          if ← Action.view fun m => classes.any fun a => m.classes.isSubclass c a then
            pure (some clause)
          else perform.findRescue env c clauses) := fun classes =>
        (Script.view fun _ _ => rfl).bind fun _ => .ite (.quiet (.pure _)) ih
      split
      · exact (Script.quiet (.pure _)).bind rest
      · exact (Script.each (script_rescueClass env) clause.classes).bind rest

/-- The clause that is found is one of those that were searched. -/
theorem mem_of_findRescue {P : Perform} {env : Env} {c : ClassId}
    {clauses : List (RescueClause Node)} {m m' : Machine} {found : Option (RescueClause Node)}
    (h : P.findRescue env c clauses m = .done found m') : ∀ clause ∈ found, clause ∈ clauses := by
  induction clauses generalizing m with
  | nil =>
      cases h
      nofun
  | cons clause clauses ih =>
      have rest : ∀ (classes : List ClassId) (m : Machine), (do
          if ← Action.view fun m => classes.any fun a => m.classes.isSubclass c a then
            pure (some clause)
          else P.findRescue env c clauses : Run _) m = .done found m' →
          ∀ d ∈ found, d ∈ clause :: clauses := by
        intro classes m h
        rw [Action.bind_view] at h
        split at h
        · cases h
          rintro d ⟨⟩
          exact .head _
        · exact fun d hd => .tail _ (ih h d hd)
      simp only [findRescue] at h
      split at h
      · exact rest _ m h
      · obtain ⟨classes, m₁, -, h⟩ := Action.done_of_bind h
        exact rest classes m₁ h

/-- A clause binds its exception in the innermost frame. -/
theorem script_handle (env : Env) (clause : RescueClause Node) (e : Value) :
    Script strict endless (some env.scope.inner) fun perform => perform.handle env clause e := by
  unfold handle
  cases clause.binder? with
  | none => exact (Script.quiet (.pure ())).bind fun _ => script_eval env clause.body
  | some name =>
      exact (Script.setLocal env.scope name e).bind fun _ => script_eval env clause.body

/-- **A rescued body** is a script of its parts. -/
theorem script_rescued (env : Env) (body : Node) (rescues : List (RescueClause Node))
    (otherwise : Node) :
    Script strict endless (some env.scope.inner) fun perform =>
      perform.rescued env body rescues otherwise := by
  refine (script_eval env body).catching (fun r => ?_) fun _ f cause hf perform m => ?_
  · rcases r with ⟨signal, place?⟩ | v
    · cases signal with
      | raised e =>
          refine (Script.view fun _ _ => rfl).bind fun r =>
            (Script.quiet (.ofExcept r)).bind fun c =>
              (script_findRescue env c rescues).bind fun found => ?_
          cases found with
          | none => exact .fail _
          | some clause => exact script_handle env clause e
      | _ => exact .fail _
    · exact .ite (.quiet (.pure v)) (script_eval env otherwise)
  · obtain ⟨signal, place?⟩ := f
    cases hf
    rfl

/-- Without an `ensure` clause that does something, a failure passes as it is. -/
theorem script_ensured {env : Env} {cleanup : Node} (h : strict → cleanup.isNop = true)
    {F : Perform → Run Value} (hF : Script strict endless (some env.scope.inner) F) :
    Script strict endless (some env.scope.inner) fun perform =>
      perform.ensured env cleanup (F perform) := by
  have result : ∀ r : Except Failure Value,
      Script strict endless (some env.scope.inner) fun _ => (Action.ofExcept r : Run Value) := by
    intro r
    cases r with
    | ok v => exact .quiet (.pure v)
    | error f => exact .fail f
  refine hF.catching (fun r => ?_) fun hs f cause _ perform m => ?_
  · exact .ite ((script_eval env cleanup).bind fun _ => result r) (result r)
  · simp only [h hs]
    rfl

/-- The class that a definition goes to is told without a call. -/
theorem quiet_definitionClass (self : Value) : Quiet (definitionClass self) := by
  cases self with
  | cls c => exact .pure c
  | _ => exact (Quiet.view fun _ _ => rfl).bind fun r => .ofExcept r

/-- A class that is opened is there already, or it is added under a name that stands for
nothing. -/
theorem quiet_openClass (name : NameId) (parent? : Option ClassId) :
    Quiet (openClass name parent?) := by
  have blind : Run.Blind (openClass name parent?) := by
    refine (Quiet.view fun _ _ => rfl).blind.bind fun text =>
      (Quiet.view fun _ _ => rfl).blind.bind fun found? => ?_
    cases found? with
    | none => exact fun _ _ => rfl
    | some c =>
        refine (Quiet.view fun _ _ => rfl).blind.bind fun agrees => ?_
        split
        · exact (Quiet.pure c).blind
        · exact (Quiet.fault _).blind
  refine .of_cases blind fun m => ?_
  simp only [openClass, Action.bind_view]
  cases fresh : m.classes.find? (m.names.text name) with
  | none => exact .inl ⟨_, _, rfl, rfl, rfl, .withClasses (.register fresh _)⟩
  | some c =>
      simp only [Action.bind_view]
      split
      · exact .inl ⟨c, m, rfl, rfl, rfl, .refl m⟩
      · exact .inr ⟨_, rfl⟩

/-- A parent is the value of a part. -/
theorem script_parentClass (env : Env) (node : Node) :
    Script strict endless (some env.scope.inner) fun perform => perform.parentClass env node := by
  refine (script_eval env node).bind fun v => ?_
  cases v with
  | cls c => exact .quiet (.pure c)
  | _ =>
      exact (Script.view fun _ _ => rfl).bind fun given =>
        (Script.quiet (.fault (.parentNotAClass given))).located node.span

/-- **A class definition** evaluates its body in a frame of its own. -/
theorem script_classDef (env : Env) (place : Span) (name : NameId) (parent? : Option Node)
    (body : Node) :
    Script strict endless (some env.scope.inner) fun perform =>
      perform.classDef env place name parent? body := by
  have rest : ∀ above, Script strict endless (some env.scope.inner) fun perform => (do
      let c ← Run.located place (openClass name above)
      let scope ← Run.openScope env.scope
      perform.eval ⟨scope, .cls c⟩ body) := fun above =>
    ((Script.quiet (quiet_openClass name above)).located place).bind fun c =>
      .inside env.scope fun scope => script_eval ⟨scope, .cls c⟩ body
  cases parent? with
  | none => exact (Script.quiet (.pure none)).bind rest
  | some node => exact ((script_parentClass env node).map some).bind rest

/-- A definition on an object evaluates the expression for the object only. -/
theorem script_singletonDef (env : Env) (place : Span) (target : Node) (method : Method) :
    Script strict endless (some env.scope.inner) fun perform =>
      perform.singletonDef env place target method := by
  refine (script_eval env target).bind fun v => ?_
  cases v with
  | cls c =>
      exact (Script.quiet (.updateClasses fun t => .addClassMethod t c method)).bind fun _ =>
        .quiet (.pure _)
  | _ =>
      exact (Script.view fun _ _ => rfl).bind fun receiver =>
        (Script.quiet (.fault (.noSingleton receiver))).located place

/-- **Every construct** is a script, without a cleanup where the script is strict, and without an
end where it loops. -/
theorem script_node (fuel : Nat) (env : Env) (node : Node) (h : strict → node.NoEnsure)
    (he : node.IsLoop → endless) :
    Script strict endless (some env.scope.inner) fun perform => perform.node fuel env node := by
  cases node with
  | self | nil | int | float | bool | symbol => exact .quiet (.pure _)
  | str place s => exact .quiet (.newString s)
  | array place nodes => exact (script_evalAll env nodes).bind fun _ => .quiet (.newArray _)
  | ident place name => exact script_bareName env place name
  | instanceVar place name => exact .quiet (.getVariable env.self name)
  | const place name =>
      exact (Script.view fun _ _ => rfl).bind fun r => (Script.quiet (.ofExcept r)).located place
  | assign place target value =>
      exact (script_eval env value).bind fun v => script_assign env target v
  | and place left right =>
      exact (script_eval env left).bind fun v => .ite (script_eval env right) (.quiet (.pure v))
  | or place left right =>
      exact (script_eval env left).bind fun v => .ite (.quiet (.pure v)) (script_eval env right)
  | not place operand => exact (script_eval env operand).bind fun _ => .quiet (.pure _)
  | stmts place nodes => exact .last (script_eval env) nodes .nil
  | cond place test yes no =>
      exact (script_eval env test).bind fun _ => .ite (script_eval env yes) (script_eval env no)
  | loop place test body => exact .untilSome (he trivial) (script_pass env test body) fuel
  | guarded place body rescues otherwise cleanup =>
      exact script_ensured h (script_rescued env body rescues otherwise)
  | breakWith place value | nextWith place value | returnWith place value =>
      exact (script_eval env value).bind fun _ => .fail _
  | methodDef place name params body =>
      exact (Script.quiet (quiet_definitionClass env.self)).bind fun c =>
        (Script.quiet (.updateClasses fun t => .addMethod t c _)).bind fun _ => .quiet (.pure _)
  | singletonDef place target name params body => exact script_singletonDef env place target _
  | classDef place name parent? body => exact script_classDef env place name parent? body
  | send place receiver? name args => exact script_message env place receiver? name args

/-- **A step is a script.**  It is strict when the task has no `ensure` clause, and it is not
endless when the task is neither a loop nor to write lines. -/
theorem script_step (fuel : Nat) (task : Task) (h : strict → task.NoEnsure)
    (he : task.Endless → endless) :
    Script strict endless task.frame? fun perform => perform.step fuel task := by
  cases task with
  | eval node env => exact script_node fuel env node h he
  | invoke method receiver args => exact script_call fuel method he receiver args

end Perform

/-! ### Calls that may be made -/

namespace Machine

/-- The machine on which the parameters of a method are bound: a frame has been opened, and there
is one more open call. -/
def entered (m : Machine) (scope : Scope) : Machine :=
  { m with frames := (m.frames.child scope).2, depth := m.depth + 1 }

/-- Where a method is run: in the new frame, with the receiver as self. -/
def entry (m : Machine) (scope : Scope) (receiver : Value) : Env :=
  ⟨(m.frames.child scope).1, receiver⟩

end Machine

/-- Whether a method may be called with so many arguments on a machine. -/
def Method.Callable (method : Method) (args : List Value) (m : Machine) : Prop :=
  method.arity.accepts args.length = true ∧ m.depth < maxDepth

namespace Perform

variable {P : Perform} {fuel : Nat} {method : Method} {receiver : Value} {args : List Value}
  {m : Machine}

/-- A method that may be called is run with one more call open. -/
theorem call_of_callable (h : method.Callable args m) :
    P.call fuel method receiver args m = Run.nested (P.enter fuel method receiver args) m := by
  simp only [call, h.1, Action.bind_apply, Action.view, h.2, if_true]

/-- **A call with a wrong number of arguments** is refused before anything else. -/
theorem call_of_not_accepts (P : Perform) (h : method.arity.accepts args.length = false) :
    P.call fuel method receiver args m =
      .failed (.ofFault (.wrongCount args.length method.arity)) m := by
  simp only [call, h]
  rfl

/-- **A call at the limit** is refused if the number of arguments is right. -/
theorem call_of_too_deep (P : Perform) (ha : method.arity.accepts args.length = true)
    (hd : ¬ m.depth < maxDepth) :
    P.call fuel method receiver args m = .failed (.ofFault .tooDeep) m := by
  simp only [call, ha, Action.bind_apply, Action.view, hd, if_true, if_false]
  rfl

/-- The call of a method that may not be called fails with a fault. -/
theorem call_of_not_callable (h : ¬ method.Callable args m) :
    ∃ cause, ∀ P : Perform, P.call fuel method receiver args m = .failed (.ofFault cause) m := by
  cases ha : method.arity.accepts args.length with
  | false => exact ⟨_, fun P => call_of_not_accepts P ha⟩
  | true => exact ⟨_, fun P => call_of_too_deep P ha fun hd => h ⟨ha, hd⟩⟩

end Perform

end MiniRuby
