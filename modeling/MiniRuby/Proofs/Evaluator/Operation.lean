import MiniRuby.Proofs.Evaluator.Reach

/-!
# What a step does by itself

Besides asking for tasks, a step does things of its own that can fail: it checks a call, looks up a
name, sends a message, chooses a `rescue` clause, opens a class.  `Perform.Does` lists them, each
with the machine on which it is done when all that comes before has gone well.

* `Perform.Does.fails`: when one of them fails, the task fails with that failure at once.
* `Perform.Does.asks_before`: nothing is asked for after it.
-/

namespace MiniRuby

namespace Perform

/-- What a step does by itself to carry out a task, with the machine that it is done on.  What comes
before it is told by the hypotheses of each case. -/
inductive Does (P : Perform) (fuel : Nat) :
    Task → Machine → {α : Type} → (Perform → Run α) → Machine → Prop where
  | whole (task : Task) (m : Machine) : Does P fuel task m (fun perform => perform.step fuel task) m
  -- Calls: the checks, and then a native method or a body, whose stray jumps become faults.
  | count {method : Method} {receiver : Value} {args : List Value} {m : Machine}
      (h : method.arity.accepts args.length = false) :
      Does P fuel (.invoke method receiver args) m
        (fun _ => (Run.fault (.wrongCount args.length method.arity) : Run Value)) m
  | depth {method : Method} {receiver : Value} {args : List Value} {m : Machine}
      (h : method.arity.accepts args.length = true) (hd : ¬ m.depth < maxDepth) :
      Does P fuel (.invoke method receiver args) m (fun _ => (Run.fault .tooDeep : Run Value)) m
  | native {name : NameId} {arity : Arity} {op : Native} {receiver : Value} {args : List Value}
      {m : Machine} (h : (Method.native name arity op).Callable args m) :
      Does P fuel (.invoke (.native name arity op) receiver args) m
        (fun perform => op.run fuel perform.invoke receiver args) { m with depth := m.depth + 1 }
  | body {name : NameId} {params : List (Param Node)} {node : Node} {scope : Scope}
      {receiver : Value} {args : List Value} {m m₁ : Machine}
      (h : (Method.defined name params node scope).Callable args m)
      (bound : P.bindParams (m.entry scope receiver) params args (m.entered scope) = .done () m₁) :
      Does P fuel (.invoke (.defined name params node scope) receiver args) m
        (fun perform => perform.body (m.entry scope receiver) node) m₁
  -- Names that are looked up.
  | constant (place : Span) {name : NameId} {env : Env} {m : Machine} :
      Does P fuel (.eval (.const place name) env) m
        (fun _ => Run.ofExcept (m.constant name)) m
  | name {place : Span} {name : NameId} {env : Env} {m : Machine}
      (h : m.frames.get? env.scope name = none) :
      Does P fuel (.eval (.ident place name) env) m (fun _ => Run.findMethod env.self name) m
  | unknownName (place : Span) {name : NameId} {env : Env} {m : Machine}
      (h : m.frames.get? env.scope name = none)
      (found : m.findMethod? env.self name = .ok none) :
      Does P fuel (.eval (.ident place name) env) m
        (fun _ => (Run.fault (.unknownName (m.names.text name) (m.describe env.self)) : Run Value))
        m
  -- Messages that are sent, once the receiver and the arguments are there.
  | bareName (place : Span) {name : NameId} {env : Env} {m : Machine} {method : Method × ClassId}
      (h : m.frames.get? env.scope name = none)
      (found : m.findMethod? env.self name = .ok (some method)) :
      Does P fuel (.eval (.ident place name) env) m
        (fun perform => Run.send perform.invoke env.self name []) m
  | send (place : Span) {node : Node} {name : NameId} {nodes : List Node} {env : Env}
      {receiver : Value} {args : List Value} {m m₁ m₂ : Machine}
      (hr : P (.eval node env) m = .done receiver m₁)
      (ha : Action.each (P.eval env) nodes m₁ = .done args m₂) :
      Does P fuel (.eval (.send place (some node) name nodes) env) m
        (fun perform => Run.send perform.invoke receiver name args) m₂
  | sendSelf (place : Span) {name : NameId} {nodes : List Node} {env : Env} {args : List Value}
      {m m₁ : Machine} (ha : Action.each (P.eval env) nodes m = .done args m₁)
      (h : ∀ id, m₁.frames.get? env.scope name ≠ some (.bound id)) :
      Does P fuel (.eval (.send place none name nodes) env) m
        (fun perform => Run.send perform.invoke env.self name args) m₁
  | callBound (place : Span) {name : NameId} {nodes : List Node} {env : Env} {args : List Value}
      {id : BoundId} {m m₁ : Machine} (ha : Action.each (P.eval env) nodes m = .done args m₁)
      (h : m₁.frames.get? env.scope name = some (.bound id)) :
      Does P fuel (.eval (.send place none name nodes) env) m
        (fun perform => Run.callBound perform.invoke id args) m₁
  | setter {place' : Span} (place : Span) {node value : Node} {name setter : NameId}
      {nodes : List Node} {env : Env} {v receiver : Value} {args : List Value}
      {m m₁ m₂ m₃ m₄ : Machine} (hv : P (.eval value env) m = .done v m₁)
      (hr : P (.eval node env) m₁ = .done receiver m₂)
      (ha : Action.each (P.eval env) nodes m₂ = .done args m₃)
      (hs : setterOf name m₃ = .done setter m₄) :
      Does P fuel (.eval (.assign place' (.send place (some node) name nodes) value) env) m
        (fun perform => Run.send perform.invoke receiver setter (args ++ [v])) m₄
  | setVariable {place' : Span} (place : Span) {name : NameId} {value : Node} {env : Env}
      {v : Value} {m m₁ : Machine} (hv : P (.eval value env) m = .done v m₁) :
      Does P fuel (.eval (.assign place' (.instanceVar place name) value) env) m
        (fun _ => Run.setVariable env.self name v) m₁
  -- Exceptions for which a clause is chosen.
  | classOf {place : Span} {body otherwise cleanup : Node} {rescues : List (RescueClause Node)}
      {env : Env} {e : Value} {place? : Option Span} {m m₁ : Machine}
      (hb : P (.eval body env) m = .failed ⟨.raised e, place?⟩ m₁) :
      Does P fuel (.eval (.guarded place body rescues otherwise cleanup) env) m
        (fun _ => Run.ofExcept (m₁.classOf e)) m₁
  | findRescue {place : Span} {body otherwise cleanup : Node} {rescues : List (RescueClause Node)}
      {env : Env} {e : Value} {place? : Option Span} {c : ClassId} {m m₁ : Machine}
      (hb : P (.eval body env) m = .failed ⟨.raised e, place?⟩ m₁)
      (hc : m₁.classOf e = .ok c) :
      Does P fuel (.eval (.guarded place body rescues otherwise cleanup) env) m
        (fun perform => perform.findRescue env c rescues) m₁
  -- Definitions.
  | definitionClass {place : Span} {name : NameId} {params : List (Param Node)} {body : Node}
      {env : Env} {m : Machine} :
      Does P fuel (.eval (.methodDef place name params body) env) m
        (fun _ => definitionClass env.self) m
  | parentClass {place : Span} {name : NameId} {node body : Node} {env : Env} {m : Machine} :
      Does P fuel (.eval (.classDef place name (some node) body) env) m
        (fun perform => perform.parentClass env node) m
  | openClass (place : Span) {name : NameId} {body : Node} {env : Env} {m : Machine} :
      Does P fuel (.eval (.classDef place name none body) env) m (fun _ => openClass name none) m
  | openBelow (place : Span) {name : NameId} {node body : Node} {env : Env} {c : ClassId}
      {m m₁ : Machine} (hp : P.parentClass env node m = .done c m₁) :
      Does P fuel (.eval (.classDef place name (some node) body) env) m
        (fun _ => openClass name (some c)) m₁
  | noSingleton (place : Span) {target : Node} {name : NameId} {params : List (Param Node)}
      {body : Node} {env : Env} {v : Value} {m m₁ : Machine}
      (ht : P (.eval target env) m = .done v m₁) (h : ∀ c, v ≠ .cls c) :
      Does P fuel (.eval (.singletonDef place target name params body) env) m
        (fun _ => (Run.fault (.noSingleton (m₁.describe v)) : Run Value)) m₁

variable {P : Perform} {env : Env} {m m' : Machine} {f : Failure}

/-- When the body has raised an exception, a clause is chosen by its class. -/
theorem rescued_of_raised {body otherwise : Node} {rescues : List (RescueClause Node)} {e : Value}
    {place? : Option Span} (h : P (.eval body env) m = .failed ⟨.raised e, place?⟩ m') :
    P.rescued env body rescues otherwise m = (do
      let c ← Run.ofExcept (m'.classOf e)
      match ← P.findRescue env c rescues with
      | some clause => P.handle env clause e
      | none => Action.fail ⟨.raised e, place?⟩) m' := by
  rw [rescued, Action.attempt_bind_eq_andCatch, eval, h]
  rfl

/-- Without an `ensure` clause a failure is left as it is. -/
theorem ensured_of_failed {cleanup : Node} {x : Run Value} (h : cleanup.isNop = true)
    (hx : x m = .failed f m') : P.ensured env cleanup x m = .failed f m' := by
  rw [ensured, Action.attempt_bind_eq_andCatch, hx]
  simp only [Outcome.andCatch, h]
  rfl

end Perform

/-! ### Failures -/

/-- Whether a task has failed with a failure that has come up on a machine.  Its place may have
been noted since, and calls may have been left. -/
def Outcome.FailsAs (o : Outcome Machine Failure Value) (f : Failure) (m : Machine) : Prop :=
  ∃ f' d, o = .failed f' { m with depth := d } ∧ f.Passes f'

namespace Outcome.FailsAs

variable {o : Outcome Machine Failure Value} {f : Failure} {m : Machine}

theorem same (h : o = .failed f m) : o.FailsAs f m := ⟨f, m.depth, h, .refl f⟩

theorem noted (place : Span) (h : o = .failed (f.locate place) m) : o.FailsAs f m :=
  ⟨f.locate place, m.depth, h, .locate place f⟩

theorem left {o' : Outcome Machine Failure Value} (h : o = o'.leave) (h' : o' = .failed f m) :
    o.FailsAs f m :=
  ⟨f, m.depth - 1, by rw [h, h']; rfl, .refl f⟩

end Outcome.FailsAs

namespace Perform.Does

variable {P : Perform} {fuel : Nat} {task : Task} {m s m' : Machine} {α : Type}
  {a : Perform → Run α} {f : Failure}

/-- **What fails in a step ends it.** -/
theorem fails (h : P.Does fuel task m a s) (ht : task.NoEnsure) (ha : a P s = .failed f m') :
    (P.step fuel task m).FailsAs f m' := by
  cases h with
  | whole => exact .same ha
  | count h => exact .same ((call_of_not_accepts P h).trans ha)
  | depth h hd => exact .same ((call_of_too_deep P h hd).trans ha)
  | native h => exact .left ((call_of_callable h).trans (Run.nested_apply _ _)) ha
  | body h bound =>
      -- A frame is opened, the parameters are bound, and then the body is evaluated.
      refine .left ((call_of_callable h).trans (Run.nested_apply _ _)) ?_
      exact (Action.bind_of_done rfl).trans ((Action.bind_of_done bound).trans ha)
  | constant place => exact .noted place (Run.located_of_failed place ha)
  | name h =>
      refine .same ?_
      simp only [step, node, Perform.bareName, Action.bind_apply, Action.view, h, ha]
  | unknownName place h found | bareName place h found =>
      refine .noted place ?_
      simp only [step, node, Perform.bareName, Run.findMethod, Action.bind_apply, Action.view, h,
        found, Run.ofExcept, Action.pure_apply]
      exact Run.located_of_failed place ha
  | send place hr hs =>
      refine .noted place ((Action.bind_of_done hr).trans ((Action.bind_of_done hs).trans ?_))
      exact Run.located_of_failed place ha
  | sendSelf place hs h =>
      refine .noted place ((Action.bind_of_done hs).trans ?_)
      simp only [Action.bind_apply, Action.view]
      cases bound : s.frames.get? _ _ with
      | none => exact Run.located_of_failed place ha
      | some v =>
          cases v with
          | bound id => exact (h id bound).elim
          | _ => exact Run.located_of_failed place ha
  | callBound place hs h =>
      refine .noted place ((Action.bind_of_done hs).trans ?_)
      simp only [Action.bind_apply, Action.view, h]
      exact Run.located_of_failed place ha
  | setter place hv hr hs ht =>
      refine .noted place ((Action.bind_of_done hv).trans ((Action.bind_of_done hr).trans ?_))
      refine (Action.bind_of_done hs).trans ((Action.bind_of_done ht).trans ?_)
      exact Action.bind_of_failed (Run.located_of_failed place ha)
  | setVariable place hv =>
      exact .noted place ((Action.bind_of_done hv).trans (Run.located_of_failed place ha))
  | classOf hb =>
      refine .same (ensured_of_failed ht ((rescued_of_raised hb).trans ?_))
      exact Action.bind_of_failed ha
  | findRescue hb hc =>
      refine .same (ensured_of_failed ht ((rescued_of_raised hb).trans ?_))
      refine (Action.bind_of_done (congrArg (Run.ofExcept · _) hc)).trans ?_
      exact Action.bind_of_failed ha
  | definitionClass => exact .same (Action.bind_of_failed ha)
  | parentClass => exact .same (Action.bind_of_failed (Action.bind_of_failed ha))
  | openClass place =>
      refine .noted place ((Action.bind_of_done rfl).trans ?_)
      exact Action.bind_of_failed (Run.located_of_failed place ha)
  | openBelow place hp =>
      refine .noted place ?_
      simp only [step, node, classDef, map_eq_pure_bind, Action.bind_apply, hp, Action.pure_apply,
        Run.located_of_failed place ha]
  | noSingleton place hv h =>
      refine .noted place ((Action.bind_of_done hv).trans ?_)
      refine Eq.trans ?_ (Run.located_of_failed place ha)
      split
      · exact (h _ rfl).elim
      · rfl

theorem plan (h : P.Does fuel task m a s) : ∃ passes, Plan passes a := by
  cases h with
  | whole => exact ⟨_, (@script_step False True fuel task nofun fun _ => trivial).plan⟩
  | native => exact ⟨_, (@Native.calls_run True fuel _ (fun _ => trivial) _ _).plan⟩
  | body => exact ⟨_, (@script_body False False _ _).plan⟩
  | bareName | send | sendSelf | setter => exact ⟨_, (@Run.calls_send False _ _ _).plan⟩
  | callBound => exact ⟨_, (@Run.calls_callBound False _ _).plan⟩
  | findRescue => exact ⟨_, (@script_findRescue False False _ _ _).plan⟩
  | parentClass => exact ⟨_, (@script_parentClass False False _ _).plan⟩
  | _ => exact ⟨fun _ => False, .own _⟩

/-- **Nothing comes after what fails in a step.**  A task that the step asks for is asked for by
what fails, or before it: when the task is halted, the step does not come to that. -/
theorem asks_before (h : P.Does fuel task m a s) (ht : task.NoEnsure) (ha : a P s = .failed f m')
    {task' : Task} {s' : Machine}
    (asks : AsksFor (fun perform => perform.step fuel task) P m task' s') :
    AsksFor a P s task' s' ∨ ∀ mark, ¬ (P.haltingAt task' s' mark).Does fuel task m a s := by
  obtain ⟨passes, plan⟩ := h.plan
  refine (plan.asks_or_eq P s task' s').imp_right fun same mark does => ?_
  obtain ⟨f', d, fails, -⟩ := does.fails ht ((same mark).trans ha)
  cases (asks mark).symm.trans fails

end Perform.Does

end MiniRuby
