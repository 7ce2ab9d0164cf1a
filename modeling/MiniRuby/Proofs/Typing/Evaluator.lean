import MiniRuby.Proofs.Evaluator.Reach
import MiniRuby.Proofs.Typing.Library

/-!
# Evaluation is safe

A task is ready (`Task.Ready`) when the machine that it finds is well kept, when what it is given
lives there, and when the code that it is to evaluate is in order, or the method that it is to call
fits its receiver.  A step of a task that is ready is safe as long as the tasks that it leads to are
when they are ready (`Perform.yields_step`), and so all tasks are.

* `perform_yields`: a task that is ready is safe, whatever the fuel.
* `Moment.Reaches.ready`: all tasks that a task comes to are ready, if it is.
-/

namespace MiniRuby

open Machine (Leads)
open Run (Safe Yields)

variable {ok : Node → Prop} {m : Machine}

/-- Whether a task may be carried out on a machine. -/
def Task.Ready (ok : Node → Prop) (m : Machine) : Task → Prop
  | .eval node env => m.Sound ok ∧ node.All ok ∧ env.self.Lives m
  | .invoke method receiver args =>
    m.Sound ok ∧ method.Fits ok receiver ∧ receiver.Lives m ∧ Value.AllLive m args

/-- Whether tasks are safe that are ready. -/
def Perform.IsSafe (ok : Node → Prop) (perform : Perform) : Prop :=
  ∀ task m, task.Ready ok m → Yields ok m (perform task)

namespace Run

/-- A local may be set to a value that lives. -/
theorem safe_setLocal (hm : m.Sound ok) (scope : Scope) (name : NameId) {v : Value}
    (hv : v.Lives m) : Safe ok m (setLocal scope name v) fun _ _ => True :=
  .update (hm.leads_setLocal scope name hv) trivial

theorem safe_openScope (hm : m.Sound ok) (scope : Scope) :
    Safe ok m (openScope scope) fun _ _ => True :=
  .transform (hm.leads_openScope scope) trivial

end Run

namespace Perform

variable {perform : Perform} {env : Env} (hP : perform.IsSafe ok)

include hP

/-- Calling methods is safe if performing tasks is. -/
theorem invoke_safe : Invoke.IsSafe ok perform.invoke :=
  fun m method receiver args hm hf hv ha => hP (.invoke method receiver args) m ⟨hm, hf, hv, ha⟩

/-- Evaluating a part yields a value that lives, if performing tasks is safe. -/
theorem yields_eval (hm : m.Sound ok) {node : Node} (hn : node.All ok) (hv : env.self.Lives m) :
    Yields ok m (perform.eval env node) :=
  hP (.eval node env) m ⟨hm, hn, hv⟩

/-- Evaluating several parts yields values that live on the last machine. -/
theorem safe_evalAll (hm : m.Sound ok) {nodes : List Node} (hn : ∀ n ∈ nodes, n.All ok)
    (hv : env.self.Lives m) :
    Safe ok m (Action.each (perform.eval env) nodes) fun vs s => Value.AllLive s vs :=
  .each hm (fun _ _ _ h hg => h.grow hg) fun n hmem _ hl =>
    yields_eval hP hl.sound (hn n hmem) (hv.grow hl.grows)

/-! ### Calls -/

/-- **Parameters** are bound to arguments or to the values of defaults, which all live. -/
theorem safe_bindParams (hm : m.Sound ok) {params : List (Param Node)}
    (hp : Node.AllParams ok params) {args : List Value} (ha : Value.AllLive m args)
    (hv : env.self.Lives m) :
    Safe ok m (perform.bindParams env params args) fun _ _ => True := by
  induction params generalizing m args with
  | nil => exact .pure hm trivial
  | cons p params ih =>
      have hps : Node.AllParams ok params := fun q hq => hp q (.tail _ hq)
      cases args with
      | cons v args =>
          refine (Run.safe_setLocal hm env.scope p.name (ha v (.head _))).bind fun _ s hl _ => ?_
          exact ih hl.sound hps (fun w hw => (ha w (.tail _ hw)).grow hl.grows) (hv.grow hl.grows)
      | nil =>
          have rest : ∀ v s, m.Leads ok s → Value.Lives s v → Safe ok s (do
              Run.setLocal env.scope p.name v
              perform.bindParams env params []) fun _ _ => True := by
            intro v s hl hlive
            refine (Run.safe_setLocal hl.sound env.scope p.name hlive).bind fun _ s' hl' _ => ?_
            exact ih hl'.sound hps .nil (hv.grow (hl.trans hl').grows)
          simp only [bindParams]
          cases hd : p.default? with
          | none => exact rest .nil m (.refl hm) trivial
          | some node => exact (yields_eval hP hm (hp p (.head _) node hd) hv).bind rest

/-- The value of a call lives, also when a jump carries it. -/
theorem yields_body (hm : m.Sound ok) {node : Node} (hn : node.All ok) (hv : env.self.Lives m) :
    Yields ok m (perform.body env node) := by
  refine (yields_eval hP hm hn hv).catching (fun v s hl hlive => .pure hl.sound hlive)
    fun f s hl hf => ?_
  obtain ⟨signal, place?⟩ := f
  cases signal with
  | returned v => exact .pure hl.sound hf
  | broke v | skipped v => exact .fail hl.sound hf.settle
  | fault cause | raised e => exact .fail hl.sound hf

/-- **A method that fits** is entered safely, whether it is native or defined. -/
theorem yields_enter (hm : m.Sound ok) (fuel : Nat) {method : Method} {receiver : Value}
    (hf : method.Fits ok receiver) (hv : receiver.Lives m) {args : List Value}
    (ha : Value.AllLive m args) : Yields ok m (perform.enter fuel method receiver args) := by
  cases method with
  | native name arity op => exact op.yields_run (invoke_safe hP) hm fuel hf hv ha
  | defined name params node scope =>
      refine (Run.safe_openScope hm scope).bind fun inner s₁ hl₁ _ => ?_
      have hself : (Env.mk inner receiver).self.Lives s₁ := hv.grow hl₁.grows
      obtain ⟨hp, hb⟩ := Node.AllDef.parts hf
      refine (safe_bindParams hP hl₁.sound hp (ha.grow hl₁.grows) hself).bind
        fun _ s₂ hl₂ _ => ?_
      exact yields_body hP hl₂.sound hb (hself.grow hl₂.grows)

/-- Calling it is safe at every depth, as the limit is an error of the program. -/
theorem yields_call (hm : m.Sound ok) (fuel : Nat) {method : Method} {receiver : Value}
    (hf : method.Fits ok receiver) (hv : receiver.Lives m) {args : List Value}
    (ha : Value.AllLive m args) : Yields ok m (perform.call fuel method receiver args) := by
  refine .ite (fun _ => .view_bind (.ite (fun _ => ?_) fun _ => .fault hm nofun))
    fun _ => .fault hm nofun
  refine .nested hm (fun s hl => ?_) fun _ _ _ h hg => h.grow hg
  exact yields_enter hP hl.sound fuel hf (hv.grow hl.grows) (ha.grow hl.grows)

/-! ### Constructs -/

/-- A name that stands alone is a local with a value that lives, or a call. -/
theorem yields_bareName (hm : m.Sound ok) (hv : env.self.Lives m) (place : Span) (name : NameId) :
    Yields ok m (perform.bareName env place name) := by
  refine .view_bind ?_
  cases hf : m.frames.get? env.scope name with
  | some v => exact .pure hm (hm.localVar hf)
  | none =>
      refine (Run.safe_findMethod hm hv name).bind fun r s hl _ => ?_
      cases r with
      | some found =>
          exact .located place (Run.yields_send (invoke_safe hP) hl.sound (hv.grow hl.grows) name
            .nil)
      | none => exact .view_bind (.located place (.fault hl.sound nofun))

/-- **A call** yields a value that lives, or raises an error of the program. -/
theorem yields_message (hm : m.Sound ok) (hv : env.self.Lives m) (place : Span)
    {receiver? : Option Node} (hr : ∀ r, receiver? = some r → r.All ok) (name : NameId)
    {args : List Node} (hn : ∀ n ∈ args, n.All ok) :
    Yields ok m (perform.send env place receiver? name args) := by
  cases receiver? with
  | some node =>
      refine (yields_eval hP hm (hr node rfl) hv).bind fun receiver s₁ hl₁ hlive => ?_
      refine (safe_evalAll hP hl₁.sound hn (hv.grow hl₁.grows)).bind fun args s₂ hl₂ ha => ?_
      exact .located place (Run.yields_send (invoke_safe hP) hl₂.sound (hlive.grow hl₂.grows) name
        ha)
  | none =>
      refine (safe_evalAll hP hm hn hv).bind fun args s hl ha => .view_bind ?_
      have self : Yields ok s (Run.located place (Run.send perform.invoke env.self name args)) :=
        .located place (Run.yields_send (invoke_safe hP) hl.sound (hv.grow hl.grows) name ha)
      cases hf : s.frames.get? env.scope name with
      | none => exact self
      | some v =>
          have hlive := hl.sound.localVar hf
          cases v with
          | bound id =>
              exact .located place (Run.yields_callBound (invoke_safe hP) hl.sound hlive ha)
          | _ => exact self

omit hP in
/-- The name of a setter is looked up safely. -/
theorem safe_setterOf (hm : m.Sound ok) (name : NameId) :
    Safe ok m (setterOf name) fun _ _ => True :=
  .ite (fun _ => .pure hm trivial) fun _ => .view_bind (Run.safe_intern hm _)

/-- What the parser lets through as a target can be assigned to. -/
theorem yields_assign (hm : m.Sound ok) (hv : env.self.Lives m) {target : Node}
    (ht : target.Assignable) (hn : target.All ok) {v : Value} (hlive : v.Lives m) :
    Yields ok m (perform.assign env target v) := by
  cases target with
  | ident place name =>
      have hl := hm.leads_setLocal env.scope name hlive
      exact (Safe.update (Q := fun _ s => v.Lives s) hl (hlive.grow hl.grows)).bind
        fun _ _ hl hlive => .pure hl.sound hlive
  | instanceVar place name => exact .located place (Run.yields_setVariable hm env.self name hlive)
  | const place name =>
      have hl := hm.leads_setConstant name hlive
      exact (Safe.update (Q := fun _ s => v.Lives s) hl (hlive.grow hl.grows)).bind
        fun _ _ hl hlive => .pure hl.sound hlive
  | send place receiver? name args =>
      obtain ⟨-, hr, ha⟩ := Node.all_send.mp hn
      cases receiver? with
      | none => exact ht.elim
      | some node =>
          refine (yields_eval hP hm (hr node rfl) hv).bind fun receiver s₁ hl₁ hrec => ?_
          refine (safe_evalAll hP hl₁.sound ha (hv.grow hl₁.grows)).bind fun vs s₂ hl₂ hvs => ?_
          refine (safe_setterOf hl₂.sound name).bind fun setter s₃ hl₃ _ => ?_
          have hl₁₃ := (hl₁.trans hl₂).trans hl₃
          have all : Value.AllLive s₃ (vs ++ [v]) := by
            intro w hw
            rcases List.mem_append.mp hw with hw | hw
            · exact (hvs w hw).grow hl₃.grows
            · exact List.mem_singleton.mp hw ▸ hlive.grow hl₁₃.grows
          refine (Safe.located place (Run.yields_send (invoke_safe hP) hl₃.sound
            (hrec.grow (hl₂.trans hl₃).grows) setter all)).bind fun _ s₄ hl₄ _ => ?_
          exact .pure hl₄.sound (hlive.grow (hl₁₃.trans hl₄).grows)
  | _ => exact ht.elim

/-- One round of a loop ends with a value that lives, or goes on. -/
theorem safe_pass (hm : m.Sound ok) (hv : env.self.Lives m) {test body : Node}
    (ht : test.All ok) (hb : body.All ok) :
    Safe ok m (perform.pass env test body) fun r s => ∀ v, r = some v → v.Lives s := by
  refine (yields_eval hP hm ht hv).bind fun v s hl _ => .ite (fun _ => ?_) fun _ => ?_
  · refine (yields_eval hP hl.sound hb (hv.grow hl.grows)).catching
      (fun _ _ hl _ => .pure hl.sound nofun) fun f s' hl' hf => ?_
    obtain ⟨signal, place?⟩ := f
    cases signal with
    | broke v =>
        refine .pure hl'.sound fun w hw => ?_
        cases hw
        exact hf
    | skipped v => exact .pure hl'.sound nofun
    | fault cause | raised e | returned v => exact .fail hl'.sound hf
  · refine .pure hl.sound fun w hw => ?_
    cases hw
    trivial

/-- A clause that names no class is an error of the program. -/
theorem safe_rescueClass (hm : m.Sound ok) (hv : env.self.Lives m) {node : Node}
    (hn : node.All ok) : Safe ok m (perform.rescueClass env node) fun _ _ => True := by
  refine (yields_eval hP hm hn hv).bind fun v s hl _ => ?_
  cases v with
  | cls c => exact .pure hl.sound trivial
  | _ => exact .located node.span (.fault hl.sound nofun)

/-- A clause that is found is one of the clauses, with parts that are well aimed. -/
theorem safe_findRescue (hm : m.Sound ok) (hv : env.self.Lives m) (c : ClassId)
    {clauses : List (RescueClause Node)} (hc : ∀ r ∈ clauses, Node.AllClause ok r) :
    Safe ok m (perform.findRescue env c clauses) fun r _ => ∀ clause, r = some clause →
      Node.AllClause ok clause := by
  induction clauses generalizing m with
  | nil => exact .pure hm nofun
  | cons clause clauses ih =>
      have here := hc clause (.head _)
      have rest : ∀ (classes : List ClassId) (s : Machine), m.Leads ok s → Safe ok s (do
          if ← Action.view fun m => classes.any fun a => m.classes.isSubclass c a then
            pure (some clause)
          else perform.findRescue env c clauses) fun r _ => ∀ clause, r = some clause →
            Node.AllClause ok clause := by
        intro classes s hl
        refine .view_bind (.ite (fun _ => .pure hl.sound fun r hr => ?_) fun _ => ?_)
        · cases hr
          exact here
        · exact ih hl.sound (hv.grow hl.grows) fun r hr => hc r (.tail _ hr)
      simp only [findRescue]
      split
      · exact rest _ m (.refl hm)
      · refine Safe.bind (.each (R := fun _ _ => True) hm (fun _ _ _ _ _ => trivial)
          fun n hn s hl => ?_) fun classes s hl _ => rest classes s hl
        exact safe_rescueClass hP hl.sound (hv.grow hl.grows) (here.1 n hn)

/-- The exception that a clause binds lives. -/
theorem yields_handle (hm : m.Sound ok) (hv : env.self.Lives m) {clause : RescueClause Node}
    (hc : Node.AllClause ok clause) {e : Value} (he : e.Lives m) :
    Yields ok m (perform.handle env clause e) := by
  unfold handle
  cases clause.binder? with
  | none => exact yields_eval hP hm hc.2 hv
  | some name =>
      exact (Run.safe_setLocal hm env.scope name he).bind fun _ _ hl _ =>
        yields_eval hP hl.sound hc.2 (hv.grow hl.grows)

/-- **A rescued body** yields a value that lives, whichever part it comes from. -/
theorem yields_rescued (hm : m.Sound ok) (hv : env.self.Lives m) {body otherwise : Node}
    {rescues : List (RescueClause Node)} (hb : body.All ok)
    (hr : ∀ r ∈ rescues, Node.AllClause ok r) (ho : otherwise.All ok) :
    Yields ok m (perform.rescued env body rescues otherwise) := by
  refine (yields_eval hP hm hb hv).catching (fun v s hl hlive => ?_) fun f s hl hf => ?_
  · exact .ite (fun _ => .pure hl.sound hlive)
      fun _ => yields_eval hP hl.sound ho (hv.grow hl.grows)
  · obtain ⟨signal, place?⟩ := f
    cases signal with
    | raised e =>
        have he : e.Lives s := Value.IsException.lives hf
        refine .view_bind ((Safe.ofExcept (Q := fun _ _ => True) hl.sound (s.mild_classOf e)
          fun _ _ => trivial).bind fun c s₁ hl₁ _ => ?_)
        have hl₀₁ := hl.trans hl₁
        refine (safe_findRescue hP hl₁.sound (hv.grow hl₀₁.grows) c hr).bind
          fun r s₂ hl₂ hclause => ?_
        cases r with
        | some clause =>
            exact yields_handle hP hl₂.sound (hv.grow (hl₀₁.trans hl₂).grows) (hclause clause rfl)
              (he.grow (hl₁.trans hl₂).grows)
        -- The exception goes on, on a machine that has grown while clauses were tried.
        | none => exact .fail hl₂.sound (Failure.Safe.grow hf (hl₁.trans hl₂).grows)
    | fault cause | returned v | broke v | skipped v => exact .fail hl.sound hf

/-- How the guarded part ended is still in order after the `ensure` clause. -/
theorem yields_ensured (hv : env.self.Lives m) {cleanup : Node} (hc : cleanup.All ok)
    {x : Run Value} (hx : Yields ok m x) : Yields ok m (perform.ensured env cleanup x) := by
  have after : ∀ (r : Except Failure Value) (s : Machine), m.Leads ok s →
      (∀ v, r = .ok v → v.Lives s) → (∀ f, r = .error f → f.Safe s) → Yields ok s (do
        if !cleanup.isNop then
          let _ ← perform.eval env cleanup
        Action.ofExcept r) := by
    intro r s hl hok herr
    refine .ite (fun _ => ?_) fun _ => .result hl.sound hok herr
    refine (yields_eval hP hl.sound hc (hv.grow hl.grows)).bind fun _ s' hl' _ => ?_
    exact .result hl'.sound (fun v hr => (hok v hr).grow hl'.grows)
      fun f hr => (herr f hr).grow hl'.grows
  refine hx.catching (fun v s hl hlive => after (.ok v) s hl ?_ nofun)
    fun f s hl hf => after (.error f) s hl nofun ?_
  · rintro w ⟨⟩
    exact hlive
  · rintro g ⟨⟩
    exact hf

/-! ### Definitions -/

omit hP

/-- A value that is no class has no definitions of its own, which is an error of the program. -/
theorem safe_definitionClass (hm : m.Sound ok) {self : Value} :
    Safe ok m (definitionClass self) fun _ _ => True := by
  cases self with
  | cls c => exact .pure hm trivial
  | _ => exact .view_bind (.ofExcept hm (m.mild_classOf _) fun _ _ => trivial)

/-- A class that is opened is in the table, and a new one is below a class of the table. -/
theorem safe_openClass (hm : m.Sound ok) (name : NameId) {parent? : Option ClassId}
    (hp : ∀ p, parent? = some p → p.index < m.classes.classes.size) :
    Safe ok m (openClass name parent?) fun c s => c.index < s.classes.classes.size := by
  refine .view_bind (.view_bind ?_)
  cases hf : m.classes.find? (m.names.text name) with
  | some c =>
      refine .view_bind (.ite (fun _ => ?_) fun _ => .fault hm nofun)
      exact .pure hm (hm.classes.named _ c hf)
  | none =>
      -- The name is free, which keeps the names of the first classes what they are.
      have above : (parent?.getD .object).index < m.classes.classes.size := by
        cases parent? with
        | none => exact Nat.lt_of_lt_of_le (by decide) hm.classes.extends_first.size_le
        | some p => exact hp p rfl
      have sound := hm.classes.register (m.names.text name) (m.names.text name) above hf
      refine .transform (hm.leads_classes (m.classes.extends_register _ _ _ _) sound) ?_
      simp [ClassTable.register]

include hP

/-- A parent is a class of the table. -/
theorem safe_parentClass (hm : m.Sound ok) (hv : env.self.Lives m) {node : Node}
    (hn : node.All ok) :
    Safe ok m (perform.parentClass env node) fun c s => c.index < s.classes.classes.size := by
  refine (yields_eval hP hm hn hv).bind fun v s hl hlive => ?_
  cases v with
  | cls c => exact .pure hl.sound hlive
  | _ => exact .view_bind (.located node.span (.fault hl.sound nofun))

/-- **A class definition** makes a class with a parent of the table, or opens one. -/
theorem yields_classDef (hm : m.Sound ok) (hv : env.self.Lives m) (place : Span) (name : NameId)
    {parent? : Option Node} (hp : ∀ p, parent? = some p → p.All ok) {body : Node}
    (hb : body.All ok) : Yields ok m (perform.classDef env place name parent? body) := by
  have rest : ∀ (above : Option ClassId) (s : Machine), m.Leads ok s →
      (∀ p, above = some p → p.index < s.classes.classes.size) → Yields ok s (do
        let c ← Run.located place (openClass name above)
        let scope ← Run.openScope env.scope
        perform.eval ⟨scope, .cls c⟩ body) := by
    intro above s hl ha
    refine (Safe.located place (safe_openClass hl.sound name ha)).bind fun c s₁ hl₁ hc => ?_
    refine (Run.safe_openScope hl₁.sound env.scope).bind fun scope s₂ hl₂ _ => ?_
    have hself : (Env.mk scope (.cls c)).self.Lives s₂ :=
      Value.Lives.grow (v := .cls c) hc hl₂.grows
    exact yields_eval hP hl₂.sound hb hself
  cases parent? with
  | none => exact rest none m (.refl hm) nofun
  | some node =>
      refine (Safe.map ((safe_parentClass hP hm hv (hp node rfl)).imp fun c s _ hc => ?_)).bind rest
      rintro p ⟨⟩
      exact hc

/-- A definition on an object adds a method that belongs anywhere. -/
theorem yields_singletonDef (hm : m.Sound ok) (hv : env.self.Lives m) (place : Span)
    {target : Node} (ht : target.All ok) {method : Method} (hd : method.BelongsAnywhere ok) :
    Yields ok m (perform.singletonDef env place target method) := by
  refine (yields_eval hP hm ht hv).bind fun v s hl _ => ?_
  cases v with
  | cls c =>
      have added := s.classes.extends_addClassMethod c method
      have hl' := hl.sound.leads_classes added (hl.sound.classes.addClassMethod hd)
      exact (Safe.update (Q := fun _ _ => True) hl' trivial).bind fun _ _ hl _ =>
        .pure hl.sound trivial
  | _ => exact .view_bind (.located place (.fault hl.sound nofun))

/-! ### All constructs -/

/-- **Every construct** is safe if assignments are well aimed and its parts are performed safely. -/
theorem yields_node (aims : ∀ n, ok n → n.AimsWell) (hm : m.Sound ok) (fuel : Nat) {node : Node}
    (hn : node.All ok) (hv : env.self.Lives m) : Yields ok m (perform.node fuel env node) := by
  cases node with
  | self place => exact .pure hm hv
  | nil | int | float | bool | symbol => exact .pure hm trivial
  | str place s => exact Run.yields_newString hm s
  | array place nodes =>
      refine (safe_evalAll hP hm (Node.all_array.mp hn).2 hv).bind fun vs s hl hvs => ?_
      exact Run.yields_newArray hl.sound fun v hmem => hvs v (List.mem_toArray.mp hmem)
  | ident place name => exact yields_bareName hP hm hv place name
  | instanceVar place name => exact Run.yields_getVariable hm env.self name
  | const place name =>
      exact .view_bind (.located place (.ofExcept hm (m.mild_constant name)
        fun v h => hm.constant h))
  | assign place target value =>
      obtain ⟨here, ht, hval⟩ := Node.all_assign.mp hn
      exact (yields_eval hP hm hval hv).bind fun v s hl hlive =>
        yields_assign hP hl.sound (hv.grow hl.grows) (aims _ here) ht hlive
  | and place left right =>
      obtain ⟨-, hl, hr⟩ := Node.all_and.mp hn
      exact (yields_eval hP hm hl hv).bind fun v s hl hlive =>
        .ite (fun _ => yields_eval hP hl.sound hr (hv.grow hl.grows)) fun _ => .pure hl.sound hlive
  | or place left right =>
      obtain ⟨-, hl, hr⟩ := Node.all_or.mp hn
      exact (yields_eval hP hm hl hv).bind fun v s hl hlive =>
        .ite (fun _ => .pure hl.sound hlive) fun _ => yields_eval hP hl.sound hr (hv.grow hl.grows)
  | not place operand =>
      exact (yields_eval hP hm (Node.all_not.mp hn).2 hv).bind fun _ _ hl _ =>
        .pure hl.sound trivial
  | stmts place nodes =>
      exact .last hm trivial fun n hmem s hl =>
        yields_eval hP hl.sound ((Node.all_stmts.mp hn).2 n hmem) (hv.grow hl.grows)
  | cond place test yes no =>
      obtain ⟨-, ht, hy, hno⟩ := Node.all_cond.mp hn
      exact (yields_eval hP hm ht hv).bind fun _ s hl _ =>
        .ite (fun _ => yields_eval hP hl.sound hy (hv.grow hl.grows))
          fun _ => yields_eval hP hl.sound hno (hv.grow hl.grows)
  | loop place test body =>
      obtain ⟨-, ht, hb⟩ := Node.all_loop.mp hn
      exact .untilSome fuel hm fun s hl => safe_pass hP hl.sound (hv.grow hl.grows) ht hb
  | guarded place body rescues otherwise cleanup =>
      obtain ⟨-, hb, hr, ho, hc⟩ := Node.all_guarded.mp hn
      exact yields_ensured hP hv hc (yields_rescued hP hm hv hb hr ho)
  | breakWith place value =>
      exact (yields_eval hP hm (Node.all_breakWith.mp hn).2 hv).bind fun _ _ hl hlive =>
        .fail hl.sound hlive
  | nextWith place value =>
      exact (yields_eval hP hm (Node.all_nextWith.mp hn).2 hv).bind fun _ _ hl hlive =>
        .fail hl.sound hlive
  | returnWith place value =>
      exact (yields_eval hP hm (Node.all_returnWith.mp hn).2 hv).bind fun _ _ hl hlive =>
        .fail hl.sound hlive
  | methodDef place name params body =>
      refine (safe_definitionClass hm).bind fun c s hl _ => ?_
      have belongs : (Method.defined name params body env.scope).BelongsIn ok c :=
        .inl ⟨place, hn⟩
      exact (ClassOp.safe_addMethod hl.sound belongs).bind fun _ _ hl _ => .pure hl.sound trivial
  | singletonDef place target name params body =>
      have belongs : (Method.defined name params body env.scope).BelongsAnywhere ok :=
        .inr ⟨place, target, hn⟩
      exact yields_singletonDef hP hm hv place (Node.all_singletonDef.mp hn).2.1 belongs
  | classDef place name parent? body =>
      obtain ⟨-, hp, hb⟩ := Node.all_classDef.mp hn
      exact yields_classDef hP hm hv place name hp hb
  | send place receiver? name args =>
      obtain ⟨-, hr, ha⟩ := Node.all_send.mp hn
      exact yields_message hP hm hv place hr name ha

/-- **A step is safe**, if the tasks are that it leads to. -/
theorem yields_step (aims : ∀ n, ok n → n.AimsWell) (fuel : Nat) {task : Task}
    (ht : task.Ready ok m) : Yields ok m (perform.step fuel task) := by
  cases task with
  | eval node env =>
      obtain ⟨hm, hn, hv⟩ := ht
      exact yields_node hP aims hm fuel hn hv
  | invoke method receiver args =>
      obtain ⟨hm, hf, hv, ha⟩ := ht
      exact yields_call hP hm fuel hf hv ha

end Perform

/-! ### Runs -/

/-- A machine that is ready for a task is sound. -/
theorem Task.Ready.sound {task : Task} (h : task.Ready ok m) : m.Sound ok := by
  cases task <;> exact h.1

section Runs

variable (aims : ∀ n, ok n → n.AimsWell)

include aims

/-- A step keeps to the contract of tasks: from what is ready, it goes to what is in order. -/
theorem Perform.step_keeps (fuel : Nat) (P : Perform)
    (hP : ∀ task m, task.Ready ok m → Yields ok m fun _ => P task m) (task : Task) (m : Machine)
    (h : task.Ready ok m) : Yields ok m fun _ => P.step fuel task m :=
  (yields_step (fun task m h => (hP task m h).congr rfl) aims fuel h).congr rfl

/-- **A task that is ready is safe**, whatever the fuel. -/
theorem perform_yields (fuel : Nat) {task : Task} (h : task.Ready ok m) :
    Yields ok m (perform fuel task) := by
  refine Safe.congr (x := fun _ => perform fuel task m) ?_ rfl
  exact @perform_of_step _ (fun _ m o => Yields ok m fun _ => o) (Perform.step_keeps aims)
    (fun _ _ h => .of_halted rfl (.refl h.sound)) fuel task m h

/-- A task that is asked for is ready. -/
theorem AsksFor.ready {P : Perform} (hP : P.IsSafe ok) {fuel : Nat} {task task' : Task}
    {s : Machine} (h : AsksFor (fun perform => perform.step fuel task) P m task' s)
    (hm : task.Ready ok m) : task'.Ready ok s := by
  -- A machine without any object is not well kept.
  let bad : Machine := { Machine.bare (.collecting "") with heap := .empty }
  have hbad : ∀ (_ : Task) m, ¬ Yields ok m fun _ => .halted bad :=
    fun _ _ h => absurd h.leads.sound.main (Nat.lt_irrefl 0)
  exact @AsksFor.requires (fun task m => task.Ready ok m)
    (fun _ m o => Yields ok m fun _ => o) bad hbad (Perform.step_keeps aims) P
    (fun task m h => (hP task m h).congr rfl) fuel task task' m s h hm

/-- A task that is asked for is asked for on a machine that is ready for it. -/
theorem Moment.Asks.ready {x y : Moment} (h : x.Asks y) (hx : x.task.Ready ok x.machine) :
    y.task.Ready ok y.machine :=
  AsksFor.ready aims (fun _ _ ht => perform_yields aims y.fuel ht) h.2 hx

/-- The machine has grown until a task is asked for: halted there, the step is still safe. -/
theorem Moment.Asks.leads {x y : Moment} (h : x.Asks y) (hx : x.task.Ready ok x.machine) :
    x.machine.Leads ok y.machine := by
  have hy := h.ready aims hx
  have safe : Perform.IsSafe ok
      (Perform.haltingAt (perform y.fuel) y.task y.machine y.machine) := by
    intro task m ht
    by_cases e : task = y.task ∧ m = y.machine
    · obtain ⟨rfl, rfl⟩ := e
      exact .of_halted (Perform.haltingAt_self _ _ _ _) (.refl hy.sound)
    · exact (perform_yields aims y.fuel ht).congr (Perform.haltingAt_of_ne _ _ e)
  have halts : Perform.step y.fuel (Perform.haltingAt (perform y.fuel) y.task y.machine y.machine)
      x.task x.machine = .halted y.machine := h.2 y.machine
  have hl := (Perform.yields_step safe aims y.fuel hx).leads
  rw [halts] at hl
  exact hl

/-- **All tasks that are reached are ready**, on machines that the first one has grown into. -/
theorem Moment.Reaches.ready {x y : Moment} (h : x.Reaches y) (hx : x.task.Ready ok x.machine) :
    y.task.Ready ok y.machine ∧ x.machine.Leads ok y.machine := by
  induction h with
  | refl => exact ⟨hx, .refl hx.sound⟩
  | tail _ asks ih =>
      obtain ⟨ready, leads⟩ := ih
      exact ⟨asks.ready aims ready, leads.trans (asks.leads aims ready)⟩

end Runs

end MiniRuby
