import MiniRuby.Proofs.Evolution
import MiniRuby.Proofs.Grammar.Built
import MiniRuby.Proofs.Typing.Evaluator

/-!
# Where failures are noted to have happened

Native methods fail without a place, and so do calls that are refused.  A construct that sends a
message notes its own place then, and one that fails by itself notes it at once.  There is one kind
of failure for which no construct does so: that a value has no class.  On a machine where every
value has a class (`Machine.Classifies`) this does not come up, and such a machine grows into such
ones only.

* `Run.FailsAs`: all failures of an action are of a kind, on machines where every value has a class.
* `Perform.places_step`: a step that evaluates a tree fails at a place in the tree or at one that a
  task noted, if the tasks that it asks for do so.
* `perform_blames`: so does every task that is ready.
-/

namespace MiniRuby

/-! ### Kinds of failures -/

namespace Failure

variable {S : Span → Prop} {f : Failure}

/-- A failure whose place, if one was noted, is where it should be. -/
def Within (S : Span → Prop) (f : Failure) : Prop := ∀ place, f.span? = some place → S place

/-- A failure whose place was noted, and is where it should be. -/
def Placed (S : Span → Prop) (f : Failure) : Prop := ∃ place, f.span? = some place ∧ S place

/-- A failure that has its place has it among the given ones. -/
theorem Placed.within (h : f.Placed S) : f.Within S := by
  obtain ⟨place, e, hs⟩ := h
  intro place' e'
  cases e.symm.trans e'
  exact hs

/-- A failure without a place has no place outside. -/
theorem within_of_none (h : f.span? = none) : f.Within S := by
  intro place e
  cases h.symm.trans e

/-- Where no place was noted before, this one is. -/
theorem Within.locate {place : Span} (h : f.Within S) (hs : S place) :
    (f.locate place).Placed S := by
  unfold Failure.locate
  split
  · rename_i place' e
    exact ⟨place', e, h place' e⟩
  · exact ⟨place, rfl, hs⟩

end Failure

/-- How a task may fail: what is evaluated fails at a place, and a call may leave it to its caller
to note one. -/
def Task.Blames (S : Span → Prop) : Task → Failure → Prop
  | .eval _ _, f => f.Placed S
  | .invoke _ _ _, f => f.Within S

/-! ### Classes of values -/

namespace Machine

variable {m m' : Machine}

/-- Whether every value has a class. -/
def Classifies (m : Machine) : Prop := ∀ v, ∃ c, m.classOf v = .ok c

/-- A class that is known by its name stays so, and a cell says itself of which class it is. -/
theorem Evolves.classifies (h : m.Evolves m') (hm : m.Classifies) : m'.Classifies := by
  intro v
  obtain ⟨c, hc⟩ := hm v
  have known : ∀ name, m.heap.home v = .known name → m'.heap.home v = .known name →
      ∃ c, m'.classOf v = .ok c := by
    intro name e e'
    simp only [classOf, ClassTable.classOf, e] at hc
    split at hc
    · rename_i c' found
      exact ⟨c', by simp only [classOf, ClassTable.classOf, e', h.classes.find?_eq found]⟩
    · cases hc
  cases v with
  | str id | arr id | obj id | bound id => exact ⟨_, Sound.classOf_cell rfl⟩
  | bool b => cases b <;> exact known _ rfl rfl
  | _ => exact known _ rfl rfl

/-- On a sound machine every value has a class of the table. -/
theorem Sound.classifies {ok : Node → Prop} (hm : m.Sound ok) : m.Classifies := by
  intro v
  cases hh : m.heap.home v with
  | known name => exact ⟨v.sort, (hm.classOf_known hh).1⟩
  | cell c => exact ⟨c, Sound.classOf_cell hh⟩

/-- Looking for a method fails only for want of a class. -/
theorem Classifies.findMethod? (hm : m.Classifies) (v : Value) (name : NameId) :
    ∃ found?, m.findMethod? v name = .ok found? := by
  obtain ⟨c, hc⟩ := hm v
  cases v with
  | cls c' =>
      simp only [Machine.findMethod?, hc]
      cases m.classes.findClassMethod? c' name <;> exact ⟨_, rfl⟩
  | _ =>
      simp only [Machine.findMethod?, hc]
      exact ⟨_, rfl⟩

end Machine

/-! ### Actions -/

/-- Whether an outcome, if it is a failure, is one of a kind; every value has a class after it. -/
def Outcome.FailedAs {α : Type} (Q : Failure → Prop) : Outcome Machine Failure α → Prop
  | done _ s => s.Classifies
  | failed f s => Q f ∧ s.Classifies
  | halted s => s.Classifies

namespace Run

/-- Whether an action fails with failures of a kind only, on machines where every value has a class,
and leads to such machines. -/
def FailsAs {α : Type} (Q : Failure → Prop) (x : Run α) : Prop :=
  ∀ m : Machine, m.Classifies → (x m).FailedAs Q

namespace FailsAs

variable {α β : Type} {S : Span → Prop} {Q Q' : Failure → Prop} {x : Run α} {f : α → Run β}

/-- An action that lets the machine grow, and fails with failures of a kind only. -/
theorem of_evolves (hg : ∀ m : Machine, m.Evolves (x m).state)
    (h : ∀ m e m', x m = .failed e m' → Q e) : FailsAs Q x := by
  intro m hm
  have grown := (hg m).classifies hm
  cases e : x m with
  | done a s | halted s =>
      rw [e] at grown
      exact grown
  | failed e' s =>
      rw [e] at grown
      exact ⟨h m e' s e, grown⟩

/-- What an action fails with may be described more loosely. -/
theorem mono (hx : FailsAs Q x) (h : ∀ e, Q e → Q' e) : FailsAs Q' x := by
  intro m hm
  have first := hx m hm
  cases e : x m with
  | done a s | halted s =>
      rw [e] at first
      exact first
  | failed e' s =>
      rw [e] at first
      exact ⟨h e' first.1, first.2⟩

/-- What does not fail fails as it should. -/
theorem of_done (h : ∀ m : Machine, m.Classifies → ∃ a m', x m = .done a m' ∧ m.Evolves m') :
    FailsAs Q x := by
  intro m hm
  obtain ⟨a, m', e, hg⟩ := h m hm
  rw [e]
  exact hg.classifies hm

theorem pure (a : α) : FailsAs Q (Pure.pure a : Run α) := fun _ hm => hm

/-- Looking at the machine cannot fail. -/
theorem view (g : Machine → α) : FailsAs Q (Action.view g) := fun _ hm => hm

/-- A change of the machine cannot fail, but has to be one that machines go through. -/
theorem transform {g : Machine → α × Machine} (h : ∀ m : Machine, m.Evolves (g m).2) :
    FailsAs Q (Action.transform g) := fun m hm => (h m).classifies hm

/-- The same of a change without a result. -/
theorem update {g : Machine → Machine} (h : ∀ m : Machine, m.Evolves (g m)) :
    FailsAs Q (Action.update g) := fun m hm => (h m).classifies hm

/-- What an action fails with is what it is asked about. -/
theorem fail {e : Failure} (h : Q e) : FailsAs Q (Action.fail e : Run α) := fun _ hm => ⟨h, hm⟩

/-- Running out of fuel is no failure. -/
theorem exhaust : FailsAs Q (Action.exhaust : Run α) := fun _ hm => hm

/-- A quiet action notes no place. -/
theorem quiet (hx : x.Quiet) : FailsAs (Failure.Within S) x :=
  of_evolves hx.evolves fun m e m' he => Failure.within_of_none (hx.unplaced m e m' he)

/-- **Two actions in a row** fail as one of them fails. -/
theorem bind (hx : FailsAs Q x) (hf : ∀ a, FailsAs Q (f a)) : FailsAs Q (x >>= f) := by
  intro m hm
  have first := hx m hm
  rw [Action.bind_eq_andThen]
  cases e : x m with
  | done a s =>
      rw [e] at first
      exact hf a s first
  | failed e' s | halted s =>
      rw [e] at first
      exact first

/-- What follows an answer, or a failure of a kind. -/
theorem catching {g : Except Failure α → Run β} (hx : FailsAs Q x)
    (hok : ∀ a, FailsAs Q' (g (.ok a)))
    (herr : ∀ e, Q e → FailsAs Q' (g (.error e))) : FailsAs Q' (Action.attempt x >>= g) := by
  intro m hm
  have first := hx m hm
  rw [Action.attempt_bind_eq_andCatch]
  cases e : x m with
  | done a s =>
      rw [e] at first
      exact hok a s first
  | failed e' s =>
      rw [e] at first
      exact herr e' first.1 s first.2
  | halted s =>
      rw [e] at first
      exact first

/-- Where no place was noted, one is now. -/
theorem located {place : Span} (hx : FailsAs (Failure.Within S) x) (hs : S place) :
    FailsAs (Failure.Placed S) (Run.located place x) := by
  intro m hm
  have first := hx m hm
  rw [Run.located, Action.mapError_eq]
  cases e : x m with
  | done a s | halted s =>
      rw [e] at first
      exact first
  | failed e' s =>
      rw [e] at first
      exact ⟨first.1.locate hs, first.2⟩

/-- The number of open calls does not matter. -/
theorem nested (hx : FailsAs Q x) : FailsAs Q (Run.nested x) := by
  have deeper : ∀ {s : Machine} (d : Nat), s.Classifies → { s with depth := d }.Classifies :=
    fun _ => (Machine.Evolves.of_eq rfl rfl rfl rfl rfl).classifies
  intro m hm
  have inner := hx { m with depth := m.depth + 1 } (deeper _ hm)
  rw [Run.nested_apply]
  cases e : x { m with depth := m.depth + 1 } with
  | done a s =>
      rw [e] at inner
      exact deeper _ inner
  | failed e' s =>
      rw [e] at inner
      exact ⟨inner.1, deeper _ inner.2⟩
  | halted s =>
      rw [e] at inner
      exact inner

theorem ite {c : Prop} [Decidable c] {y : Run α} (hx : FailsAs Q x) (hy : FailsAs Q y) :
    FailsAs Q (if c then x else y) := by
  split
  · exact hx
  · exact hy

/-- A loop fails as its body fails on one of the elements. -/
theorem each {g : α → Run β} {as : List α} (h : ∀ a ∈ as, FailsAs Q (g a)) :
    FailsAs Q (Action.each g as) := by
  induction as with
  | nil => exact pure []
  | cons a as ih =>
      rw [Action.each_cons]
      exact (h a (.head _)).bind fun b => (ih fun a ha => h a (.tail _ ha)).bind fun bs =>
        pure (b :: bs)

/-- A loop that keeps the last result fails as its body fails. -/
theorem last {g : α → Run β} (h : ∀ a, FailsAs Q (g a)) (as : List α) (b : β) :
    FailsAs Q (Action.last g b as) := by
  induction as generalizing b with
  | nil => exact pure b
  | cons a as ih =>
      rw [Action.last_cons]
      exact (h a).bind ih

/-- A loop that ends on a result fails as its body fails. -/
theorem untilSome {y : Run (Option α)} (h : FailsAs Q y) (fuel : Nat) :
    FailsAs Q (Action.untilSome y fuel) := by
  induction fuel with
  | zero => exact exhaust
  | succ fuel ih =>
      rw [Action.untilSome_succ]
      refine h.bind fun r => ?_
      cases r with
      | none => exact ih
      | some a => exact pure a

/-- A native method notes no place by itself. -/
theorem calls {F : Invoke → Run α} (hF : Calls True F) {invoke : Invoke}
    (h : ∀ method receiver args, FailsAs (Failure.Within S) (invoke method receiver args)) :
    FailsAs (Failure.Within S) (F invoke) := by
  induction hF with
  | quiet hx => exact quiet hx
  | exhaust _ => exact exhaust
  | call method receiver args => exact h method receiver args
  | bind _ _ ihF ihG => exact ihF.bind ihG

/-! What the interpreter does by itself, without noting a place, does not fail. -/

/-- The class of a value is told without failure on a machine that classifies its values. -/
theorem classOf (v : Value) : FailsAs Q (do Run.ofExcept (← Action.view fun m => m.classOf v)) := by
  refine of_done fun m hm => ?_
  obtain ⟨c, hc⟩ := hm v
  refine ⟨c, m, ?_, .refl m⟩
  rw [Action.bind_view, hc]
  rfl

/-- A method is looked up without failure. -/
theorem findMethod (v : Value) (name : NameId) : FailsAs Q (Run.findMethod v name) := by
  refine of_done fun m hm => ?_
  obtain ⟨found?, hf⟩ := hm.findMethod? v name
  exact ⟨found?, m, Run.findMethod_of_ok hf, .refl m⟩

theorem intern (text : String) : FailsAs Q (Run.intern text) :=
  transform fun _ => .withNames (.intern .refl text)

theorem newString (text : String) : FailsAs Q (Run.newString text) :=
  transform fun m => .withHeap (.newString m.heap .string text)

theorem newArray (elements : Array Value) : FailsAs Q (Run.newArray elements) :=
  transform fun m => .withHeap (.newArray m.heap .array elements)

theorem setLocal (scope : Scope) (name : NameId) (v : Value) :
    FailsAs Q (Run.setLocal scope name v) :=
  update fun _ => .of_eq rfl rfl rfl rfl rfl

theorem openScope (scope : Scope) : FailsAs Q (Run.openScope scope) :=
  transform fun _ => .of_eq rfl rfl rfl rfl rfl

/-- Classes may be changed in ways in which the table only grows. -/
theorem updateClasses {g : ClassTable → ClassTable} (h : ∀ t : ClassTable, t.Grows (g t)) :
    FailsAs Q (Run.updateClasses g) :=
  update fun m => .withClasses (h m.classes)

/-- An instance variable is read without failure. -/
theorem getVariable (self : Value) (name : NameId) : FailsAs Q (Run.getVariable self name) := by
  cases self with
  | obj id => exact view _
  | _ => exact pure _

end FailsAs

end Run

open Run (FailsAs)

/-! ### Steps -/

namespace Perform

/-- A way of carrying out tasks in which all tasks fail as they may. -/
def Places (S : Span → Prop) (P : Perform) : Prop := ∀ task, FailsAs (task.Blames S) (P task)

variable {S : Span → Prop} {P : Perform} {env : Env}

section Constructs

variable (hP : P.Places S)

include hP

/-- A step performs the evaluation of a part, which places its failures. -/
theorem places_eval (node : Node) : FailsAs (Failure.Placed S) (P.eval env node) :=
  hP (.eval node env)

/-- Calling a method may fail without a place, as the caller knows it. -/
theorem places_invoke (method : Method) (receiver : Value) (args : List Value) :
    FailsAs (Failure.Within S) (P.invoke method receiver args) :=
  hP (.invoke method receiver args)

/-- Several parts are evaluated, each of which places its failures. -/
theorem places_evalAll (nodes : List Node) :
    FailsAs (Failure.Placed S) (Action.each (P.eval env) nodes) :=
  .each fun node _ => places_eval hP node

/-! Calls note no place by themselves. -/

/-- Binding parameters fails only where a default is evaluated. -/
theorem places_bindParams (params : List (Param Node)) (args : List Value) :
    FailsAs (Failure.Placed S) (P.bindParams env params args) := by
  induction params generalizing args with
  | nil => exact .pure ()
  | cons p params ih =>
      cases args with
      | cons v args =>
          simp only [bindParams]
          exact (FailsAs.setLocal env.scope p.name v).bind fun _ => ih args
      | nil =>
          have rest : ∀ v, FailsAs (Failure.Placed S) (do
              Run.setLocal env.scope p.name v
              P.bindParams env params []) := fun v =>
            (FailsAs.setLocal env.scope p.name v).bind fun _ => ih []
          simp only [bindParams]
          cases p.default? with
          | none => exact rest .nil
          | some node => exact (places_eval hP node).bind rest

/-- The body of a definition places its failures. -/
theorem places_body (node : Node) : FailsAs (Failure.Placed S) (P.body env node) := by
  refine (places_eval hP node).catching .pure fun f hf => ?_
  obtain ⟨signal, place?⟩ := f
  cases signal with
  | returned v => exact .pure v
  | broke v | skipped v | fault cause | raised e => exact .fail hf

/-- **A method is entered**, and its failures are within the places of the program. -/
theorem places_enter (fuel : Nat) (method : Method) (receiver : Value) (args : List Value) :
    FailsAs (Failure.Within S) (P.enter fuel method receiver args) := by
  cases method with
  | native name arity op =>
      exact .calls (op.calls_run fuel (fun _ => trivial) receiver args)
        (places_invoke hP)
  | defined name params node scope =>
      have placed : ∀ inner, FailsAs (Failure.Placed S) (do
          P.bindParams ⟨inner, receiver⟩ params args
          P.body ⟨inner, receiver⟩ node) := fun inner =>
        (places_bindParams hP params args).bind fun _ => places_body hP node
      exact (FailsAs.openScope scope).bind fun inner => (placed inner).mono fun _ h => h.within

/-- So are the failures of a call that counts the depth. -/
theorem places_call (fuel : Nat) (method : Method) (receiver : Value) (args : List Value) :
    FailsAs (Failure.Within S) (P.call fuel method receiver args) :=
  .ite ((FailsAs.view _).bind fun _ =>
    .ite (.nested (places_enter hP fuel method receiver args)) (.quiet (.fault _)))
    (.quiet (.fault _))

/-! ### Constructs -/

/-- A message that is sent from a place fails there, or at a place that was noted before. -/
theorem places_message {place : Span} (hs : S place) (receiver : Value) (name : NameId)
    (args : List Value) :
    FailsAs (Failure.Placed S) (Run.located place (Run.send P.invoke receiver name args)) :=
  .located (.calls (Run.calls_send receiver name args) (places_invoke hP)) hs

omit hP in
/-- A fault is given its place where it comes up. -/
theorem places_fault {α : Type} {place : Span} (hs : S place) (cause : Fault) :
    FailsAs (Failure.Placed S) (Run.located place (Run.fault cause) : Run α) :=
  .located (.quiet (.fault cause)) hs

/-- A name that is not bound is a call, and fails where the name is written. -/
theorem places_bareName {place : Span} (hs : S place) (name : NameId) :
    FailsAs (Failure.Placed S) (P.bareName env place name) := by
  refine (FailsAs.view _).bind fun r => ?_
  cases r with
  | some v => exact .pure v
  | none =>
      refine (FailsAs.findMethod env.self name).bind fun r => ?_
      cases r with
      | some found => exact places_message hP hs env.self name []
      | none => exact (FailsAs.view _).bind fun _ => places_fault hs _

/-- **A call** gives its own place to a failure that has none. -/
theorem places_send {place : Span} (hs : S place) (receiver? : Option Node) (name : NameId)
    (args : List Node) : FailsAs (Failure.Placed S) (P.send env place receiver? name args) := by
  cases receiver? with
  | some node =>
      exact (places_eval hP node).bind fun receiver => (places_evalAll hP args).bind fun args =>
        places_message hP hs receiver name args
  | none =>
      refine (places_evalAll hP args).bind fun args => (FailsAs.view _).bind fun r => ?_
      have self := places_message hP hs env.self name args
      rcases r with _ | v
      · exact self
      · cases v with
        | bound id =>
            exact .located (.calls (Run.calls_callBound id args) (places_invoke hP)) hs
        | _ => exact self

omit hP in
/-- The name of a setter is looked up without failure. -/
theorem places_setterOf (name : NameId) : FailsAs (Failure.Placed S) (setterOf name) :=
  .ite (.pure _) ((FailsAs.view _).bind fun _ => .intern _)

/-- **An assignment** fails where its target is written. -/
theorem places_assign {target : Node} (hs : S target.span) (v : Value) :
    FailsAs (Failure.Placed S) (P.assign env target v) := by
  cases target with
  | ident place name => exact (FailsAs.setLocal env.scope name v).bind fun _ => .pure v
  | instanceVar place name => exact .located (.quiet (.setVariable env.self name v)) hs
  | const place name =>
      exact (FailsAs.update fun m => .setConstant m name v).bind fun _ => .pure v
  | send place receiver? name args =>
      cases receiver? with
      | some node =>
          exact (places_eval hP node).bind fun receiver => (places_evalAll hP args).bind fun args =>
            (places_setterOf name).bind fun setter =>
              (places_message hP hs receiver setter (args ++ [v])).bind fun _ => .pure v
      | none => exact places_fault hs _
  | _ => exact places_fault hs _

/-- One round of a loop places its failures. -/
theorem places_pass (test body : Node) : FailsAs (Failure.Placed S) (P.pass env test body) := by
  refine (places_eval hP test).bind fun v => .ite ?_ (.pure _)
  refine (places_eval hP body).catching (fun _ => .pure _) fun f hf => ?_
  obtain ⟨signal, place?⟩ := f
  cases signal with
  | broke v | skipped v => exact .pure _
  | fault cause | raised e | returned v => exact .fail hf

/-- What a rescue clause names has to be a class, and the place is that of its name. -/
theorem places_rescueClass {node : Node} (hs : S node.span) :
    FailsAs (Failure.Placed S) (P.rescueClass env node) := by
  refine (places_eval hP node).bind fun v => ?_
  cases v with
  | cls c => exact .pure c
  | _ => exact places_fault hs _

/-- Clauses are looked through in order, each with its classes. -/
theorem places_findRescue (c : ClassId) {clauses : List (RescueClause Node)}
    (h : ∀ clause ∈ clauses, ∀ node ∈ clause.classes, S node.span) :
    FailsAs (Failure.Placed S) (P.findRescue env c clauses) := by
  induction clauses with
  | nil => exact .pure none
  | cons clause clauses ih =>
      have rest : ∀ classes : List ClassId, FailsAs (Failure.Placed S) (do
          if ← Action.view fun m : Machine => classes.any fun a => m.classes.isSubclass c a then
            pure (some clause)
          else P.findRescue env c clauses) := fun classes =>
        (FailsAs.view _).bind fun _ => .ite (.pure _) (ih fun d hd => h d (.tail _ hd))
      simp only [findRescue]
      split
      · exact (FailsAs.pure _).bind rest
      · exact (FailsAs.each fun node hn => places_rescueClass hP (h clause (.head _) node hn)).bind
          rest

/-- The body of a clause that fits places its failures. -/
theorem places_handle (clause : RescueClause Node) (e : Value) :
    FailsAs (Failure.Placed S) (P.handle env clause e) := by
  unfold handle
  cases clause.binder? with
  | none => exact (FailsAs.pure ()).bind fun _ => places_eval hP _
  | some name => exact (FailsAs.setLocal env.scope name e).bind fun _ => places_eval hP _

/-- **A rescued body** fails as the body, a clause or the branch without failure does. -/
theorem places_rescued (body otherwise : Node) {rescues : List (RescueClause Node)}
    (h : ∀ clause ∈ rescues, ∀ node ∈ clause.classes, S node.span) :
    FailsAs (Failure.Placed S) (P.rescued env body rescues otherwise) := by
  refine (places_eval hP body).catching (fun v => .ite (.pure v) (places_eval hP _)) fun f hf => ?_
  obtain ⟨signal, place?⟩ := f
  cases signal with
  | raised e =>
      refine (FailsAs.classOf e).bind fun c => (places_findRescue hP c h).bind fun found => ?_
      cases found with
      | none => exact .fail hf
      | some clause => exact places_handle hP clause e
  | fault cause | returned v | broke v | skipped v => exact .fail hf

/-- A cleanup that fails takes the place of the failure that it cleans up after. -/
theorem places_ensured (cleanup : Node) {x : Run Value} (hx : FailsAs (Failure.Placed S) x) :
    FailsAs (Failure.Placed S) (P.ensured env cleanup x) := by
  have after : ∀ {y : Run Value}, FailsAs (Failure.Placed S) y → FailsAs (Failure.Placed S) (do
      if !cleanup.isNop then
        let _ ← P.eval env cleanup
      y) := fun hy => .ite ((places_eval hP cleanup).bind fun _ => hy) hy
  exact hx.catching (fun v => after (.pure v)) fun f hf => after (.fail hf)

omit hP in
/-- The class that a definition goes to is told without failure. -/
theorem places_definitionClass (self : Value) :
    FailsAs (Failure.Placed S) (definitionClass self) := by
  cases self with
  | cls c => exact .pure c
  | _ => exact .classOf _

/-- A parent that is no class is refused where it is written. -/
theorem places_parentClass {node : Node} (hs : S node.span) :
    FailsAs (Failure.Placed S) (P.parentClass env node) := by
  refine (places_eval hP node).bind fun v => ?_
  cases v with
  | cls c => exact .pure c
  | _ => exact (FailsAs.view _).bind fun _ => places_fault hs _

/-- **A class definition** fails where it is written, or in its body. -/
theorem places_classDef {place : Span} (hs : S place) (name : NameId) {parent? : Option Node}
    (h : ∀ node, parent? = some node → S node.span) (body : Node) :
    FailsAs (Failure.Placed S) (P.classDef env place name parent? body) := by
  have rest : ∀ above, FailsAs (Failure.Placed S) (do
      let c ← Run.located place (openClass name above)
      let scope ← Run.openScope env.scope
      P.eval ⟨scope, .cls c⟩ body) := fun above =>
    (FailsAs.located (.quiet (quiet_openClass name above)) hs).bind fun c =>
      (FailsAs.openScope env.scope).bind fun scope => places_eval hP body
  cases parent? with
  | none => exact (FailsAs.pure none).bind rest
  | some node =>
      exact ((places_parentClass hP (h node rfl)).bind fun c => .pure (some c)).bind rest

/-- A definition on an object fails where the object is written. -/
theorem places_singletonDef {place : Span} (hs : S place) (target : Node) (method : Method) :
    FailsAs (Failure.Placed S) (P.singletonDef env place target method) := by
  refine (places_eval hP target).bind fun v => ?_
  cases v with
  | cls c =>
      exact (FailsAs.updateClasses fun t => .addClassMethod t c method).bind fun _ => .pure _
  | _ => exact (FailsAs.view _).bind fun _ => places_fault hs _

/-- **What is evaluated fails at a place**, if the tree stands where it should. -/
theorem places_node (fuel : Nat) {node : Node} (hn : node.WellBuilt S) :
    FailsAs (Failure.Placed S) (P.node fuel env node) := by
  have here : S node.span := (Node.all_here hn).2
  cases node with
  | self | nil | int | float | bool | symbol => exact .pure _
  | str place s => exact .newString s
  | array place nodes => exact (places_evalAll hP nodes).bind fun _ => .newArray _
  | ident place name => exact places_bareName hP here name
  | instanceVar place name => exact .getVariable env.self name
  | const place name =>
      exact (FailsAs.view _).bind fun r => .located (.quiet (.ofExcept r)) here
  | assign place target value =>
      have aimed : S target.span := (Node.all_here (Node.all_assign.mp hn).2.1).2
      exact (places_eval hP value).bind fun v => places_assign hP aimed v
  | and place left right =>
      exact (places_eval hP left).bind fun v => .ite (places_eval hP right) (.pure v)
  | or place left right =>
      exact (places_eval hP left).bind fun v => .ite (.pure v) (places_eval hP right)
  | not place operand => exact (places_eval hP operand).bind fun _ => .pure _
  | stmts place nodes => exact .last (places_eval hP) nodes .nil
  | cond place test yes no =>
      exact (places_eval hP test).bind fun _ => .ite (places_eval hP yes) (places_eval hP no)
  | loop place test body => exact .untilSome (places_pass hP test body) fuel
  | guarded place body rescues otherwise cleanup =>
      obtain ⟨-, -, hr, -⟩ := Node.all_guarded.mp hn
      exact places_ensured hP cleanup (places_rescued hP body otherwise fun clause hc node hmem =>
        (Node.all_here ((hr clause hc).1 node hmem)).2)
  | breakWith place value | nextWith place value | returnWith place value =>
      exact (places_eval hP value).bind fun _ => .fail ⟨place, rfl, here⟩
  | methodDef place name params body =>
      exact (places_definitionClass env.self).bind fun c =>
        (FailsAs.updateClasses fun t => .addMethod t c _).bind fun _ => .pure _
  | singletonDef place target name params body => exact places_singletonDef hP here target _
  | classDef place name parent? body =>
      obtain ⟨-, hp, -⟩ := Node.all_classDef.mp hn
      exact places_classDef hP here name (fun node e => (Node.all_here (hp node e)).2) body
  | send place receiver? name args => exact places_send hP here receiver? name args

/-- **A step fails as it may**, if the tasks do that it leads to. -/
theorem places_step (fuel : Nat) {task : Task} {m : Machine}
    (ht : task.Ready (Node.InOrder S) m) : FailsAs (task.Blames S) (P.step fuel task) := by
  cases task with
  | eval node env =>
      obtain ⟨-, hn, -⟩ := ht
      exact places_node hP fuel hn
  | invoke method receiver args => exact places_call hP fuel method receiver args

end Constructs

open Classical in
/-- Carry out the tasks that are ready, and no others. -/
noncomputable def onReady (ok : Node → Prop) (P : Perform) : Perform :=
  fun task m => if task.Ready ok m then P task m else .halted m

/-- On a machine that is ready for a task, the guard of the step changes nothing. -/
theorem onReady_of_ready {ok : Node → Prop} {task : Task} {m : Machine} (h : task.Ready ok m) :
    P.onReady ok task m = P task m := if_pos h

/-- If tasks that are ready fail as they may, then all do when the others halt. -/
theorem places_onReady {ok : Node → Prop} (hg : ∀ task (m : Machine), m.Evolves (P task m).state)
    (h : ∀ task m, task.Ready ok m → ∀ f m', P task m = .failed f m' → task.Blames S f) :
    (P.onReady ok).Places S := by
  refine fun task => .of_evolves (fun m => ?_) fun m f m' hf => ?_
  · rw [onReady]
    split
    · exact hg task m
    · exact .refl m
  · rw [onReady] at hf
    split at hf
    · rename_i ready
      exact h task m ready f m' hf
    · cases hf

end Perform

/-! ### Tasks -/

/-- **A task that is ready fails as it may**, by induction on the fuel.  All tasks that its step
asks for are ready, so the others may as well halt. -/
theorem perform_blames {S : Span → Prop} (fuel : Nat) {task : Task} {m : Machine}
    (h : task.Ready (Node.InOrder S) m) {f : Failure} {m' : Machine}
    (hf : perform fuel task m = .failed f m') : task.Blames S f := by
  induction fuel generalizing task m f m' with
  | zero => cases task <;> cases hf
  | succ fuel ih =>
      have aims : ∀ n : Node, n.InOrder S → n.AimsWell := fun _ hn => hn.1
      have places := Perform.places_onReady (perform_evolves fuel)
        fun task m (h : task.Ready (Node.InOrder S) m) f m' => ih h
      have same : Perform.step fuel (Perform.onReady (Node.InOrder S) (perform fuel)) task m =
          Perform.step fuel (perform fuel) task m := by
        have step := @Perform.script_step False True fuel task nofun fun _ => trivial
        refine step.plan.eq_of_asks fun t s asked => ?_
        have ready := AsksFor.ready aims (fun _ _ => perform_yields aims fuel) asked h
        exact Perform.onReady_of_ready ready
      rw [perform_succ, ← same] at hf
      have failed := Perform.places_step places fuel h m h.sound.classifies
      rw [hf] at failed
      exact failed.1

end MiniRuby
