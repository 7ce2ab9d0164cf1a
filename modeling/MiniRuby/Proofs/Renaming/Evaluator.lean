import MiniRuby.Proofs.Evaluator.Limit
import MiniRuby.Proofs.Renaming.Library

/-!
# Evaluation does not look at positions of names

Tasks are alike (`Task.Alike`) when what they are given is.  A step of a task goes side by side with
the same step of a task that is alike, as long as the tasks that they ask for do
(`Perform.Matched`): there is one lemma per construct.  Only where a native method is called that
tells positions, they do so on one table of names alone.

A moment is discreet when no call that tells positions is reached from it (`Moment.Discreet`).

* `Perform.alike_step`: a step of tasks that are alike ends alike.
* `Perform.alike_of_discreet`: what asks for discreet tasks only ends alike.
-/

namespace MiniRuby

open Run (Matched)

variable {w : Tables}

/-! ### Tasks -/

/-- The same scope, with values of self that are alike. -/
inductive Env.Alike (w : Tables) : Env → Env → Prop where
  | mk (scope : Scope) {v v' : Value} (hs : Kin.value w v v') : Alike w ⟨scope, v⟩ ⟨scope, v'⟩

abbrev Kin.env : Kin Env where
  rel := Env.Alike
  mono := by
    rintro w w' _ _ hw ⟨scope, hs⟩
    exact .mk scope (hs.later hw)

inductive Task.Alike (w : Tables) : Task → Task → Prop where
  | eval {a b : Node} {env env' : Env} (hn : Kin.node w a b) (he : Kin.env w env env') :
      Alike w (.eval a env) (.eval b env')
  | invoke {f f' : Method} {v v' : Value} {args args' : List Value} (hf : Kin.method w f f')
      (hv : Kin.value w v v') (ha : Kin.values w args args') :
      Alike w (.invoke f v args) (.invoke f' v' args')

/-- Two ways of carrying out tasks that go side by side. -/
def Perform.Matched [Comparison] (P Q : Perform) : Prop :=
  ∀ (w : Tables) (task task' : Task), task.Alike w task' →
    Run.Matched w Kin.value (P task) (Q task')

/-- Tasks that correspond do so when more names are known. -/
theorem Task.Alike.mono {w' : Tables} {task task' : Task} (hw : w ≤ w') (h : task.Alike w task') :
    task.Alike w' task' := by
  cases h with
  | eval hn he => exact .eval (Kin.node.mono hw hn) (Kin.env.mono hw he)
  | invoke hf hv ha => exact .invoke (hf.later hw) (hv.later hw) (Kin.values.mono hw ha)

/-- Whether a method is a native one whose answers tell the positions of names. -/
def Method.TellsPositions : Method → Prop
  | .native _ _ op => op.TellsPositions
  | .defined _ _ _ _ => False

/-- Whether a task calls a method that tells positions, with as many arguments as it takes. -/
def Task.TellsPositions (m : Machine) : Task → Prop
  | .eval _ _ => False
  | .invoke method _ args => method.TellsPositions ∧ method.Callable args m

/-- A moment from which no call that tells positions is reached. -/
def Moment.Discreet (x : Moment) : Prop :=
  ∀ y, x.Reaches y → ¬ y.task.TellsPositions y.machine

/-- What a discreet moment asks for is discreet. -/
theorem Moment.Discreet.of_asks {x y : Moment} (h : x.Discreet) (asks : x.Asks y) : y.Discreet :=
  fun z reaches => h z (.head asks reaches)

/-- Trees that correspond both do nothing or both do something. -/
theorem Node.Alike.isNop_eq {k : Likeness} {n : Nat} {a b : Node} (h : a.Alike k n b) :
    b.isNop = a.isNop := by
  cases h.congr with
  | stmts s hs => cases hs <;> rfl
  | _ => rfl

namespace Perform

variable [Comparison] {P Q : Perform} {env env' : Env} {a a' b b' c c' : Node} {v v' : Value}
  {x y : NameId}

section parts

variable (hP : P.Matched Q)

include hP

theorem Matched.invoke : Invoke.Matched P.invoke Q.invoke :=
  fun w _ _ _ _ _ _ hf hv ha => hP w _ _ (.invoke hf hv ha)

/-- Parts that correspond are evaluated alike. -/
theorem matched_eval (he : Kin.env w env env') (hn : Kin.node w a a') :
    Run.Matched w Kin.value (P.eval env a) (Q.eval env' a') :=
  hP w _ _ (.eval hn he)

/-- Several parts are evaluated in one order. -/
theorem matched_evalAll (he : Kin.env w env env') {as bs : List Node}
    (h : Kin.node.list w as bs) : Run.Matched w Kin.values (Action.each (P.eval env) as)
      (Action.each (Q.eval env') bs) :=
  .each (fun _ hw _ _ hn => matched_eval hP (Kin.env.mono hw he) hn) h

/-! ### Names and messages -/

/-- **A name that stands alone** is a local on both machines or a call on both. -/
theorem matched_bareName (he : Kin.env w env env') (place : Span) (hn : w.Spelled x y) :
    Run.Matched w Kin.value (P.bareName env place x) (Q.bareName env' place y) := by
  obtain ⟨scope, hs⟩ := he
  refine (Run.Matched.view (R := Kin.value.option) fun m n hw hmn =>
    hmn.frames.get? hmn.valid _ (hn.mono hw)).bind fun w₁ h₁ o o' ho => ?_
  cases ho with
  | some hv => exact .pure hv
  | none =>
      have hs := Kin.value.mono h₁ hs
      have hn := hn.mono h₁
      refine (Run.matched_findMethod hs hn).bind fun w₂ h₂ f f' hf => ?_
      have hs := Kin.value.mono h₂ hs
      have hn := hn.mono h₂
      cases hf with
      | some _ => exact .located place (Run.matched_send hP.invoke hs hn .nil)
      | none =>
          refine (Run.Matched.view (R := Kin.same) fun m n hw hmn => ?_).andThen fun _ _ cause =>
            .located place (.fault cause)
          change Fault.unknownName _ _ = Fault.unknownName _ _
          rw [(hn.mono hw).2.2, hmn.describe_eq (Kin.value.mono hw hs)]

/-- **A call** has a receiver and arguments that correspond, and a method of the same text. -/
theorem matched_message (he : Kin.env w env env') (place : Span) {r r' : Option Node}
    (hr : Kin.node.option w r r') (hn : w.Spelled x y) {as bs : List Node}
    (h : Kin.node.list w as bs) :
    Run.Matched w Kin.value (P.send env place r x as) (Q.send env' place r' y bs) := by
  cases hr with
  | some hr =>
      refine (matched_eval hP he hr).bind fun w₁ h₁ v v' hv => ?_
      refine (matched_evalAll hP (Kin.env.mono h₁ he) (Kin.node.list.mono h₁ h)).bind
        fun w₂ h₂ args args' ha => ?_
      exact .located place
        (Run.matched_send hP.invoke (hv.later h₂) (hn.mono (h₁.trans h₂)) ha)
  | none =>
      obtain ⟨scope, hs⟩ := he
      refine (matched_evalAll hP (.mk scope hs) h).bind fun w₁ h₁ args args' ha => ?_
      have hn := hn.mono h₁
      refine (Run.Matched.view (R := Kin.value.option) fun m n hw hmn =>
        hmn.frames.get? hmn.valid _ (hn.mono hw)).bind fun w₂ h₂ o o' ho => ?_
      have ha := Kin.values.mono h₂ ha
      have own := Run.Matched.located place
        (Run.matched_send hP.invoke (Kin.value.mono (h₁.trans h₂) hs) (hn.mono h₂) ha)
      cases ho with
      | none => exact own
      | some hv =>
          cases hv with
          | bound id => exact .located place (Run.matched_callBound hP.invoke id ha)
          | _ => exact own

/-! ### Assignment -/

omit hP in
/-- The name of a setter is the text of a name with `=`, so both machines have it alike. -/
theorem matched_setterOf (hn : w.Spelled x y) :
    Run.Matched w Kin.name (setterOf x) (setterOf y) := by
  refine .under fun w₁ h₁ valid => ?_
  have hn := hn.mono h₁
  have sub : w₁.Spelled .subscript .subscript := valid.first (by decide)
  refine .ite (hn.eq_iff valid sub).symm (.pure (valid.first (by decide))) ?_
  exact (Run.Matched.nameText hn).andThen fun _ _ text => .intern (text ++ "=")

/-- **An assignment** goes to targets that correspond. -/
theorem matched_assign (he : Kin.env w env env') (ht : Kin.node w a a') (hv : Kin.value w v v') :
    Run.Matched w Kin.value (P.assign env a v) (Q.assign env' a' v') := by
  obtain ⟨scope, hs⟩ := he
  cases Node.Alike.congr ht with
  | ident s hn =>
      exact (Run.Matched.setLocal _ hn.1 hv).andThen fun _ h₁ _ => .pure (hv.later h₁)
  | instanceVar s hn => exact .located s (.setVariable hs hn hv)
  | const s hn =>
      refine Run.Matched.andThen (.update fun m n hw hmn => ⟨le_rfl, ?_⟩) fun _ h₁ _ =>
        .pure (hv.later h₁)
      have set := Kin.bindings_insert hmn.constants hmn.valid (Tables.Spelled.mono hw hn)
        (hv.later hw)
      exact { hmn with constants := set }
  | send s hr hn h =>
      cases hr with
      | none => exact .located s (.fault .badTarget)
      | some hr =>
          have he : Kin.env w _ _ := .mk scope hs
          refine (matched_eval hP he hr).bind fun w₁ h₁ r r' hr => ?_
          refine (matched_evalAll hP (Kin.env.mono h₁ he) (Kin.node.list.mono h₁ h)).bind
            fun w₂ h₂ args args' ha => ?_
          have h₀₂ := h₁.trans h₂
          refine (matched_setterOf (Tables.Spelled.mono h₀₂ hn)).bind
            fun w₃ h₃ z z' hz => ?_
          have hv := hv.later (h₀₂.trans h₃)
          have all := Kin.list_append (Kin.values.mono h₃ ha) (.cons hv .nil)
          refine (Run.Matched.located s
            (Run.matched_send hP.invoke (hr.later (h₂.trans h₃)) hz all)).bind
              fun w₄ h₄ _ _ _ => ?_
          exact .pure (hv.later h₄)
  | self s | nil s | int s | float s | bool s | str s | symbol s | array s | assign s | and s
  | or s | not s | stmts s | cond s | loop s | guarded s | breakWith s | nextWith s
  | returnWith s | methodDef s | singletonDef s | classDef s => exact .located s (.fault .badTarget)

/-! ### Loops -/

/-- One round of a loop goes on or ends on both machines. -/
theorem matched_pass (he : Kin.env w env env') (ha : Kin.node w a a') (hb : Kin.node w b b') :
    Run.Matched w Kin.value.option (P.pass env a b) (Q.pass env' a' b') := by
  refine (matched_eval hP he ha).bind fun w₁ h₁ v v' hv => .ite (by rw [hv.truthy_eq]) ?_ ?_
  · refine (matched_eval hP (Kin.env.mono h₁ he) (hb.later h₁)).catching
      (fun _ _ _ _ _ => .pure .none) fun w₂ h₂ f f' hf => ?_
    obtain ⟨signal, span?⟩ := f
    obtain ⟨signal', span?'⟩ := f'
    have whole := hf
    obtain ⟨hs, -⟩ := hf
    cases hs with
    | broke hv => exact .pure (.some hv)
    | skipped hv => exact .pure .none
    | fault cause | raised hv | returned hv => exact .fail whole
  · exact .pure (.some .nil)

/-! ### Exceptions -/

/-- What a rescue clause names is the same class on both. -/
theorem matched_rescueClass (he : Kin.env w env env') (ha : Kin.node w a a') :
    Run.Matched w Kin.same (P.rescueClass env a) (Q.rescueClass env' a') := by
  have place : a'.span = a.span := Node.Alike.span_eq ha
  refine (matched_eval hP he ha).bind fun w₁ h₁ v v' hv => ?_
  rw [place]
  cases hv with
  | cls c => exact .pure rfl
  | _ => exact .located _ (.fault .rescueNeedsClass)

/-- **The clause that fits** is at the same position. -/
theorem matched_findRescue (he : Kin.env w env env') (c : ClassId)
    {rs rs' : List (RescueClause Node)} (hr : Kin.clause.list w rs rs') :
    Run.Matched w Kin.clause.option (P.findRescue env c rs) (Q.findRescue env' c rs') := by
  induction rs generalizing w rs' with
  | nil =>
      cases hr
      exact .pure .none
  | cons r rs ih =>
      obtain _ | @⟨_, r', _, rs', hc, hrest⟩ := hr
      -- What follows when it is known which classes the first clause lists.
      have rest : ∀ w₁, w ≤ w₁ → ∀ classes : List ClassId, Run.Matched w₁ Kin.clause.option
          (do
            if ← Action.view fun m => classes.any fun a => m.classes.isSubclass c a then
              pure (some r)
            else P.findRescue env c rs)
          (do
            if ← Action.view fun m => classes.any fun a => m.classes.isSubclass c a then
              pure (some r')
            else Q.findRescue env' c rs') := by
        intro w₁ h₁ classes
        refine Run.Matched.andThen (.view fun m n _ hmn => ?_) fun w₂ h₂ known => ?_
        · have each : (fun a => n.classes.isSubclass c a) = fun a => m.classes.isSubclass c a :=
            funext fun a => hmn.classes.isSubclass_eq c a
          change List.any _ _ = List.any _ _
          rw [each]
        · have h₂ := h₁.trans h₂
          exact .ite Iff.rfl (.pure (.some (Kin.clause.mono h₂ hc)))
            (ih (Kin.env.mono h₂ he) (Kin.clause.list.mono h₂ hrest))
      obtain ⟨hcs, hn, hb⟩ := hc
      rw [findRescue, findRescue]
      obtain _ | ⟨ha, has⟩ := hcs
      · exact rest w le_rfl _
      · exact (Run.Matched.each (S := Kin.same) (fun _ hw _ _ ha =>
          matched_rescueClass hP (Kin.env.mono hw he) ha) (List.Forall₂.cons ha has)).bind
            fun w₁ h₁ cs cs' hcs => Kin.list_same hcs ▸ rest w₁ h₁ cs

/-- The body of a clause is evaluated with exceptions that correspond. -/
theorem matched_handle (he : Kin.env w env env') {r r' : RescueClause Node}
    (hr : Kin.clause w r r') (hv : Kin.value w v v') :
    Run.Matched w Kin.value (P.handle env r v) (Q.handle env' r' v') := by
  obtain ⟨-, hn, hb⟩ := hr
  cases hn with
  | none => exact matched_eval hP he hb
  | some hn =>
      obtain ⟨scope, hs⟩ := he
      exact (Run.Matched.setLocal scope hn.1 hv).andThen fun _ h₁ _ =>
        matched_eval hP (.mk scope (hs.later h₁)) (Kin.node.mono h₁ hb)

/-- **A rescued body** is rescued on both machines or on neither. -/
theorem matched_rescued (he : Kin.env w env env') (ha : Kin.node w a a')
    {rs rs' : List (RescueClause Node)} (hr : Kin.clause.list w rs rs') (hb : Kin.node w b b') :
    Run.Matched w Kin.value (P.rescued env a rs b) (Q.rescued env' a' rs' b') := by
  refine (matched_eval hP he ha).catching (fun w₁ h₁ v v' hv => ?_) fun w₁ h₁ f f' hf => ?_
  · exact .ite (by rw [Node.Alike.isNop_eq hb]) (.pure hv)
      (matched_eval hP (Kin.env.mono h₁ he) (Kin.node.mono h₁ hb))
  · obtain ⟨signal, span?⟩ := f
    obtain ⟨signal', span?'⟩ := f'
    have whole := hf
    obtain ⟨hs, -⟩ := hf
    cases hs with
    | raised hv =>
        refine Run.Matched.andThen (.view fun _ _ hw hmn => hmn.classOf_eq (hv.later hw))
          fun w₂ h₂ found => (Run.Matched.worked found).andThen fun w₃ h₃ c => ?_
        have h₀₃ := h₁.trans (h₂.trans h₃)
        refine (matched_findRescue hP (Kin.env.mono h₀₃ he) c (Kin.clause.list.mono h₀₃ hr)).bind
          fun w₄ h₄ o o' ho => ?_
        have h₁₄ := h₂.trans (h₃.trans h₄)
        cases ho with
        | none => exact .fail (Kin.failure.mono h₁₄ whole)
        | some hc => exact matched_handle hP (Kin.env.mono (h₁.trans h₁₄) he) hc (hv.later h₁₄)
    | fault cause | returned hv | broke hv | skipped hv => exact .fail whole

/-- A cleanup is evaluated on both, whatever has happened. -/
theorem matched_ensured (he : Kin.env w env env') (hc : Kin.node w c c') {x y : Run Value}
    (hx : Run.Matched w Kin.value x y) :
    Run.Matched w Kin.value (P.ensured env c x) (Q.ensured env' c' y) := by
  refine hx.attempt.bind fun w₁ h₁ r r' hr => ?_
  refine .ite (by rw [Node.Alike.isNop_eq hc]) ?_ (.result hr)
  exact (matched_eval hP (Kin.env.mono h₁ he) (Kin.node.mono h₁ hc)).bind fun w₂ h₂ _ _ _ =>
    .result ((Kin.value.except Kin.failure).mono h₂ hr)

/-! ### Definitions -/

omit hP in
/-- A definition goes to the same class. -/
theorem matched_definitionClass (hv : Kin.value w v v') :
    Run.Matched w Kin.same (definitionClass v) (definitionClass v') := by
  have looked : Run.Matched w Kin.same
      (Action.view (fun m : Machine => m.classOf v) >>= Run.ofExcept)
      (Action.view (fun m : Machine => m.classOf v') >>= Run.ofExcept) :=
    .andThen (.view fun _ _ hw hmn => hmn.classOf_eq (hv.later hw)) fun _ _ found => .worked found
  cases hv with
  | cls c => exact .pure rfl
  | _ => exact looked

omit hP in
/-- A class is opened or made under names that correspond, at the same position. -/
theorem matched_openClass (hn : w.Spelled x y) (parent? : Option ClassId) :
    Run.Matched w Kin.same (openClass x parent?) (openClass y parent?) := by
  refine (Run.Matched.nameText hn).andThen fun w₁ h₁ text => ?_
  refine Run.Matched.andThen (.view fun _ _ _ hmn => hmn.classes.find?_eq text)
    fun w₂ h₂ found => ?_
  cases found with
  | some c =>
      refine Run.Matched.andThen (.view fun _ _ _ hmn => hmn.classes.parent?_eq c)
        fun _ _ actual => ?_
      exact .ite Iff.rfl (.pure rfl) (.fault _)
  | none =>
      refine .transform fun m n _ hmn => ?_
      obtain ⟨same, made⟩ := hmn.classes.register text text (some (parent?.getD .object)) none
      exact ⟨le_rfl, { hmn with classes := made }, same⟩

/-- A parent is the same class. -/
theorem matched_parentClass (he : Kin.env w env env') (ha : Kin.node w a a') :
    Run.Matched w Kin.same (P.parentClass env a) (Q.parentClass env' a') := by
  have place : a'.span = a.span := Node.Alike.span_eq ha
  refine (matched_eval hP he ha).bind fun w₁ h₁ v v' hv => ?_
  rw [place]
  have other : Run.Matched w₁ (Kin.same : Kin ClassId)
      (Run.className v >>= fun given => Run.located a.span (Run.fault (.parentNotAClass given)))
      (Run.className v' >>= fun given => Run.located a.span (Run.fault (.parentNotAClass given))) :=
    (Run.matched_className hv).andThen fun _ _ _ => .located a.span (.fault _)
  cases hv with
  | cls c => exact .pure rfl
  | _ => exact other

/-- **A class definition** opens the same class and evaluates its body. -/
theorem matched_classDef (he : Kin.env w env env') (place : Span) (hn : w.Spelled x y)
    {p p' : Option Node} (hp : Kin.node.option w p p') (hb : Kin.node w b b') :
    Run.Matched w Kin.value (P.classDef env place x p b) (Q.classDef env' place y p' b') := by
  obtain ⟨scope, hs⟩ := he
  -- What follows when the class above is known.
  have rest : ∀ w₁, w ≤ w₁ → ∀ above : Option ClassId, Run.Matched w₁ Kin.value
      (do
        let c ← Run.located place (openClass x above)
        let inner ← Run.openScope scope
        P.eval ⟨inner, .cls c⟩ b)
      (do
        let c ← Run.located place (openClass y above)
        let inner ← Run.openScope scope
        Q.eval ⟨inner, .cls c⟩ b') := by
    intro w₁ h₁ above
    refine (Run.Matched.located place (matched_openClass (hn.mono h₁) above)).andThen
      fun w₂ h₂ c => (Run.Matched.openScope scope).andThen fun w₃ h₃ inner => ?_
    exact matched_eval hP (.mk inner (.cls c)) (Kin.node.mono (h₁.trans (h₂.trans h₃)) hb)
  cases hp with
  | none => exact rest w le_rfl none
  | some hp =>
      refine Run.Matched.andThen (Run.Matched.map (S := Kin.same)
        (matched_parentClass hP (.mk scope hs) hp) fun _ _ _ _ h => congrArg some h) rest

/-- A definition on an object goes to the class of the object. -/
theorem matched_singletonDef (he : Kin.env w env env') (place : Span) (ha : Kin.node w a a')
    {f f' : Method} (hf : Kin.method w f f') :
    Run.Matched w Kin.value (P.singletonDef env place a f) (Q.singletonDef env' place a' f') := by
  refine (matched_eval hP he ha).bind fun w₁ h₁ v v' hv => ?_
  have hf := hf.later h₁
  have other : Run.Matched w₁ Kin.value
      (Action.view (fun m : Machine => m.describe v) >>= fun receiver =>
        Run.located place (Run.fault (.noSingleton receiver)))
      (Action.view (fun m : Machine => m.describe v') >>= fun receiver =>
        Run.located place (Run.fault (.noSingleton receiver))) :=
    .andThen (.view fun _ _ hw hmn => hmn.describe_eq (hv.later hw)) fun _ _ _ =>
      .located place (.fault _)
  cases hv with
  | cls c =>
      refine Run.Matched.andThen (.updateClasses fun _ hw valid _ _ h =>
        h.addClassMethod valid c (hf.later hw)) fun _ h₂ _ => ?_
      exact .pure (.sym (hf.later h₂).name)
  | _ => exact other

/-! ### All constructs -/

/-- **A node** goes side by side with one that is alike. -/
theorem matched_node (fuel : Nat) (he : Kin.env w env env') (hn : Kin.node w a a') :
    Run.Matched w Kin.value (P.node fuel env a) (Q.node fuel env' a') := by
  have eval {b b' : Node} (hb : Kin.node w b b') := matched_eval hP he hb
  have later {w₁ : Tables} (h₁ : w ≤ w₁) {b b' : Node} (hb : Kin.node w b b') :=
    matched_eval hP (Kin.env.mono h₁ he) (hb.later h₁)
  replace hn := Node.Alike.congr hn
  cases hn with
  | self s =>
      obtain ⟨scope, hs⟩ := he
      exact .pure hs
  | nil s => exact .pure .nil
  | int s i => exact .pure (.int i)
  | float s x => exact .pure (.float x)
  | bool s b => exact .pure (.bool b)
  | str s text => exact .newString text
  | symbol s hx => exact .pure (.sym hx)
  | array s h => exact (matched_evalAll hP he h).bind fun _ _ _ _ hvs => .newArray hvs
  | ident s hx => exact matched_bareName hP he s hx.1
  | instanceVar s hx =>
      obtain ⟨scope, hs⟩ := he
      exact .getVariable hs hx
  | const s hx =>
      exact (Run.Matched.view (R := Kin.value.except Kin.same) fun m n hw hmn =>
        hmn.constant (Tables.Spelled.mono hw hx)).bind fun _ _ _ _ h => .located s (.ofExcept h)
  | assign s ha hb =>
      exact (eval hb).bind fun w₁ h₁ v v' hv =>
        matched_assign hP (Kin.env.mono h₁ he) (Kin.node.mono h₁ ha) hv
  | and s ha hb =>
      refine (eval ha).bind fun w₁ h₁ v v' hv => ?_
      exact .ite (by rw [hv.truthy_eq]) (later h₁ hb) (.pure hv)
  | or s ha hb =>
      refine (eval ha).bind fun w₁ h₁ v v' hv => ?_
      exact .ite (by rw [hv.truthy_eq]) (.pure hv) (later h₁ hb)
  | not s ha =>
      refine (eval ha).bind fun w₁ h₁ v v' hv => ?_
      rw [hv.truthy_eq]
      exact .pure (.bool _)
  | stmts s h => exact .last (fun _ hw _ _ hn => matched_eval hP (Kin.env.mono hw he) hn) .nil h
  | cond s ha hb hc =>
      refine (eval ha).bind fun w₁ h₁ v v' hv => ?_
      exact .ite (by rw [hv.truthy_eq]) (later h₁ hb) (later h₁ hc)
  | loop s ha hb => exact .untilSome (matched_pass hP he ha hb) fuel
  | guarded s ha hr hb hc => exact matched_ensured hP he hc (matched_rescued hP he ha hr hb)
  | breakWith s ha =>
      refine (eval ha).bind fun w₁ h₁ v v' hv => ?_
      exact .fail ⟨.broke hv, rfl⟩
  | nextWith s ha =>
      refine (eval ha).bind fun w₁ h₁ v v' hv => ?_
      exact .fail ⟨.skipped hv, rfl⟩
  | returnWith s ha =>
      refine (eval ha).bind fun w₁ h₁ v v' hv => ?_
      exact .fail ⟨.returned hv, rfl⟩
  | methodDef s hx hp hb =>
      obtain ⟨scope, hs⟩ := he
      refine (matched_definitionClass hs).andThen fun w₁ h₁ c => ?_
      have hf : Kin.method w _ _ := .defined hx hp hb scope
      refine Run.Matched.andThen (.updateClasses fun _ hw valid _ _ h =>
        h.addMethod valid c (hf.later (h₁.trans hw))) fun w₂ h₂ _ => ?_
      exact .pure (.sym (Tables.Spelled.mono (h₁.trans h₂) hx))
  | singletonDef s ha hx hp hb =>
      obtain ⟨scope, hs⟩ := he
      exact matched_singletonDef hP (.mk scope hs) s ha (.defined hx hp hb scope)
  | classDef s hx hp ha => exact matched_classDef hP he s hx hp ha
  | send s hr hx h => exact matched_message hP he s hr hx h

/-! ### Calls -/

/-- **Parameters** are bound to values that correspond, in one order. -/
theorem matched_bindParams (he : Kin.env w env env') {ps ps' : List (Param Node)}
    (hp : Kin.params w ps ps') {args args' : List Value} (ha : Kin.values w args args') :
    Run.Matched w Kin.same (P.bindParams env ps args) (Q.bindParams env' ps' args') := by
  induction ps generalizing w ps' args args' with
  | nil =>
      cases hp
      exact .pure rfl
  | cons p ps ih =>
      obtain _ | ⟨⟨hn, hd⟩, hrest⟩ := hp
      obtain ⟨scope, hs⟩ := he
      -- What follows when the value of the first parameter is known.
      have rest : ∀ {w₁}, w ≤ w₁ → ∀ {v v' : Value} {vs vs' : List Value}, Kin.value w₁ v v' →
          Kin.values w₁ vs vs' → Run.Matched w₁ Kin.same
            (Run.setLocal scope _ v >>= fun _ => P.bindParams ⟨scope, _⟩ ps vs)
            (Run.setLocal scope _ v' >>= fun _ => Q.bindParams ⟨scope, _⟩ _ vs') :=
        fun h₁ _ _ _ _ hv hvs => (Run.Matched.setLocal scope (hn.1.mono h₁) hv).andThen
          fun _ h₂ _ => ih (.mk scope (hs.later (h₁.trans h₂)))
            (Kin.params.mono (h₁.trans h₂) hrest) (Kin.values.mono h₂ hvs)
      cases ha with
      | cons hv hvs => exact rest le_rfl hv hvs
      | nil =>
          cases hd with
          | none => exact rest le_rfl .nil .nil
          | some hd =>
              exact (matched_eval hP (.mk scope hs) hd).bind fun _ h₁ _ _ hv => rest h₁ hv .nil

/-- The body of a definition is evaluated in an environment that corresponds. -/
theorem matched_body (he : Kin.env w env env') (ha : Kin.node w a a') :
    Run.Matched w Kin.value (P.body env a) (Q.body env' a') := by
  refine (matched_eval hP he ha).catching (fun _ _ _ _ hv => .pure hv) fun _ _ f f' hf => ?_
  obtain ⟨signal, span?⟩ := f
  obtain ⟨signal', span?'⟩ := f'
  have whole := hf
  obtain ⟨hs, -⟩ := hf
  cases hs with
  | returned hv => exact .pure hv
  | broke hv | skipped hv => exact .fail (Failure.Alike.settle whole)
  | fault cause | raised hv => exact .fail whole

/-- What a method does goes side by side, if it tells no positions that may differ. -/
theorem matched_enter (fuel : Nat) {f f' : Method} (hf : Kin.method w f f')
    (quiet : f.TellsPositions → Comparison.sameTable) (hv : Kin.value w v v')
      {args args' : List Value}
    (ha : Kin.values w args args') :
    Run.Matched w Kin.value (P.enter fuel f v args) (Q.enter fuel f' v' args') := by
  cases hf with
  | native hn arity ho => exact Native.matched_run hP.invoke fuel ho quiet hv ha
  | defined hn hp hb scope =>
      refine (Run.Matched.openScope scope).andThen fun w₁ h₁ inner => ?_
      have he : Kin.env w₁ _ _ := .mk inner (hv.later h₁)
      refine (matched_bindParams hP he (Kin.params.mono h₁ hp) (Kin.values.mono h₁ ha)).andThen
        fun w₂ h₂ _ => ?_
      exact matched_body hP (he.later h₂) (Kin.node.mono (h₁.trans h₂) hb)

/-- **Calls end alike**, unless the method is called and tells positions that may differ. -/
theorem alike_call (fuel : Nat) {f f' : Method} {args args' : List Value} {m n : Machine}
    (hmn : m.Alike n) (hf : Kin.method (m.both n) f f') (hv : Kin.value (m.both n) v v')
    (ha : Kin.values (m.both n) args args')
    (quiet : f.TellsPositions ∧ f.Callable args m → Comparison.sameTable) :
    (P.call fuel f v args m).Alike Kin.value (m.both n) (Q.call fuel f' v' args' n) := by
  have count : args'.length = args.length := (List.Forall₂.length_eq ha).symm
  have failed : ∀ cause, Outcome.Alike Kin.value (m.both n) (.failed (.ofFault cause) m)
      (.failed (.ofFault cause) n) := fun cause => .failed le_rfl hmn (.ofFault cause)
  cases hc : f.arity.accepts args.length with
  | false =>
      rw [call_of_not_accepts P hc, call_of_not_accepts Q (by rwa [hf.arity_eq, count]),
        hf.arity_eq, count]
      exact failed _
  | true =>
      have hc' : f'.arity.accepts args'.length = true := by rwa [hf.arity_eq, count]
      by_cases hd : m.depth < maxDepth
      · rw [call_of_callable ⟨hc, hd⟩, call_of_callable ⟨hc', by rwa [hmn.depth]⟩]
        have enter := matched_enter hP fuel hf (fun tells => quiet ⟨tells, hc, hd⟩) hv ha
        exact enter.nested m n le_rfl hmn
      · rw [call_of_too_deep P hc hd, call_of_too_deep Q hc' (by rwa [hmn.depth])]
        exact failed _

/-- **A step** of tasks that are alike ends alike, unless it calls what tells positions that may
differ. -/
theorem alike_step (fuel : Nat) {task task' : Task} {m n : Machine} (hmn : m.Alike n)
    (ht : task.Alike (m.both n) task') (quiet : task.TellsPositions m → Comparison.sameTable) :
    (P.step fuel task m).Alike Kin.value (m.both n) (Q.step fuel task' n) := by
  cases ht with
  | eval hn he => exact matched_node hP fuel he hn m n le_rfl hmn
  | invoke hf hv ha => exact alike_call hP fuel hmn hf hv ha quiet

end parts

/-! ### Discreet moments -/

open Classical in
/-- Carry out tasks as before, but lose those from which a call that tells positions is reached. -/
noncomputable def discreetly (fuel : Nat) : Perform := fun task m =>
  if Moment.Discreet ⟨fuel, task, m⟩ then perform fuel task m
  else .halted { m with names := ⟨#[]⟩ }

omit [Comparison] in
/-- The loss of tasks that are not asked for is not noticed. -/
theorem eq_discreetly {passes : Failure → Prop} {α : Type} {F : Perform → Run α}
    (hF : Plan passes F) {fuel : Nat} {m : Machine}
    (h : ∀ task s, AsksFor F (perform fuel) m task s → Moment.Discreet ⟨fuel, task, s⟩) :
    F (discreetly fuel) m = F (perform fuel) m :=
  hF.eq_of_asks fun task s asks => if_pos (h task s asks)

omit [Comparison] in
/-- A table without names is not sound, as the first names are missing. -/
theorem not_sound_empty : ¬ (⟨#[]⟩ : NameTable).Sound := fun h => absurd h.first.size_le (by decide)

/-- Tasks that are not lost end alike, by induction on the fuel. -/
theorem matched_discreetly (fuel : Nat) : (discreetly fuel).Matched (perform fuel) := by
  induction fuel with
  | zero =>
      intro w task task' ht m n hw hmn
      rw [discreetly]
      split
      · cases ht <;> exact .halted le_rfl hmn
      · exact .lost not_sound_empty _
  | succ fuel ih =>
      intro w task task' ht m n hw hmn
      rw [discreetly]
      split
      case isTrue hd =>
        have same := eq_discreetly (plan_step fuel task) fun t s asks =>
          hd.of_asks (y := ⟨fuel, t, s⟩) ⟨rfl, asks⟩
        rw [perform_succ, perform_succ, ← same]
        exact alike_step ih fuel hmn (ht.mono hw) fun tells => (hd _ .refl tells).elim
      · exact .lost not_sound_empty _

/-- **What asks for discreet tasks only** ends alike, whatever else it does side by side. -/
theorem alike_of_discreet {passes : Failure → Prop} {α : Type} {R : Kin α}
    {F G : Perform → Run α} (hF : Plan passes F) {fuel : Nat} {m n : Machine}
    (h : ∀ task s, AsksFor F (perform fuel) m task s → Moment.Discreet ⟨fuel, task, s⟩)
    (hmn : m.Alike n) (both : ∀ P Q : Perform, P.Matched Q → Run.Matched (m.both n) R (F P) (G Q)) :
    (F (perform fuel) m).Alike R (m.both n) (G (perform fuel) n) := by
  rw [← eq_discreetly hF h]
  exact both _ _ (matched_discreetly fuel) m n le_rfl hmn

end Perform

/-! ### Telling whether a moment is discreet -/

instance : DecidablePred Method.TellsPositions
  | .native _ _ op => inferInstanceAs (Decidable op.TellsPositions)
  | .defined _ _ _ _ => .isFalse id

instance (m : Machine) : DecidablePred (Task.TellsPositions m)
  | .eval _ _ => .isFalse id
  | .invoke method _ args =>
    inferInstanceAs (Decidable (method.TellsPositions ∧
      method.arity.accepts args.length = true ∧ m.depth < maxDepth))

instance {σ ε α : Type} : DecidablePred (@Outcome.Ended σ ε α)
  | .done _ _ | .failed _ _ => .isTrue trivial
  | .halted _ => .isFalse id

/-- Carry out tasks as before, but halt where a call would tell positions. -/
def warily : Nat → Perform
  | 0 => fun _ => Action.exhaust
  | fuel + 1 => fun task m =>
    if task.TellsPositions m then .halted m else Perform.step fuel (warily fuel) task m

/-- One step of a wary machine stops before it tells a position. -/
theorem warily_succ (fuel : Nat) (task : Task) (m : Machine) : warily (fuel + 1) task m =
    if task.TellsPositions m then .halted m else Perform.step fuel (warily fuel) task m := rfl

/-- Tasks that are carried out warily to their end come to the same end as otherwise. -/
theorem warily_below (fuel : Nat) : Perform.Below (warily fuel) (perform fuel) := by
  induction fuel with
  | zero => exact fun task m hm => hm.elim
  | succ fuel ih =>
      intro task m hm
      rw [warily_succ] at hm ⊢
      split at hm
      · exact hm.elim
      · rw [if_neg ‹_›, perform_succ]
        exact (Perform.plan_step fuel task).refines ih m hm

/-- What ends although its tasks are carried out warily asks for tasks that end, too: one that halts
warily may as well halt otherwise, and then all would halt. -/
theorem ended_of_asks {passes : Failure → Prop} {α : Type} {F : Perform → Run α}
    (hF : Plan passes F) {fuel : Nat} {m s : Machine} {task : Task}
    (h : (F (warily fuel) m).Ended) (asks : AsksFor F (perform fuel) m task s) :
    (warily fuel task s).Ended := by
  by_contra halts
  have below : Perform.Below (warily fuel) (Perform.haltingAt (perform fuel) task s s) := by
    intro t n hn
    have other : ¬ (t = task ∧ n = s) := by
      rintro ⟨rfl, rfl⟩
      exact halts hn
    exact (Perform.haltingAt_of_ne _ s other).trans (warily_below fuel t n hn)
  have same := hF.refines below m h
  rw [asks s] at same
  rw [← same] at h
  exact h

/-- Whether the task of a moment ends when it is carried out warily. -/
def Moment.EndsWarily (x : Moment) : Prop := (warily x.fuel x.task x.machine).Ended

instance : DecidablePred Moment.EndsWarily := fun x =>
  inferInstanceAs (Decidable (warily x.fuel x.task x.machine).Ended)

/-- **A moment is discreet** if its task ends when it is carried out warily. -/
theorem Moment.EndsWarily.discreet {x : Moment} (h : x.EndsWarily) : x.Discreet := by
  obtain ⟨fuel, task, m⟩ := x
  induction fuel generalizing task m with
  | zero => exact h.elim
  | succ fuel ih =>
      rw [EndsWarily, warily_succ] at h
      split at h
      · exact h.elim
      · intro y reaches
        rcases Relation.ReflTransGen.cases_head reaches with rfl | ⟨⟨k, t, s⟩, asks, rest⟩
        · assumption
        · obtain ⟨hk, asks⟩ := asks
          obtain rfl : fuel = k := Nat.succ.inj hk
          exact ih t s (ended_of_asks (Perform.plan_step fuel task) h asks) y rest

end MiniRuby
