import MiniRuby.Proofs.Evaluator.Reach

/-!
# A construct asks for its parts

Evaluating a node leads to calls and to the evaluation of smaller nodes, in whatever environment
(`Node.lt_of_asks`).  For what other nodes evaluate to does not matter to it (`Perform.node_congr`).
-/

namespace MiniRuby

namespace Action

variable {σ ε α β : Type}

theorem each_congr {f g : α → Action σ ε β} {as : List α} (h : ∀ a ∈ as, f a = g a) :
    each f as = each g as := by
  induction as with
  | nil => rfl
  | cons a as ih =>
      rw [each_cons, each_cons, h a (.head _), ih fun a' ha' => h a' (.tail _ ha')]

theorem last_congr {f g : α → Action σ ε β} {as : List α} (h : ∀ a ∈ as, f a = g a) (b : β) :
    last f b as = last g b as := by
  induction as generalizing b with
  | nil => rfl
  | cons a as ih =>
      rw [last_cons, last_cons, h a (.head _)]
      exact congrArg _ (funext fun b => ih (fun a' ha' => h a' (.tail _ ha')) b)

end Action

/-- Whether two ways of carrying out tasks agree on calls, and on the evaluation of nodes below a
size. -/
structure Perform.Agree (size : Nat) (P Q : Perform) : Prop where
  invoke : P.invoke = Q.invoke
  eval : ∀ node : Node, sizeOf node < size → ∀ env, P.eval env node = Q.eval env node

namespace Perform

variable {P Q : Perform} {size : Nat} (h : Agree size P Q) (env : Env)

include h

theorem Agree.evalAll (nodes : List Node) (hn : sizeOf nodes < size) :
    Action.each (P.eval env) nodes = Action.each (Q.eval env) nodes :=
  Action.each_congr fun n hmem =>
    h.eval n (Nat.lt_trans (List.sizeOf_lt_of_mem hmem) hn) env

theorem send_congr (place : Span) {receiver? : Option Node} (name : NameId) {args : List Node}
    (hr : ∀ r, receiver? = some r → sizeOf r < size) (ha : sizeOf args < size) :
    P.send env place receiver? name args = Q.send env place receiver? name args := by
  cases receiver? with
  | none => simp only [send, h.evalAll env args ha, h.invoke]
  | some r => simp only [send, h.eval r (hr r rfl) env, h.evalAll env args ha, h.invoke]

theorem assign_congr (target : Node) (ht : sizeOf target < size) (v : Value) :
    P.assign env target v = Q.assign env target v := by
  cases target with
  | send place receiver? name args =>
      cases receiver? with
      | none => rfl
      | some r =>
          simp only [Node.send.sizeOf_spec, Option.some.sizeOf_spec] at ht
          have hr : sizeOf r < size := by omega
          have ha : sizeOf args < size := by omega
          simp only [assign, h.eval r hr env, h.evalAll env args ha, h.invoke]
  | _ => rfl

theorem pass_congr {test body : Node} (ht : sizeOf test < size) (hb : sizeOf body < size) :
    P.pass env test body = Q.pass env test body := by
  simp only [pass, h.eval test ht env, h.eval body hb env]

theorem findRescue_congr (c : ClassId) {clauses : List (RescueClause Node)}
    (hc : sizeOf clauses < size) : P.findRescue env c clauses = Q.findRescue env c clauses := by
  induction clauses with
  | nil => rfl
  | cons clause clauses ih =>
      obtain ⟨classes, binder?, body⟩ := clause
      simp only [List.cons.sizeOf_spec, RescueClause.mk.sizeOf_spec] at hc
      have named : Action.each (P.rescueClass env) classes =
          Action.each (Q.rescueClass env) classes := by
        refine Action.each_congr fun n hn => ?_
        have hlt := List.sizeOf_lt_of_mem hn
        simp only [rescueClass, h.eval n (by omega) env]
      simp only [findRescue, named, ih (by omega)]

theorem handle_congr {clause : RescueClause Node} (hc : sizeOf clause < size) (e : Value) :
    P.handle env clause e = Q.handle env clause e := by
  obtain ⟨classes, binder?, body⟩ := clause
  simp only [RescueClause.mk.sizeOf_spec] at hc
  simp only [handle, h.eval body (by omega) env]

theorem rescued_congr (body : Node) (clauses : List (RescueClause Node)) (otherwise : Node)
    (hb : sizeOf body < size) (hc : sizeOf clauses < size) (ho : sizeOf otherwise < size) :
    P.rescued env body clauses otherwise = Q.rescued env body clauses otherwise := by
  simp only [rescued, h.eval body hb env, h.eval otherwise ho env]
  refine bind_congr fun r => ?_
  rcases r with ⟨signal, place?⟩ | v
  · cases signal with
    | raised e =>
        refine bind_congr fun r => bind_congr fun c => ?_
        rw [findRescue_congr h env c hc]
        funext m
        simp only [Action.bind_apply]
        cases hm : Q.findRescue env c clauses m with
        | done found s =>
            cases found with
            | none => rfl
            | some clause =>
                have hlt := List.sizeOf_lt_of_mem (mem_of_findRescue hm clause rfl)
                exact congrFun (handle_congr h env (Nat.lt_trans hlt hc) e) s
        | failed g s => rfl
        | halted s => rfl
    | _ => rfl
  · rfl

theorem ensured_congr (cleanup : Node) (hc : sizeOf cleanup < size) (x : Run Value) :
    P.ensured env cleanup x = Q.ensured env cleanup x := by
  simp only [ensured, h.eval cleanup hc env]

theorem classDef_congr (place : Span) (name : NameId) {parent? : Option Node} {body : Node}
    (hp : ∀ p, parent? = some p → sizeOf p < size) (hb : sizeOf body < size) :
    P.classDef env place name parent? body = Q.classDef env place name parent? body := by
  cases parent? with
  | none => simp only [classDef, h.eval body hb]
  | some p => simp only [classDef, parentClass, h.eval p (hp p rfl) env, h.eval body hb]

theorem singletonDef_congr (place : Span) {target : Node} (ht : sizeOf target < size)
    (method : Method) :
    P.singletonDef env place target method = Q.singletonDef env place target method := by
  simp only [singletonDef, h.eval target ht env]

omit h in
/-- **Only calls and smaller nodes matter** to what a node evaluates to. -/
theorem node_congr (fuel : Nat) {node : Node} (h : Agree (sizeOf node) P Q) :
    P.node fuel env node = Q.node fuel env node := by
  cases node with
  | self | nil | int | float | bool | str | symbol | instanceVar | const | methodDef => rfl
  | ident place name => simp only [Perform.node, bareName, h.invoke]
  | array place nodes =>
      have elements := h.evalAll env nodes (by simp +arith)
      simp only [Perform.node, elements]
  | assign place target value =>
      have assigned := fun v => assign_congr h env target (by simp +arith) v
      simp only [Perform.node, h.eval value (by simp +arith) env, assigned]
  | and place left right | or place left right =>
      simp only [Perform.node, h.eval left (by simp +arith) env, h.eval right (by simp +arith) env]
  | not place operand => simp only [Perform.node, h.eval operand (by simp +arith) env]
  | stmts place nodes =>
      refine Action.last_congr (fun n hn => h.eval n ?_ env) .nil
      have hlt := List.sizeOf_lt_of_mem hn
      simp only [Node.stmts.sizeOf_spec]
      omega
  | cond place test yes no =>
      simp only [Perform.node, h.eval test (by simp +arith) env, h.eval yes (by simp +arith) env,
        h.eval no (by simp +arith) env]
  | loop place test body =>
      exact congrArg (Action.untilSome · fuel)
        (pass_congr h env (by simp +arith) (by simp +arith))
  | guarded place body clauses otherwise cleanup =>
      have guarded := rescued_congr h env body clauses otherwise
        (by simp +arith) (by simp +arith) (by simp +arith)
      have cleaned := fun x => ensured_congr h env cleanup (by simp +arith) x
      simp only [Perform.node, guarded, cleaned]
  | breakWith place value | nextWith place value | returnWith place value =>
      simp only [Perform.node, h.eval value (by simp +arith) env]
  | singletonDef place target name params body =>
      exact singletonDef_congr h env place (by simp +arith) _
  | classDef place name parent? body =>
      refine classDef_congr h env place name (fun p hp => ?_) (by simp +arith)
      simp only [hp, Node.classDef.sizeOf_spec, Option.some.sizeOf_spec]
      omega
  | send place receiver? name args =>
      refine send_congr h env place name (fun r hr => ?_) (by simp +arith)
      simp only [hr, Node.send.sizeOf_spec, Option.some.sizeOf_spec]
      omega

end Perform

/-- **A construct asks for smaller nodes only.** -/
theorem Node.lt_of_asks {fuel : Nat} {node n : Node} {env env' : Env} {P : Perform}
    {m s : Machine}
    (h : AsksFor (fun perform => perform.step fuel (.eval node env)) P m (.eval n env') s) :
    sizeOf n < sizeOf node := by
  by_contra hn
  -- Halting the evaluation of a node that is not smaller changes nothing.
  have same : ∀ mark, P.step fuel (.eval node env) m = .halted mark := by
    intro mark
    have agree : Perform.Agree (sizeOf node) (P.haltingAt (.eval n env') s mark) P := by
      refine ⟨?_, fun node' hlt env₁ => ?_⟩
      · funext method receiver args m'
        exact P.haltingAt_of_ne mark fun e => by cases e.1
      · funext m'
        refine P.haltingAt_of_ne mark fun e => ?_
        cases e.1
        exact hn hlt
    have eq := congrFun (Perform.node_congr env fuel agree) m
    exact eq.symm.trans (h mark)
  exact Outcome.not_forall_halted m same

end MiniRuby
