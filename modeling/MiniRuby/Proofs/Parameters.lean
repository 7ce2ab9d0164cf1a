import MiniRuby.Proofs.Evaluator.Locals
import MiniRuby.Proofs.Evaluator.Program
import MiniRuby.Proofs.Grammar.Built
import MiniRuby.Proofs.Jumps

/-!
# Parameters

A call counts the parameters of a method without a default to tell whether it has been given enough
arguments, wherever these parameters stand, and then hands out the arguments from the first
parameter on.  It is the reader that makes the two agree: the parameters of a definition that it has
read have names of their own, and those with a default come last.  So every parameter that the
arguments do not reach has a default, and is not just bound to nothing.

A default is evaluated where the body will be, so it may set the variables of parameters before it.
A parameter that the default of a later one sets does not hold its argument any more when the body
starts.  It is bound all the same, and it holds its argument if there is no such default.

* `Perform.Receives`: how parameters receive their values.
* `Perform.bindParams_outcome`: parameters receive their values, or a default gives none.
* `Perform.Receives.holds`: what parameters hold then.
* `parameters_bound`: what a call of a method does whose definition has been read.
-/

namespace MiniRuby

open Node (InRow)

/-! ### Parameters in a row -/

namespace Node

variable {params : List (Param Node)} {p : Param Node}

theorem InRow.nodup (h : InRow params) : (params.map (·.name)).Nodup :=
  List.pairwise_map.mpr (h.imp And.left)

/-- Parameters that as many arguments do not reach as are required have a default. -/
theorem InRow.isSome_default (h : InRow params) {i : Nat}
    (hi : (params.countP fun p => p.default?.isNone) ≤ i) (hp : params[i]? = some p) :
    p.default?.isSome = true := by
  induction params generalizing i with
  | nil => cases hp
  | cons q params ih =>
      obtain ⟨follows, row⟩ := List.pairwise_cons.mp h
      cases hq : q.default? with
      | none =>
          rw [List.countP_cons_of_pos (by simp [hq])] at hi
          obtain ⟨i, rfl⟩ : ∃ j, i = j + 1 := ⟨i - 1, by omega⟩
          exact ih row (by omega) hp
      | some node =>
          cases i with
          | zero =>
              cases hp
              simp [hq]
          | succ i => exact (follows p (List.mem_of_getElem? hp)).2 (by simp [hq])

end Node

/-! ### Receiving values -/

/-- The machine with a variable bound in the innermost frame of a scope. -/
def Machine.withLocal (m : Machine) (scope : Scope) (name : NameId) (v : Value) : Machine :=
  { m with frames := m.frames.set scope name v }

namespace Perform

/-- How parameters receive values, first to last: the arguments, and then what their own defaults
are evaluated to, each of them once and with the parameters before it bound.  Nothing else is
received. -/
inductive Receives (P : Perform) (env : Env) :
    List (Param Node) → List Value → Machine → List Value → Machine → Prop where
  | nil {m : Machine} : Receives P env [] [] m [] m
  | argument {p : Param Node} {params : List (Param Node)} {v : Value} {args values : List Value}
      {m m' : Machine}
      (rest : Receives P env params args (m.withLocal env.scope p.name v) values m') :
      Receives P env (p :: params) (v :: args) m (v :: values) m'
  | default {p : Param Node} {params : List (Param Node)} {node : Node} {v : Value}
      {values : List Value} {m m₁ m' : Machine} (own : p.default? = some node)
      (evaluated : P (.eval node env) m = .done v m₁)
      (rest : Receives P env params [] (m₁.withLocal env.scope p.name v) values m') :
      Receives P env (p :: params) [] m (v :: values) m'

variable {P : Perform} {env : Env} {params : List (Param Node)} {args values : List Value}
  {p : Param Node} {m m' : Machine} {i : Nat}

namespace Receives

theorem bindParams (h : Receives P env params args m values m') :
    P.bindParams env params args m = .done () m' := by
  induction h with
  | nil => rfl
  | argument rest ih => exact ih
  | default own evaluated rest ih =>
      rw [bindParams_default own, Action.bind_eq_andThen]
      change Outcome.andThen (P _ _) _ = _
      rw [evaluated]
      exact ih

/-- A parameter that the arguments reach receives its argument. -/
theorem given (h : Receives P env params args m values m') (hi : i < args.length) :
    values[i]? = args[i]? := by
  induction h generalizing i with
  | nil => rfl
  | argument rest ih =>
      cases i with
      | zero => rfl
      | succ i => exact ih (Nat.lt_of_succ_lt_succ hi)
  | default own evaluated rest ih => exact absurd hi (Nat.not_lt_zero i)

/-- A parameter that the arguments do not reach receives the value of its default, which is
evaluated when those before it have received theirs. -/
theorem own (h : Receives P env params args m values m') (hi : args.length ≤ i)
    (hp : params[i]? = some p) : ∃ node v m₁ m₂, p.default? = some node ∧
      Receives P env (params.take i) args m (values.take i) m₁ ∧
      P (.eval node env) m₁ = .done v m₂ ∧ values[i]? = some v := by
  induction h generalizing i with
  | nil => cases hp
  | argument rest ih =>
      obtain ⟨i, rfl⟩ : ∃ j, i = j + 1 := ⟨i - 1, by simp at hi; omega⟩
      obtain ⟨node, v, m₁, m₂, own, before, evaluated, value⟩ := ih (Nat.le_of_succ_le_succ hi) hp
      exact ⟨node, v, m₁, m₂, own, .argument before, evaluated, value⟩
  | default own evaluated rest ih =>
      cases i with
      | zero =>
          cases hp
          exact ⟨_, _, _, _, own, .nil, evaluated, rfl⟩
      | succ i =>
          obtain ⟨node, v, m₁, m₂, own', before, evaluated', value⟩ := ih (Nat.zero_le i) hp
          exact ⟨node, v, m₁, m₂, own', .default own evaluated before, evaluated', value⟩

end Receives

/-- Parameters receive their values, or the default of one does not evaluate to a value once those
before it have received theirs, and then nothing else is done. -/
theorem bindParams_outcome (hargs : args.length ≤ params.length)
    (hd : ∀ i p, args.length ≤ i → params[i]? = some p → p.default?.isSome = true) :
    (∃ values m', P.Receives env params args m values m') ∨
    ∃ i p node values m₁, args.length ≤ i ∧ params[i]? = some p ∧ p.default? = some node ∧
      P.Receives env (params.take i) args m values m₁ ∧
      (∀ v s, P (.eval node env) m₁ ≠ .done v s) ∧
      ∀ rest : Unit → Run Value,
        (P.bindParams env params args m).andThen rest = P (.eval node env) m₁ := by
  induction params generalizing args m with
  | nil =>
      obtain rfl := List.eq_nil_of_length_eq_zero (Nat.le_zero.mp hargs)
      exact .inl ⟨_, _, .nil⟩
  | cons p params ih =>
      cases args with
      | cons v args =>
          have later : ∀ i q, args.length ≤ i → params[i]? = some q → q.default?.isSome = true :=
            fun i q hi hq => hd (i + 1) q (Nat.succ_le_succ hi) hq
          rcases @ih args (m.withLocal env.scope p.name v) (Nat.le_of_succ_le_succ hargs) later with
            ⟨values, m', received⟩ | ⟨i, q, node, values, m₁, hi, hq, own, received, ends, same⟩
          · exact .inl ⟨_, m', .argument received⟩
          · exact .inr ⟨i + 1, q, node, v :: values, m₁, Nat.succ_le_succ hi, hq, own,
              .argument received, ends, same⟩
      | nil =>
          have later : ∀ i q, 0 ≤ i → params[i]? = some q → q.default?.isSome = true :=
            fun i q _ hq => hd (i + 1) q (Nat.zero_le _) hq
          obtain ⟨node, own⟩ := Option.isSome_iff_exists.mp (hd 0 p (Nat.le_refl 0) rfl)
          have unfolded : P.bindParams env (p :: params) [] m =
              (P (.eval node env) m).andThen fun v m =>
                P.bindParams env params [] (m.withLocal env.scope p.name v) := by
            rw [bindParams_default own, Action.bind_eq_andThen]
            rfl
          cases he : P (.eval node env) m with
          | done v m₁ =>
              rw [he] at unfolded
              rcases @ih [] (m₁.withLocal env.scope p.name v) (Nat.zero_le _) later with
                ⟨values, m', received⟩ |
                  ⟨i, q, node', values, m₂, hi, hq, own', received, ends, same⟩
              · exact .inl ⟨_, m', .default own he received⟩
              · exact .inr ⟨i + 1, q, node', v :: values, m₂, Nat.zero_le _, hq, own',
                  .default own he received, ends, fun rest => unfolded ▸ same rest⟩
          | failed f s | halted s =>
              refine .inr ⟨0, p, node, [], m, Nat.le_refl 0, rfl, own, .nil, ?_, fun rest => ?_⟩
              · rw [he]
                exact nofun
              · rw [unfolded, he]
                rfl

/-! ### What parameters hold -/

/-- Whether a variable is set by the default of a parameter that so many arguments do not reach. -/
def DefaultSets (params : List (Param Node)) (given : Nat) (x : NameId) : Prop :=
  ∃ q ∈ params.drop given, ∃ node, q.default? = some node ∧ x ∈ node.vars

/-- Whether parameters are bound in the frame at hand.  Each of them holds its value, unless it has
been set by the default of a later one. -/
def Holds (env : Env) (params : List (Param Node)) (given : Nat) (values : List Value)
    (m : Machine) : Prop :=
  ∀ i p, params[i]? = some p → ∃ held,
    (m.frames.frame env.scope.inner).get? p.name = some held ∧
      (¬ DefaultSets params (max (i + 1) given) p.name → values[i]? = some held)

/-- Binding a variable leaves the frame at hand where it is. -/
theorem withLocal_grows (name : NameId) (v : Value)
    (hm : env.scope.inner.index < m.frames.frames.size) :
    env.scope.inner.index < (m.withLocal env.scope name v).frames.frames.size ∧
      (m.frames.frame env.scope.inner).Grows (· = name)
        ((m.withLocal env.scope name v).frames.frame env.scope.inner) :=
  Run.Binds.setLocal (N := (· = name)) v rfl m hm

theorem defaultSets_cons {given : Nat} {x : NameId} :
    DefaultSets (p :: params) (max (i + 1) given) x ↔ DefaultSets params (max i (given - 1)) x := by
  rw [show max (i + 1) given = max i (given - 1) + 1 by omega]
  rfl

namespace Receives

/-- Receiving values binds the parameters, and what defaults set. -/
theorem grows (hP : P.Binding) (h : Receives P env params args m values m')
    (hm : env.scope.inner.index < m.frames.frames.size) :
    env.scope.inner.index < m'.frames.frames.size ∧
      (m.frames.frame env.scope.inner).Grows
        (fun x => x ∈ params.map (·.name) ∨ DefaultSets params args.length x)
        (m'.frames.frame env.scope.inner) := by
  induction h with
  | nil => exact ⟨hm, .refl _⟩
  | @argument p params v args values m m' rest ih =>
      obtain ⟨kept, bound⟩ := withLocal_grows p.name v hm
      obtain ⟨there, grown⟩ := ih kept
      refine ⟨there, .trans (bound.mono ?_) (grown.mono ?_)⟩
      · rintro _ rfl
        exact .inl (.head _)
      · exact fun x hx => hx.imp_left (.tail _)
  | @default p params node v values m m₁ m' own evaluated rest ih =>
      have evaluating := hP.binds node env m hm
      rw [evaluated] at evaluating
      obtain ⟨kept, bound⟩ := withLocal_grows p.name v evaluating.1
      obtain ⟨there, grown⟩ := ih kept
      refine ⟨there, .trans (evaluating.2.mono ?_) (.trans (bound.mono ?_) (grown.mono ?_))⟩
      · exact fun x hx => .inr ⟨p, .head _, node, own, hx⟩
      · rintro _ rfl
        exact .inl (.head _)
      · rintro x (hx | ⟨q, hq, hx⟩)
        · exact .inl (.tail _ hx)
        · exact .inr ⟨q, .tail _ hq, hx⟩

/-- What the first of some parameters holds when the others have received their values, and what
these hold. -/
theorem holds_cons (hP : P.Binding) {v : Value} {given : Nat} (hg : given - 1 = args.length)
    (h : Receives P env params args (m.withLocal env.scope p.name v) values m')
    (hm : env.scope.inner.index < m.frames.frames.size) (fresh : p.name ∉ params.map (·.name))
    (others : Holds env params args.length values m') :
    Holds env (p :: params) given (v :: values) m' := by
  have grown := (h.grows hP (withLocal_grows p.name v hm).1).2
  have here : ((m.withLocal env.scope p.name v).frames.frame env.scope.inner).get? p.name =
      some v := by
    rw [Machine.withLocal, FrameStore.frame_set, if_pos ⟨rfl, hm⟩, Bindings.get?_insert_self]
  rintro (_ | i) q hq
  · cases hq
    obtain ⟨held, bound⟩ := Option.isSome_iff_exists.mp (grown.bound p.name (by rw [here]; rfl))
    refine ⟨held, bound, fun unset => ?_⟩
    rw [defaultSets_cons, Nat.zero_max, hg] at unset
    exact here.symm.trans ((grown.kept _ (not_or.mpr ⟨fresh, unset⟩)).symm.trans bound)
  · obtain ⟨held, bound, same⟩ := others i q hq
    refine ⟨held, bound, fun unset => same ?_⟩
    rwa [defaultSets_cons, hg] at unset

/-- **What parameters hold** once they have received their values. -/
theorem holds (hP : P.Binding) (h : Receives P env params args m values m')
    (hm : env.scope.inner.index < m.frames.frames.size)
    (names : (params.map (·.name)).Nodup) : Holds env params args.length values m' := by
  induction h with
  | nil => exact nofun
  | @argument p params v args values m m' rest ih =>
      obtain ⟨fresh, names⟩ := List.nodup_cons.mp names
      exact rest.holds_cons hP rfl hm fresh (ih (withLocal_grows p.name v hm).1 names)
  | @default p params node v values m m₁ m' own evaluated rest ih =>
      obtain ⟨fresh, names⟩ := List.nodup_cons.mp names
      have hm₁ := (hP.binds node env m hm).1
      rw [evaluated] at hm₁
      exact rest.holds_cons hP rfl hm₁ fresh (ih (withLocal_grows p.name v hm₁).1 names)

end Receives

end Perform

/-! ### Definitions -/

/-- Whether a tree defines a method somewhere, for the instances of a class or for a class alone. -/
def Node.Defines (tree : Node) (name : NameId) (params : List (Param Node)) (body : Node) : Prop :=
  (∃ place, .methodDef place name params body ∈ tree.preorder) ∨
    ∃ place target, .singletonDef place target name params body ∈ tree.preorder

/-- The parameters of a definition that has been read are in a row. -/
theorem inRow_of_parse {path text : String} {m m' : Machine} {tree : Node}
    (h : Session.parse path text m = .done tree m') {name : NameId} {params : List (Param Node)}
    {body : Node} (hd : tree.Defines name params body) : InRow params := by
  have built := built_of_parse (fun _ => True) h trivial (fun _ _ _ _ => trivial) (.refl _)
  rcases hd with ⟨place, hmem⟩ | ⟨place, target, hmem⟩
  · exact (built _ hmem).declares
  · exact (built _ hmem).declares

/-! ### Calls -/

namespace Method

theorem accepts_arityOf {params : List (Param Node)} {n : Nat} :
    (arityOf params).accepts n = true ↔
      (params.countP fun p => p.default?.isNone) ≤ n ∧ n ≤ params.length := by
  rw [Arity.accepts_iff]
  simp [arityOf, Arity.between]

end Method

theorem Outcome.leave_eq_done {ε α : Type} {o : Outcome Machine ε α} {a : α} {m : Machine}
    (h : o.leave = .done a m) : ∃ m', o = .done a m' := by
  cases o <;> cases h
  exact ⟨_, rfl⟩

/-- The frame of a call is new and empty, and lies inside the scope of the method. -/
theorem Machine.entry_fresh (m : Machine) (scope : Scope) (receiver : Value) :
    (m.entry scope receiver).scope.path = ⟨m.frames.frames.size⟩ :: scope.path ∧
      ((m.entered scope).frames.frame ⟨m.frames.frames.size⟩) = .empty := by
  refine ⟨rfl, ?_⟩
  simp [entered, FrameStore.child, FrameStore.frame]

/-- How the parameters of a method stand when they have received their values. -/
structure Prepared (fuel : Nat) (env : Env) (params : List (Param Node)) (args : List Value)
    (m : Machine) (values : List Value) (m' : Machine) : Prop where
  receives : Perform.Receives (perform fuel) env params args m values m'
  /-- Arguments are handed out in order. -/
  given : ∀ i < args.length, values[i]? = args[i]?
  /-- A default is evaluated where the parameters before it are bound. -/
  own : ∀ i p, args.length ≤ i → params[i]? = some p → ∃ node v m₁ m₂, p.default? = some node ∧
    Perform.Receives (perform fuel) env (params.take i) args m (values.take i) m₁ ∧
    Perform.Holds env (params.take i) args.length (values.take i) m₁ ∧
    perform fuel (.eval node env) m₁ = .done v m₂ ∧ values[i]? = some v
  holds : Perform.Holds env params args.length values m'

theorem Perform.Receives.prepared {fuel : Nat} {env : Env} {params : List (Param Node)}
    {args values : List Value} {m m' : Machine}
    (h : Perform.Receives (perform fuel) env params args m values m')
    (hm : env.scope.inner.index < m.frames.frames.size)
    (names : (params.map (·.name)).Nodup) : Prepared fuel env params args m values m' := by
  have binding : Perform.Binding (perform fuel) := ⟨perform_keepsFrames fuel, perform_binds fuel⟩
  refine ⟨h, fun i => h.given, fun i p hi hp => ?_, h.holds binding hm names⟩
  obtain ⟨node, v, m₁, m₂, own, before, evaluated, value⟩ := h.own hi hp
  have distinct : ((params.take i).map (·.name)).Nodup :=
    names.sublist ((List.take_sublist i params).map _)
  exact ⟨node, v, m₁, m₂, own, before, before.holds binding hm distinct, evaluated, value⟩

/-- **Parameters are bound as declared.**  A method whose definition has been read refuses a number
of arguments exactly if it is less than that of the parameters without a default, or more than that
of all parameters.  Otherwise, if calls are not nested too deeply, its parameters receive their
values in a new frame inside the scope of the definition, where the receiver is self: the arguments,
and then what their own defaults are evaluated to, once and from left to right, with the parameters
before them bound.  Then the body is evaluated, unless a default gives no value, and this ends the
call.  No two parameters have the same name, none is without a value, and each holds its value when
the body starts, unless the default of a later parameter has set it. -/
theorem parameters_bound {path text : String} {tree : Node} {m₀ m₁ : Machine}
    (hp : Session.parse path text m₀ = .done tree m₁) {name : NameId}
    {params : List (Param Node)} {body : Node} (hd : tree.Defines name params body)
    (fuel : Nat) (scope : Scope) (receiver : Value) (args : List Value) (m : Machine) :
    let required := params.countP fun p => p.default?.isNone
    let outcome := perform (fuel + 1) (.invoke (.defined name params body scope) receiver args) m
    let env := m.entry scope receiver
    (params.map (·.name)).Nodup ∧
    (args.length < required ∨ params.length < args.length →
      ∃ f : Fault, f.kind = .argument ∧ outcome = .failed (.ofFault f) m) ∧
    (required ≤ args.length → args.length ≤ params.length → maxDepth ≤ m.depth →
      outcome = .failed (.ofFault .tooDeep) m) ∧
    (required ≤ args.length → args.length ≤ params.length → m.depth < maxDepth →
      env.self = receiver ∧ env.scope.path = ⟨m.frames.frames.size⟩ :: scope.path ∧
      (m.entered scope).frames.frame ⟨m.frames.frames.size⟩ = .empty ∧
      ((∃ values m', Prepared fuel env params args (m.entered scope) values m' ∧
          outcome = (Perform.body (perform fuel) env body m').leave) ∨
        ∃ i p node values m', args.length ≤ i ∧ params[i]? = some p ∧ p.default? = some node ∧
          Prepared fuel env (params.take i) args (m.entered scope) values m' ∧
          (∀ v s, perform fuel (.eval node env) m' ≠ .done v s) ∧
          outcome = (perform fuel (.eval node env) m').leave)) := by
  intro required outcome env
  have row := inRow_of_parse hp hd
  have accepts := @Method.accepts_arityOf params args.length
  have step : outcome = Perform.call fuel (perform fuel) (.defined name params body scope) receiver
    args m := rfl
  refine ⟨row.nodup, fun refused => ?_, fun enough few deep => ?_, fun enough few deep => ?_⟩
  · have other : (Method.arityOf params).accepts args.length = false :=
      Bool.eq_false_iff.mpr fun h => by have := accepts.mp h; omega
    exact ⟨_, rfl, Perform.call_of_not_accepts (perform fuel) other⟩
  · exact Perform.call_of_too_deep (perform fuel) (accepts.mpr ⟨enough, few⟩) (Nat.not_lt.mpr deep)
  · have callable : (Method.defined name params body scope).Callable args m :=
      ⟨accepts.mpr ⟨enough, few⟩, deep⟩
    obtain ⟨path, fresh⟩ := m.entry_fresh scope receiver
    have here : env.scope.inner.index < (m.entered scope).frames.frames.size := by
      simp [env, Machine.entry, Machine.entered, FrameStore.child]
    refine ⟨rfl, path, fresh, ?_⟩
    have defaults : ∀ i p, args.length ≤ i → params[i]? = some p → p.default?.isSome = true :=
      fun i p hi => row.isSome_default (Nat.le_trans enough hi)
    have received := @Perform.bindParams_outcome (perform fuel) env params args (m.entered scope)
      few defaults
    rcases received with
      ⟨values, m', received⟩ | ⟨i, p, node, values, m', hi, hp, own, received, ends, same⟩
    · refine .inl ⟨values, m', received.prepared here row.nodup, ?_⟩
      exact (perform_defined callable).trans (by rw [received.bindParams]; rfl)
    · have distinct : ((params.take i).map (·.name)).Nodup :=
        row.nodup.sublist ((List.take_sublist i params).map _)
      refine .inr ⟨i, p, node, values, m', hi, hp, own, received.prepared here distinct, ends, ?_⟩
      exact (perform_defined callable).trans (congrArg Outcome.leave (same _))

/-- The definition of a method with two parameters, if it is the only statement of a program. -/
def Node.soleDefinition? : Node → Option (NameId × Param Node × Param Node × Node)
  | .stmts _ [.methodDef _ name [p, q] body] => some (name, p, q, body)
  | _ => none

theorem Node.defines_of_soleDefinition? {tree body : Node} {name : NameId} {p q : Param Node}
    (h : tree.soleDefinition? = some (name, p, q, body)) : tree.Defines name [p, q] body := by
  unfold soleDefinition? at h
  split at h
  · cases h
    exact .inl ⟨_, .tail _ (.head _)⟩
  · cases h

/-- A default that refers to the parameter before it. -/
theorem parameters_bound_earlier : ∃ tree m name p q body values m',
    Session.parse "" "def f(a, b = a)\nb\nend" (.bare (.collecting "")) = .done tree m ∧
    tree.Defines name [p, q] body ∧
    Prepared 4 (m.entry .top .main) [p, q] [.int 1] (m.entered .top) values m' ∧
    perform 5 (.invoke (.defined name [p, q] body .top) .main [.int 1]) m =
      (Perform.body (perform 4) (m.entry .top .main) body m').leave := by
  have reads : (Session.parse "" "def f(a, b = a)\nb\nend" (.bare (.collecting ""))).DoneWith
      fun tree m => m.depth < maxDepth ∧ ∃ d ∈ tree.soleDefinition?,
        ([d.2.1, d.2.2.1].countP fun p => p.default?.isNone) = 1 ∧
        (perform 5 (.invoke (.defined d.1 [d.2.1, d.2.2.1] d.2.2.2 .top) .main [.int 1])
          m).DoneWith fun v _ => v.identical (.int 1) = true := by
    decide +kernel
  obtain ⟨tree, m, hp, deep, ⟨name, p, q, body⟩, hd, required, runs⟩ := reads.exists_eq
  have defines := Node.defines_of_soleDefinition? hd
  obtain ⟨v, s, gives, -⟩ := runs.exists_eq
  obtain ⟨-, -, -, bound⟩ := parameters_bound hp defines 4 .top .main [.int 1] m
  obtain ⟨-, -, -, called⟩ := bound (Nat.le_of_eq required) (Nat.le_succ 1) deep
  rcases called with
    ⟨values, m', prepared, goes⟩ | ⟨i, r, node, values, m', -, -, -, -, ends, goes⟩
  · exact ⟨tree, m, name, p, q, body, values, m', hp, defines, prepared, goes⟩
  · -- The call ends with a value, so the default does.
    obtain ⟨s', evaluated⟩ := Outcome.leave_eq_done (goes.symm.trans gives)
    exact absurd evaluated (ends v s')

/-- A default that sets the parameter before it: this does not hold its argument any more when the
body starts. -/
theorem parameter_overwritten : ∃ tree m name p q body m' held,
    Session.parse "" "def f(a, b = (a = 5))\na\nend" (.bare (.collecting "")) = .done tree m ∧
    tree.Defines name [p, q] body ∧
    Perform.bindParams (perform 4) (m.entry .top .main) [p, q] [.int 1] (m.entered .top) =
      .done () m' ∧
    perform 5 (.invoke (.defined name [p, q] body .top) .main [.int 1]) m =
      (Perform.body (perform 4) (m.entry .top .main) body m').leave ∧
    (m'.frames.frame (m.entry .top .main).scope.inner).get? p.name = some held ∧
    held.identical (.int 1) = false := by
  have reads : (Session.parse "" "def f(a, b = (a = 5))\na\nend"
      (.bare (.collecting ""))).DoneWith fun tree m => m.depth < maxDepth ∧
        ∃ d ∈ tree.soleDefinition?,
          ([d.2.1, d.2.2.1].countP fun p => p.default?.isNone) = 1 ∧
          (Perform.bindParams (perform 4) (m.entry .top .main) [d.2.1, d.2.2.1] [.int 1]
            (m.entered .top)).DoneWith fun _ m' =>
              ((m'.frames.frame (m.entry .top .main).scope.inner).get? d.2.1.name).any
                (!·.identical (.int 1)) = true := by
    decide +kernel
  obtain ⟨tree, m, hp, deep, ⟨name, p, q, body⟩, hd, required, runs⟩ := reads.exists_eq
  obtain ⟨⟨⟩, m', bound, other⟩ := runs.exists_eq
  obtain ⟨held, here, other⟩ := (Option.any_eq_true _ _).mp other
  have callable : (Method.defined name [p, q] body .top).Callable [.int 1] m :=
    ⟨Method.accepts_arityOf.mpr ⟨Nat.le_of_eq required, Nat.le_succ 1⟩, deep⟩
  refine ⟨tree, m, name, p, q, body, m', held, hp, Node.defines_of_soleDefinition? hd, bound, ?_,
    here, by simpa using other⟩
  exact (perform_defined callable).trans (congrArg (fun o => (Outcome.andThen o _).leave) bound)

end MiniRuby
