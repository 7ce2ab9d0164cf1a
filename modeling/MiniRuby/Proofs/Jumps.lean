import MiniRuby.Boot
import MiniRuby.Proofs.Evaluator.Reach

/-!
# Jumps out of calls

`return` ends the call of a method whose body it stands in, and a `break` or `next` that no loop
has caught there is a fault.  This is so because a call looks at how the body has ended.  It does
not look at how the defaults of parameters have ended: these are evaluated before, and a jump in
one of them leaves the call as it is.  A native method lets it pass, too.

* `Perform.bindParams_eq_failed_iff`: binding parameters fails as one of the defaults does.
* `Perform.body_ne_jump`: evaluating a body does not jump.
* `jump_leaves_call_iff`: a call jumps exactly if it leaks a jump, that is, out of a default or
  through native methods from a call that does; and once the parameters are bound, `return` gives
  the value of the call and the other jumps are faults.
-/

namespace MiniRuby

/-- A jump leaves a call: out of the default of a parameter, which is evaluated when the parameters
before it have been bound, or out of a call that a native method asks for. -/
inductive Moment.Leaks (f : Failure) : Moment → Prop where
  | default {fuel : Nat} {name : NameId} {before after : List (Param Node)} {p : Param Node}
      {body node : Node} {scope : Scope} {receiver : Value} {args : List Value}
      {m m₁ m₂ : Machine}
      (callable : (Method.defined name (before ++ p :: after) body scope).Callable args m)
      (missing : args.length ≤ before.length) (default : p.default? = some node)
      (bound : Perform.bindParams (perform fuel) (m.entry scope receiver) before args
        (m.entered scope) = .done () m₁)
      (jumps : perform fuel (.eval node (m.entry scope receiver)) m₁ = .failed f m₂) :
      Leaks f ⟨fuel + 1, .invoke (.defined name (before ++ p :: after) body scope) receiver args, m⟩
  | native {fuel : Nat} {name : NameId} {arity : Arity} {op : Native} {receiver : Value}
      {args : List Value} {m : Machine} {y : Moment}
      (asks : Asks ⟨fuel + 1, .invoke (.native name arity op) receiver args, m⟩ y)
      (leaks : Leaks f y) :
      Leaks f ⟨fuel + 1, .invoke (.native name arity op) receiver args, m⟩

/-! ### Parameters and bodies -/

namespace Perform

variable {P : Perform} {env : Env} {m m' : Machine} {f : Failure}

/-- Parameters are bound one after the other. -/
theorem bindParams_append (before after : List (Param Node)) (args : List Value) :
    P.bindParams env (before ++ after) args = (do
      P.bindParams env before args
      P.bindParams env after (args.drop before.length)) := by
  induction before generalizing args with
  | nil => rfl
  | cons p before ih =>
      cases args with
      | cons v args => simp [bindParams, ih]
      | nil => cases hd : p.default? <;> simp [bindParams, hd, ih]

theorem bindParams_default {p : Param Node} {node : Node} (h : p.default? = some node)
    (params : List (Param Node)) :
    P.bindParams env (p :: params) [] = (do
      let v ← P.eval env node
      Run.setLocal env.scope p.name v
      P.bindParams env params []) := by
  simp only [bindParams, h]

/-- Binding parameters fails as one of the defaults does, after those before it are bound. -/
theorem bindParams_eq_failed_iff (params : List (Param Node)) (args : List Value) (m : Machine) :
    P.bindParams env params args m = .failed f m' ↔
      ∃ before p after node m₁, params = before ++ p :: after ∧ args.length ≤ before.length ∧
        p.default? = some node ∧ P.bindParams env before args m = .done () m₁ ∧
        P (.eval node env) m₁ = .failed f m' := by
  constructor
  · intro h
    induction params generalizing args m with
    | nil => cases h
    | cons p params ih =>
        cases args with
        | cons v args =>
            obtain ⟨before, q, after, node, m₁, rfl, hlen, hd, hb, he⟩ := ih args _ h
            exact ⟨p :: before, q, after, node, m₁, rfl, Nat.succ_le_succ hlen, hd, hb, he⟩
        | nil =>
            cases hd : p.default? with
            | none =>
                simp only [bindParams, hd] at h
                obtain ⟨before, q, after, node, m₁, rfl, -, hq, hb, he⟩ := ih [] _ h
                refine ⟨p :: before, q, after, node, m₁, rfl, Nat.zero_le _, hq, ?_, he⟩
                simp only [bindParams, hd]
                exact hb
            | some node =>
                rw [bindParams_default hd, Action.bind_eq_andThen] at h
                cases hx : P.eval env node m with
                | failed f₁ m₁ =>
                    rw [hx] at h
                    cases h
                    exact ⟨[], p, params, node, m, rfl, Nat.le_refl _, hd, rfl, hx⟩
                | halted m₁ =>
                    rw [hx] at h
                    cases h
                | done v m₁ =>
                    rw [hx] at h
                    obtain ⟨before, q, after, node', m₂, rfl, -, hq, hb, he⟩ := ih [] _ h
                    refine ⟨p :: before, q, after, node', m₂, rfl, Nat.zero_le _, hq, ?_, he⟩
                    rw [bindParams_default hd, Action.bind_eq_andThen, hx]
                    exact hb
  · rintro ⟨before, p, after, node, m₁, rfl, hlen, hd, hb, he⟩
    rw [bindParams_append, List.drop_eq_nil_of_le hlen, bindParams_default hd,
      Action.bind_eq_andThen, hb]
    change (P.eval env node m₁).andThen _ = _
    rw [show P.eval env node m₁ = .failed f m' from he]
    rfl

/-- What a call makes of how the body has failed. -/
theorem body_of_failed {node : Node} (h : P (.eval node env) m = .failed f m') :
    P.body env node m = match f.signal with
      | .returned v => .done v m'
      | .broke _ | .skipped _ => .failed f.settle m'
      | .fault _ | .raised _ => .failed f m' := by
  rw [body, Action.attempt_bind_eq_andCatch, show P.eval env node m = .failed f m' from h]
  obtain ⟨signal, place?⟩ := f
  cases signal <;> rfl

/-- Evaluating the body of a method does not jump. -/
theorem body_ne_jump {node : Node} (h : P.body env node m = .failed f m') :
    ¬ f.signal.IsJump := by
  cases hx : P (.eval node env) m with
  | done v s =>
      rw [body, Action.attempt_bind_eq_andCatch, show P.eval env node m = .done v s from hx] at h
      cases h
  | halted s =>
      rw [body, Action.attempt_bind_eq_andCatch, show P.eval env node m = .halted s from hx] at h
      cases h
  | failed g s =>
      obtain ⟨signal, place?⟩ := g
      rw [body_of_failed hx] at h
      cases signal <;> cases h <;> exact id

end Perform

/-! ### Calls -/

/-- A native method jumps exactly as a call that it asks for does. -/
theorem Calls.eq_jump_iff {endless : Prop} {α : Type} {F : Invoke → Run α}
    (hF : Calls endless F) {P : Perform}
    {f : Failure} (hf : f.signal.IsJump) (m m' : Machine) :
    F P.invoke m = .failed f m' ↔ ∃ method receiver args m₁,
      AsksFor (fun perform => F perform.invoke) P m (.invoke method receiver args) m₁ ∧
        P (.invoke method receiver args) m₁ = .failed f m' := by
  induction hF generalizing m with
  | quiet hx =>
      refine ⟨fun h => (hx.signal m f m' h hf).elim, ?_⟩
      rintro ⟨method, receiver, args, m₁, h, -⟩
      exact (Plan.not_asks_own h).elim
  | exhaust he =>
      refine ⟨nofun, ?_⟩
      rintro ⟨method, receiver, args, m₁, h, -⟩
      exact (Plan.not_asks_own h).elim
  | call method receiver args =>
      refine ⟨fun h => ⟨method, receiver, args, m, Plan.asks_ask_iff.mpr ⟨rfl, rfl⟩, h⟩, ?_⟩
      rintro ⟨method', receiver', args', m₁, h, e⟩
      obtain ⟨same, rfl⟩ := Plan.asks_ask_iff.mp h
      cases same
      exact e
  | @bind α β F G hF hG ihF ihG =>
      have asks : ∀ {task s}, AsksFor (fun perform => F perform.invoke >>= fun a =>
          G a perform.invoke) P m task s ↔ AsksFor (fun perform => F perform.invoke) P m task s ∨
            ∃ a m₁, F P.invoke m = .done a m₁ ∧
              AsksFor (fun perform => G a perform.invoke) P m₁ task s :=
        Plan.asks_bind_iff hF.plan
      constructor
      · intro h
        change (F P.invoke m).andThen (fun a => G a P.invoke) = _ at h
        cases hx : F P.invoke m with
        | done a m₁ =>
            rw [hx] at h
            obtain ⟨method, receiver, args, m₂, h₂, e₂⟩ := (ihG a m₁).mp h
            exact ⟨method, receiver, args, m₂, asks.mpr (.inr ⟨a, m₁, hx, h₂⟩), e₂⟩
        | failed g m₁ =>
            rw [hx] at h
            cases h
            obtain ⟨method, receiver, args, m₂, h₂, e₂⟩ := (ihF m).mp hx
            exact ⟨method, receiver, args, m₂, asks.mpr (.inl h₂), e₂⟩
        | halted m₁ =>
            rw [hx] at h
            cases h
      · rintro ⟨method, receiver, args, m₁, h, e⟩
        change (F P.invoke m).andThen (fun a => G a P.invoke) = _
        rcases asks.mp h with h | ⟨a, m₂, hx, h⟩
        · rw [(ihF m).mpr ⟨method, receiver, args, m₁, h, e⟩]
          rfl
        · rw [hx]
          exact (ihG a m₂).mpr ⟨method, receiver, args, m₁, h, e⟩

/-- What a native method asks for is what the call of it asks for. -/
theorem asks_native_iff {fuel : Nat} {name : NameId} {arity : Arity} {op : Native}
    {receiver : Value} {args : List Value} {m : Machine} {y : Moment} :
    Moment.Asks ⟨fuel + 1, .invoke (.native name arity op) receiver args, m⟩ y ↔
      (Method.native name arity op).Callable args m ∧ y.fuel = fuel ∧
        AsksFor (fun perform => op.run fuel perform.invoke receiver args) (perform fuel)
          { m with depth := m.depth + 1 } y.task y.machine := by
  obtain ⟨k, task, s⟩ := y
  constructor
  · rintro ⟨hfuel, h⟩
    obtain rfl : fuel = k := Nat.succ.inj hfuel
    by_cases hc : (Method.native name arity op).Callable args m
    · have h := (AsksFor.congr fun _ => Perform.call_of_callable hc).mp h
      exact ⟨hc, rfl, Plan.asks_nested_iff.mp h⟩
    · obtain ⟨cause, e⟩ := @Perform.call_of_not_callable fuel _ receiver _ _ hc
      exact (Plan.not_asks_own ((AsksFor.congr e).mp h)).elim
  · rintro ⟨hc, rfl, h⟩
    have h : AsksFor (fun perform => Run.nested (op.run k perform.invoke receiver args)) (perform k)
      m task s := Plan.asks_nested_iff.mpr h
    exact ⟨rfl, (AsksFor.congr fun _ => Perform.call_of_callable hc).mpr h⟩

/-- A method of a program is run when its parameters are bound. -/
theorem perform_defined {fuel : Nat} {name : NameId} {params : List (Param Node)} {body : Node}
    {scope : Scope} {receiver : Value} {args : List Value} {m : Machine}
    (h : (Method.defined name params body scope).Callable args m) :
    perform (fuel + 1) (.invoke (.defined name params body scope) receiver args) m =
      ((Perform.bindParams (perform fuel) (m.entry scope receiver) params args
        (m.entered scope)).andThen fun _ =>
          Perform.body (perform fuel) (m.entry scope receiver) body).leave :=
  (Perform.call_of_callable h).trans (Run.nested_apply _ m)

theorem perform_native {fuel : Nat} {name : NameId} {arity : Arity} {op : Native}
    {receiver : Value} {args : List Value} {m : Machine}
    (h : (Method.native name arity op).Callable args m) :
    perform (fuel + 1) (.invoke (.native name arity op) receiver args) m =
      (op.run fuel (Perform.invoke (perform fuel)) receiver args
        { m with depth := m.depth + 1 }).leave :=
  (Perform.call_of_callable h).trans (Run.nested_apply _ m)

theorem Outcome.leave_eq_failed {ε α : Type} {o : Outcome Machine ε α} {e : ε} {m : Machine}
    (h : o.leave = .failed e m) : ∃ m', o = .failed e m' := by
  cases o <;> cases h
  exact ⟨_, rfl⟩

/-- A call that jumps leaks the jump. -/
theorem leaks_of_jump {f : Failure} (hf : f.signal.IsJump) (fuel : Nat) (method : Method)
    (receiver : Value) (args : List Value) (m m' : Machine)
    (h : perform fuel (.invoke method receiver args) m = .failed f m') :
    Moment.Leaks f ⟨fuel, .invoke method receiver args, m⟩ := by
  induction fuel generalizing method receiver args m m' with
  | zero => cases h
  | succ fuel ih =>
      by_cases hc : method.Callable args m
      · cases method with
        | native name arity op =>
            rw [perform_native hc] at h
            obtain ⟨m₁, h⟩ := Outcome.leave_eq_failed h
            -- What a native method does by itself does not jump.
            have calls := @Native.calls_run True fuel op (fun _ => trivial) receiver args
            obtain ⟨method', receiver', args', m₂, asks, h⟩ := (calls.eq_jump_iff hf _ m₁).mp h
            exact .native (y := ⟨fuel, .invoke method' receiver' args', m₂⟩)
              (asks_native_iff.mpr ⟨hc, rfl, asks⟩) (ih method' receiver' args' m₂ m₁ h)
        | defined name params body scope =>
            rw [perform_defined hc] at h
            obtain ⟨m₁, h⟩ := Outcome.leave_eq_failed h
            cases hx : Perform.bindParams (perform fuel) (m.entry scope receiver) params args
                (m.entered scope) with
            | done u m₂ =>
                -- The body ends the call with a value or a fault instead.
                rw [hx] at h
                exact (Perform.body_ne_jump h hf).elim
            | failed g m₂ =>
                rw [hx] at h
                cases h
                obtain ⟨before, p, after, node, m₃, rfl, hlen, hd, hb, he⟩ :=
                  (Perform.bindParams_eq_failed_iff params args _).mp hx
                exact .default hc hlen hd hb he
            | halted m₂ =>
                rw [hx] at h
                cases h
      · obtain ⟨cause, e⟩ := @Perform.call_of_not_callable fuel _ receiver _ _ hc
        cases (e (perform fuel)).symm.trans h
        exact hf.elim

/-- A call that leaks a jump jumps. -/
theorem jump_of_leaks {f : Failure} (hf : f.signal.IsJump) {x : Moment} (h : x.Leaks f) :
    ∃ m', x.outcome = .failed f m' := by
  induction h with
  | @default fuel name before after p body node scope receiver args m m₁ m₂ hc hlen hd hb he =>
      have fails := (Perform.bindParams_eq_failed_iff (P := perform fuel) _ args _).mpr
        ⟨before, p, after, node, m₁, rfl, hlen, hd, hb, he⟩
      refine ⟨m₂.left, (perform_defined hc).trans ?_⟩
      rw [fails]
      rfl
  | @native fuel name arity op receiver args m y asks leaks ih =>
      obtain ⟨m', e⟩ := ih
      obtain ⟨hc, hy, asks⟩ := asks_native_iff.mp asks
      -- Only calls leak.
      have invokes : ∃ method' receiver' args', y.task = .invoke method' receiver' args' := by
        cases leaks <;> exact ⟨_, _, _, rfl⟩
      obtain ⟨method', receiver', args', ht⟩ := invokes
      rw [ht] at asks
      rw [Moment.outcome, hy, ht] at e
      have calls := @Native.calls_run True fuel op (fun _ => trivial) receiver args
      have fails := (calls.eq_jump_iff hf _ m').mpr
        ⟨method', receiver', args', y.machine, asks, e⟩
      refine ⟨m'.left, (perform_native hc).trans ?_⟩
      rw [fails]
      rfl

/-- **When a jump leaves a call.**  A call of a method jumps exactly if the jump leaks out of the
default of a parameter, be it through native methods.  Once the parameters of a method are bound,
`return` gives the value of the call, and a `break` or `next` that reaches the end of the method is
a fault at the place where it stands. -/
theorem jump_leaves_call_iff (fuel : Nat) (m : Machine) (receiver : Value) (args : List Value) :
    (∀ method f, f.signal.IsJump ∧
        (∃ m', perform fuel (.invoke method receiver args) m = .failed f m') ↔
      f.signal.IsJump ∧ Moment.Leaks f ⟨fuel, .invoke method receiver args, m⟩) ∧
    ∀ name params body scope m₁ s v place?,
      (Method.defined name params body scope).Callable args m →
      Perform.bindParams (perform fuel) (m.entry scope receiver) params args (m.entered scope) =
        .done () m₁ →
      (perform fuel (.eval body (m.entry scope receiver)) m₁ = .failed ⟨.returned v, place?⟩ s →
        perform (fuel + 1) (.invoke (.defined name params body scope) receiver args) m =
          .done v s.left) ∧
      (perform fuel (.eval body (m.entry scope receiver)) m₁ = .failed ⟨.broke v, place?⟩ s →
        perform (fuel + 1) (.invoke (.defined name params body scope) receiver args) m =
          .failed ⟨.fault .strayBreak, place?⟩ s.left) ∧
      (perform fuel (.eval body (m.entry scope receiver)) m₁ = .failed ⟨.skipped v, place?⟩ s →
        perform (fuel + 1) (.invoke (.defined name params body scope) receiver args) m =
          .failed ⟨.fault .strayNext, place?⟩ s.left) := by
  refine ⟨fun method f => and_congr_right fun hf => ⟨?_, jump_of_leaks hf⟩, ?_⟩
  · rintro ⟨m', h⟩
    exact leaks_of_jump hf fuel method receiver args m m' h
  · intro name params body scope m₁ s v place? hc hb
    have ends : perform (fuel + 1) (.invoke (.defined name params body scope) receiver args) m =
        (Perform.body (perform fuel) (m.entry scope receiver) body m₁).leave := by
      rw [perform_defined hc, hb]
      rfl
    refine ⟨fun h => ?_, fun h => ?_, fun h => ?_⟩
    · exact ends.trans (congrArg Outcome.leave (Perform.body_of_failed h))
    · exact ends.trans (congrArg Outcome.leave (Perform.body_of_failed h))
    · exact ends.trans (congrArg Outcome.leave (Perform.body_of_failed h))

/-- `return` in a body ends the call with its value. -/
theorem return_ends_call :
    (Method.defined .new [] (.returnWith ⟨0, 7⟩ (.int ⟨7, 7⟩ 5)) .top).Callable []
      (Machine.bare (.collecting "")) ∧
    perform 3 (.invoke (.defined .new [] (.returnWith ⟨0, 7⟩ (.int ⟨7, 7⟩ 5)) .top) .main [])
        (Machine.bare (.collecting "")) =
      .done (.int 5) ((Machine.bare (.collecting "")).entered .top).left :=
  ⟨⟨rfl, by decide⟩, ((jump_leaves_call_iff 2 (Machine.bare (.collecting "")) .main []).2 .new []
    (.returnWith ⟨0, 7⟩ (.int ⟨7, 7⟩ 5)) .top _ _ (.int 5) (some ⟨0, 7⟩) ⟨rfl, by decide⟩
      rfl).1 rfl⟩

-- The same `return` in a default leaves the call.
example :
    perform 4 (.invoke (.defined .new
        [⟨.new, some (.returnWith ⟨0, 7⟩ (.int ⟨7, 7⟩ 5))⟩] (.nil ⟨9, 9⟩) .top) .main [])
        (Machine.bare (.collecting "")) =
      .failed ⟨.returned (.int 5), some ⟨0, 7⟩⟩
        ((Machine.bare (.collecting "")).entered .top).left := rfl

end MiniRuby
