import MiniRuby.Boot
import MiniRuby.Proofs.Evaluator.Reach

/-!
# Open calls

A machine counts the calls that are open.  A call counts itself while it lasts, and nothing else
touches the number, so a task that has ended leaves it as it was, whether it is done or has failed.
A call that would be one too many is turned away before it counts.

* `Script.balances`, `perform_balances`: tasks that have ended leave no call open.
* `Moment.Asks.depth`: a step of a call asks for tasks with one more call open, and a step of an
  evaluation with as many.  So the number is that of the calls on the way (`Moment.ReachesWith`).
* `perform_shallow`: the limit holds for all machines that a run comes to, also those on which it
  runs out of fuel.
* `calls_balanced`: all of this together, and that a call is turned away exactly when as many calls
  are open as may be.
-/

namespace MiniRuby

/-- Whether a task that has ended has left so many calls open. -/
def Outcome.Balances {ε α : Type} (d : Nat) : Outcome Machine ε α → Prop
  | done _ s | failed _ s => s.depth = d
  | halted _ => True

/-- Whether tasks that have ended leave no call open. -/
def Perform.Balanced (P : Perform) : Prop := ∀ task m, (P task m).Balances m.depth

namespace Outcome.Balances

variable {ε α β : Type} {d : Nat}

theorem of_depth {o : Outcome Machine ε α} (h : o.state.depth = d) : o.Balances d := by
  cases o with
  | done a s => exact h
  | failed e s => exact h
  | halted s => trivial

theorem andThen {o : Outcome Machine ε α} {f : α → Action Machine ε β} (h : o.Balances d)
    (hf : ∀ a s, s.depth = d → (f a s).Balances d) : (o.andThen f).Balances d := by
  cases o with
  | done a s => exact hf a s h
  | failed e s => exact h
  | halted s => trivial

theorem andCatch {o : Outcome Machine ε α} {f : Except ε α → Action Machine ε β}
    (h : o.Balances d) (hf : ∀ r s, s.depth = d → (f r s).Balances d) :
    (o.andCatch f).Balances d := by
  cases o with
  | done a s => exact hf (.ok a) s h
  | failed e s => exact hf (.error e) s h
  | halted s => trivial

theorem mapError {ε' : Type} {o : Outcome Machine ε α} (f : ε → ε') (h : o.Balances d) :
    (o.mapError f).Balances d := by
  cases o with
  | done a s => exact h
  | failed e s => exact h
  | halted s => trivial

/-- When a call is left, it is not open any longer. -/
theorem leave {o : Outcome Machine ε α} (h : o.Balances (d + 1)) : o.leave.Balances d := by
  cases o with
  | done a s => exact congrArg (· - 1) h
  | failed e s => exact congrArg (· - 1) h
  | halted s => trivial

theorem depth_eq {o : Outcome Machine ε α} {a : α} {s : Machine} (h : o.Balances d)
    (e : o = .done a s) : s.depth = d := by
  rw [e] at h
  exact h

end Outcome.Balances

section Script

variable {strict endless : Prop} {frame? : Option FrameId} {α : Type} {F : Perform → Run α}
  {P : Perform}

/-- **A script leaves no call open**, if the tasks that it asks for leave none. -/
theorem Script.balances (hF : Script strict endless frame? F) (hP : P.Balanced) (m : Machine) :
    (F P m).Balances m.depth := by
  induction hF generalizing m with
  | own he hd hb hf hm => exact .of_depth (hd m)
  | ask task h => exact hP task m
  | bind hF hG ihF ihG =>
      refine (ihF m).andThen fun a s hs => ?_
      rw [← hs]
      exact ihG a s
  | inside scope hG ihG => exact ihG _ { m with frames := (m.frames.child scope).2 }
  | located place hF ih => exact (ih m).mapError _
  | @nested α F hF ih =>
      change (Run.nested (F P) m).Balances m.depth
      rw [Run.nested_apply]
      exact (ih { m with depth := m.depth + 1 }).leave
  | @catching frame? α β F G hF hG pass ihF ihG =>
      change ((Action.attempt (F P) >>= fun r => G r P) m).Balances m.depth
      rw [Action.attempt_bind_eq_andCatch]
      refine (ihF m).andCatch fun r s hs => ?_
      rw [← hs]
      exact ihG r s

/-- **Only a call counts.**  What binds variables in a frame that is there asks for tasks with as
many calls open as there are. -/
theorem Script.depth_of_asks (hF : Script strict endless frame? F) (hf : frame? ≠ none)
    (hP : P.Balanced) {m s : Machine} {task : Task} (h : AsksFor F P m task s) :
    s.depth = m.depth := by
  induction hF generalizing m with
  | own he hd hb hf hm => exact (Plan.not_asks_own h).elim
  | ask task' h' =>
      obtain ⟨-, rfl⟩ := Plan.asks_ask_iff.mp h
      rfl
  | bind hF hG ihF ihG =>
      rcases (Plan.asks_bind_iff hF.plan).mp h with h | ⟨a, m₁, e, h⟩
      · exact ihF hf h
      · exact (ihG a hf h).trans ((hF.balances hP m).depth_eq e)
  | inside scope hG ihG =>
      rcases (Plan.asks_bind_iff (@Plan.own (fun _ => True) _ _)).mp h with h | ⟨s', m₁, e, h⟩
      · exact (Plan.not_asks_own h).elim
      · cases e
        have same := ihG _ nofun h
        exact same
  | located place hF ih => exact ih hf (Plan.asks_located_iff.mp h)
  | nested hF ih => exact (hf rfl).elim
  | catching hF hG pass ihF ihG =>
      rcases (Plan.asks_seq_iff hF.plan).mp h with h | ⟨r, m₁, e, h⟩
      · exact ihF hf h
      · refine (ihG r hf h).trans ?_
        have kept := hF.balances hP m
        rw [Action.attempt] at e
        split at e <;> cases e
        · exact kept.depth_eq ‹_›
        · rename_i e'
          rw [e'] at kept
          exact kept

end Script

/-! ### Steps -/

/-- How many calls a task adds to those that are open while it lasts. -/
def Task.calls : Task → Nat
  | .eval _ _ => 0
  | .invoke _ _ _ => 1

/-- Whether the limit for open calls holds on all machines that tasks come to an end on, or run out
of fuel on, if it holds at first. -/
def Perform.Shallow (P : Perform) : Prop :=
  ∀ task m, m.depth ≤ maxDepth → (P task m).state.depth ≤ maxDepth

/-- What counts no call by itself keeps the limit, if the tasks that it asks for do. -/
theorem Script.shallow {strict endless : Prop} {frame? : Option FrameId} {α : Type}
    {F : Perform → Run α} {P : Perform} (hF : Script strict endless frame? F) (hf : frame? ≠ none)
    (hP : P.Shallow) (m : Machine) (hm : m.depth ≤ maxDepth) :
    (F P m).state.depth ≤ maxDepth := by
  induction hF generalizing m with
  | own he hd hb hf hm => exact Nat.le_trans (Nat.le_of_eq (hd m)) hm
  | ask task h => exact hP task m hm
  | @bind frame? α β F G hF hG ihF ihG =>
      have first := ihF hf m hm
      change ((F P m).andThen fun a => G a P).state.depth ≤ maxDepth
      cases hx : F P m with
      | done a s =>
          rw [hx] at first
          exact ihG a hf s first
      | failed f s =>
          rw [hx] at first
          exact first
      | halted s =>
          rw [hx] at first
          exact first
  | inside scope hG ihG => exact ihG _ nofun { m with frames := (m.frames.child scope).2 } hm
  | @located frame? α F place hF ih =>
      have first := ih hf m hm
      change ((F P m).mapError (Failure.locate place)).state.depth ≤ maxDepth
      cases hx : F P m <;> (rw [hx] at first; exact first)
  | nested hF ih => exact (hf rfl).elim
  | @catching frame? α β F G hF hG pass ihF ihG =>
      have first := ihF hf m hm
      change ((Action.attempt (F P) >>= fun r => G r P) m).state.depth ≤ maxDepth
      rw [Action.attempt_bind_eq_andCatch]
      cases hx : F P m with
      | done a s =>
          rw [hx] at first
          exact ihG (.ok a) hf s first
      | failed f s =>
          rw [hx] at first
          exact ihG (.error f) hf s first
      | halted s =>
          rw [hx] at first
          exact first

namespace Perform

variable {P : Perform} {fuel : Nat} {task task' : Task} {m s : Machine}

theorem Balanced.step (hP : P.Balanced) (fuel : Nat) (task : Task) (m : Machine) :
    (P.step fuel task m).Balances m.depth :=
  (@script_step False True fuel task nofun fun _ => trivial).balances hP m

/-- What a method does once it may be called, as something that counts no call by itself. -/
theorem script_entered (fuel : Nat) (method : Method) (receiver : Value) (args : List Value) :
    Script False True (some ⟨0⟩) fun perform => perform.enter fuel method receiver args :=
  script_enter fuel method (fun _ => trivial) receiver args

theorem Shallow.step (hP : P.Shallow) (fuel : Nat) (task : Task) (hm : m.depth ≤ maxDepth) :
    (P.step fuel task m).state.depth ≤ maxDepth := by
  cases task with
  | eval node env =>
      exact (@script_node False True fuel env node nofun fun _ => trivial).shallow nofun hP m hm
  | invoke method receiver args =>
      by_cases hc : method.Callable args m
      · have inner := (script_entered fuel method receiver args).shallow nofun hP
          { m with depth := m.depth + 1 } hc.2
        change (P.call fuel method receiver args m).state.depth ≤ maxDepth
        rw [call_of_callable hc, Run.nested_apply]
        cases hx : P.enter fuel method receiver args { m with depth := m.depth + 1 } with
        | done v s =>
            rw [hx] at inner
            exact Nat.le_trans (Nat.sub_le _ _) inner
        | failed f s =>
            rw [hx] at inner
            exact Nat.le_trans (Nat.sub_le _ _) inner
        | halted s =>
            rw [hx] at inner
            exact inner
      · obtain ⟨cause, fails⟩ := call_of_not_callable hc
        change (P.call fuel method receiver args m).state.depth ≤ maxDepth
        rw [fails P]
        exact hm

/-- A step of a call that is not made asks for nothing. -/
theorem callable_of_asks {method : Method} {receiver : Value} {args : List Value}
    (h : AsksFor (fun perform => perform.step fuel (.invoke method receiver args)) P m task' s) :
    method.Callable args m := by
  by_contra hc
  obtain ⟨cause, fails⟩ := call_of_not_callable hc
  have own : AsksFor (fun _ => (Run.fault cause : Run Value)) P m task' s :=
    (AsksFor.congr fun Q => fails Q).mp h
  exact Plan.not_asks_own own

/-- **A step of a call asks for tasks with one more call open**, and a step of an evaluation with
as many calls open as there are. -/
theorem depth_of_asks (hP : P.Balanced)
    (h : AsksFor (fun perform => perform.step fuel task) P m task' s) :
    s.depth = m.depth + task.calls := by
  cases task with
  | eval node env =>
      exact (@script_node False True fuel env node nofun fun _ => trivial).depth_of_asks nofun hP h
  | invoke method receiver args =>
      have hc := callable_of_asks h
      have inner : AsksFor (fun perform => Run.nested (perform.enter fuel method receiver args)) P
          m task' s := (AsksFor.congr fun Q => call_of_callable hc).mp h
      exact (script_entered fuel method receiver args).depth_of_asks nofun hP
        (Plan.asks_nested_iff.mp inner)

end Perform

/-! ### Runs -/

theorem perform_balanced (fuel : Nat) : Perform.Balanced (perform fuel) := by
  induction fuel with
  | zero =>
      intro task m
      cases task <;> trivial
  | succ fuel ih =>
      intro task m
      rw [perform_succ]
      exact ih.step fuel task m

theorem perform_shallow (fuel : Nat) : Perform.Shallow (perform fuel) := by
  induction fuel with
  | zero =>
      intro task m hm
      cases task <;> exact hm
  | succ fuel ih =>
      intro task m hm
      rw [perform_succ]
      exact ih.step fuel task hm

namespace Moment

/-- A chain of steps leads from a moment to another one, with so many calls on the way that have
not ended. -/
inductive ReachesWith (x : Moment) : Nat → Moment → Prop where
  | refl : ReachesWith x 0 x
  | step {n : Nat} {y z : Moment} (h : ReachesWith x n y) (hz : y.Asks z) :
      ReachesWith x (n + y.task.calls) z

/-- The machines that a run comes to: those on which tasks are begun, those on which calls have
been let in, and those on which tasks end or run out of fuel. -/
inductive Visits (x : Moment) : Machine → Prop where
  | begun {y : Moment} (h : x.Reaches y) : Visits x y.machine
  | letIn {y : Moment} {method : Method} {receiver : Value} {args : List Value} (h : x.Reaches y)
      (ht : y.task = .invoke method receiver args) (hc : method.Callable args y.machine) :
      Visits x { y.machine with depth := y.machine.depth + 1 }
  | ended {y : Moment} (h : x.Reaches y) : Visits x y.outcome.state

variable {x y : Moment} {n : Nat}

theorem Asks.depth (h : x.Asks y) : y.machine.depth = x.machine.depth + x.task.calls :=
  Perform.depth_of_asks (perform_balanced y.fuel) h.2

/-- The number of open calls is that of the calls on the way. -/
theorem ReachesWith.depth (h : x.ReachesWith n y) : y.machine.depth = x.machine.depth + n := by
  induction h with
  | refl => rfl
  | step h hz ih =>
      have := hz.depth
      omega

/-- The limit holds on all machines on which tasks are begun. -/
theorem Reaches.shallow (h : x.Reaches y) (hx : x.machine.depth ≤ maxDepth) :
    y.machine.depth ≤ maxDepth := by
  induction h with
  | refl => exact hx
  | @tail y z h hz ih =>
      rw [hz.depth]
      obtain ⟨fuel, task, m⟩ := y
      cases task with
      | eval node env => exact ih
      | invoke method receiver args => exact (Perform.callable_of_asks hz.2).2

theorem ReachesWith.reaches (h : x.ReachesWith n y) : x.Reaches y := by
  induction h with
  | refl => exact .refl
  | step h hz ih => exact ih.tail hz

theorem Visits.shallow {s : Machine} (h : x.Visits s) (hx : x.machine.depth ≤ maxDepth) :
    s.depth ≤ maxDepth := by
  cases h with
  | begun h => exact h.shallow hx
  | letIn h ht hc => exact hc.2
  | @ended y h => exact perform_shallow y.fuel y.task y.machine (h.shallow hx)

end Moment

/-- Whether a call is turned away with a fault before any of it is run: however tasks are carried
out, and whatever a method does that takes as many arguments. -/
def Task.TurnedAway (m : Machine) (cause : Fault) : Task → Prop
  | .eval _ _ => False
  | .invoke method receiver args => ∀ fuel (P : Perform) (method' : Method),
      method'.arity = method.arity →
        P.call fuel method' receiver args m = .failed (.ofFault cause) m

/-- A call with the right number of arguments is turned away when too many calls are open. -/
theorem Task.turnedAway_iff {m : Machine} {method : Method} {receiver : Value}
    {args : List Value} (ha : method.arity.accepts args.length = true) :
    (Task.invoke method receiver args).TurnedAway m .tooDeep ↔ maxDepth ≤ m.depth := by
  constructor
  · intro h
    by_contra hd
    -- A native method that gathers its arguments in an array would not fail.
    have hc : (Method.native .toS method.arity .gather).Callable args m :=
      ⟨ha, Nat.lt_of_not_le hd⟩
    have fails := h 0 (fun _ => Action.exhaust) (.native .toS method.arity .gather) rfl
    rw [Perform.call_of_callable hc] at fails
    cases fails
  · intro hd fuel P method' same
    exact Perform.call_of_too_deep P (same ▸ ha) (Nat.not_lt.mpr hd)

/-- **The number of open calls is balanced and bounded.**  However they end, evaluating a node,
sending a message and calling a method leave as many calls open as there were.  In a run that starts
without open calls there are never more than the limit, and a call with the right number of
arguments is turned away exactly when that many calls are on the way to it that have not ended. -/
theorem calls_balanced :
    (∀ fuel m,
      (∀ node env, (perform fuel (.eval node env) m).Balances m.depth) ∧
      (∀ receiver name args,
        (Run.send (Perform.invoke (perform fuel)) receiver name args m).Balances m.depth) ∧
      ∀ method receiver args, (perform fuel (.invoke method receiver args) m).Balances m.depth) ∧
    ∀ x : Moment, x.machine.depth = 0 →
      (∀ s, x.Visits s → s.depth ≤ maxDepth) ∧
      ∀ n y method receiver args, x.ReachesWith n y → y.task = .invoke method receiver args →
        method.arity.accepts args.length = true →
        (y.task.TurnedAway y.machine .tooDeep ↔ n = maxDepth) := by
  refine ⟨fun fuel m => ⟨fun node env => ?_, fun receiver name args => ?_,
    fun method receiver args => ?_⟩, fun x hx => ⟨fun s hs => ?_, ?_⟩⟩
  · exact perform_balanced fuel (.eval node env) m
  · exact (@Perform.script_send False False none receiver name args).balances
      (perform_balanced fuel) m
  · exact perform_balanced fuel (.invoke method receiver args) m
  · exact hs.shallow (hx ▸ Nat.zero_le _)
  · intro n y method receiver args hy ht ha
    have depth : y.machine.depth = n := by rw [hy.depth, hx, Nat.zero_add]
    have limit : n ≤ maxDepth :=
      depth ▸ hy.reaches.shallow (hx ▸ Nat.zero_le _)
    rw [ht, Task.turnedAway_iff ha, depth]
    exact ⟨fun h => Nat.le_antisymm limit h, fun h => Nat.le_of_eq h.symm⟩

/-- A method that sends a message on, with no call open: it is not turned away, and so the number of
open calls is within the limit while it lasts. -/
theorem calls_balanced_forward :
    let x : Moment := ⟨2, .invoke (.native .new (.atLeast 1) (.object .send)) (.int 1)
      [.sym .toS], Machine.bare (.collecting "")⟩
    x.machine.depth = 0 ∧ ¬ x.task.TurnedAway x.machine .tooDeep ∧
      (∀ s, x.Visits s → s.depth ≤ maxDepth) ∧ x.outcome.Balances 0 := by
  intro x
  obtain ⟨balanced, bounded⟩ := calls_balanced
  obtain ⟨limit, turned⟩ := bounded x rfl
  refine ⟨rfl, fun h => ?_, limit, (balanced 2 x.machine).2.2 _ _ _⟩
  cases (turned 0 x _ _ _ .refl rfl rfl).mp h

end MiniRuby
