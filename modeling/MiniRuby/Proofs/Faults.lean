import MiniRuby.Proofs.Evaluator.Operation
import MiniRuby.Proofs.Typing.Boot

/-!
# Faults end a program

Programs can rescue the exceptions that they raise, but not faults.  Without `ensure` clauses
nothing is evaluated after a fault, and the program ends with it.

A fault comes up in something that a step does (`Perform.Does`) and ends its task.  A step lets the
faults of other tasks pass when its own is not to evaluate a construct with an `ensure` clause
(`Moment.Asks.fails`), and then it asks for nothing more (`Moment.Asks.before`).  All code that the
run of a program comes to is code of the program, so no task that is reached is of that kind
(`noEnsure_of_reaches`).

* `fault_ends_program`: a fault that comes up anywhere in the run of a program without `ensure`
  clauses is the fault that the program ends with.
-/

namespace MiniRuby

/-- Whether a failure is a fault. -/
def Failure.IsFault (f : Failure) : Prop := ∃ cause, f.signal = .fault cause

theorem Failure.Passes.isFault {f f' : Failure} (h : f.Passes f') (hf : f.IsFault) :
    f'.IsFault := by
  obtain ⟨cause, hc⟩ := hf
  exact ⟨cause, h.signal.trans hc⟩

/-! ### Steps -/

namespace Moment

/-- A step without an `ensure` clause, as a plan that lets faults pass. -/
theorem plan_step (fuel : Nat) {task : Task} (h : task.NoEnsure) :
    Plan (fun f => True ∧ f.IsFault) fun perform => perform.step fuel task :=
  (@Perform.script_step True True fuel task (fun _ => h) fun _ => trivial).plan

variable {x y z : Moment} {f : Failure} {m' : Machine}

/-- **A fault passes through a step.** -/
theorem Asks.fails (h : x.Asks z) (hx : x.task.NoEnsure) (hz : z.outcome = .failed f m')
    (hf : f.IsFault) : x.outcome.FailsAs f m' := by
  rw [outcome_of_asks h]
  exact (plan_step z.fuel hx).failed_of_asks (fun hf h => ⟨trivial, h.isFault hf.2⟩) h.2 hz
    ⟨trivial, hf⟩

/-- **A step asks for nothing after a fault.** -/
theorem Asks.before (h : x.Asks z) (hx : x.task.NoEnsure) (hz : z.outcome = .failed f m')
    (hf : f.IsFault) (h' : x.Asks y) : y = z ∨ x.AsksBefore y z := by
  have fuel : y.fuel = z.fuel := Nat.succ.inj (h'.1.symm.trans h.1)
  obtain ⟨-, asks⟩ := h'
  rw [fuel] at asks
  rcases (plan_step z.fuel hx).asks_before (fun hf h => ⟨trivial, h.isFault hf.2⟩) h.2 hz
    ⟨trivial, hf⟩ asks z.machine with ⟨ht, hm⟩ | hb
  · refine .inl ?_
    cases y
    cases z
    simp only [mk.injEq]
    exact ⟨fuel, ht, hm⟩
  · refine .inr ⟨h.1.trans (congrArg (· + 1) fuel.symm), ?_⟩
    rw [fuel]
    exact hb

/-- A fault passes through all that has led to it, by induction along the way back. -/
theorem Reaches.fails {s e : Moment} (h : s.Reaches e)
    (noEnsure : ∀ x, s.Reaches x → x.task.NoEnsure) (he : e.outcome = .failed f m')
    (hf : f.IsFault) : s.outcome.FailsAs f m' := by
  induction h using Relation.ReflTransGen.head_induction_on with
  | refl => exact .same he
  | head asks _ ih =>
      obtain ⟨f₁, d₁, e₁, h₁⟩ := ih fun x hx => noEnsure x (.head asks hx)
      obtain ⟨f₂, d₂, e₂, h₂⟩ := asks.fails (noEnsure _ .refl) e₁ (h₁.isFault hf)
      exact ⟨f₂, d₂, e₂, h₁.trans h₂⟩

end Moment

/-! ### Programs -/

/-- The code that a program comes to has no `ensure` clause, if the program has none. -/
theorem noEnsure_of_reaches {path text : String} {sink : Sink} {host : Host} {node : Node}
    {m₀ : Machine}
    (hp : Session.parse path text (Machine.boot sink host) = .done node m₀)
    (hn : node.All Node.NoEnsure) {x : Moment} (hx : (Moment.start node m₀).Reaches x) :
    x.task.NoEnsure := by
  have ready := (ready_of_parse hp ((wellAimed_of_parse hp).1.and hn)).1
  have reached := (hx.ready (fun _ h => h.1) ready).1
  obtain ⟨fuel, task, m⟩ := x
  cases task with
  | eval node env => exact (Node.all_here reached.2.1).2
  | invoke method receiver args => trivial

/-- **Faults end a program.**  A program without `ensure` clauses is run on the first machine, and
something that is done in a task which the program comes to fails with a fault.  Then the program
ends with that fault, whose place is the one that was noted first, and nothing but the number of
open calls changes after it.  No further task is begun: whatever was asked for on the way to the
task was asked for before the way went on, and what the task asks for is asked for before the fault
or by what fails. -/
theorem fault_ends_program {path text : String} {sink : Sink} {host : Host} {node : Node}
    {m₀ : Machine}
    (hp : Session.parse path text (Machine.boot sink host) = .done node m₀)
    (hn : node.All Node.NoEnsure) {fuel : Nat} {task : Task} {m : Machine}
    (he : (Moment.start node m₀).Reaches ⟨fuel + 1, task, m⟩) {α : Type} {a : Perform → Run α}
    {s : Machine} (does : Perform.Does (perform fuel) fuel task m a s) {cause : Fault}
    {place? : Option Span} {m' : Machine}
    (hf : a (perform fuel) s = .failed ⟨.fault cause, place?⟩ m') :
    (∃ place?' d, Session.run path text (Machine.boot sink host) =
        .failed (.failed ⟨.fault cause, place?'⟩) { m' with depth := d } ∧
      ∀ place, place? = some place → place?' = some place) ∧
    (∀ x z, (Moment.start node m₀).Reaches x → x.Asks z → z.Reaches ⟨fuel + 1, task, m⟩ →
      ∀ y, x.Asks y → y = z ∨ x.AsksBefore y z) ∧
    ∀ y, Moment.Asks ⟨fuel + 1, task, m⟩ y →
      AsksFor a (perform fuel) s y.task y.machine ∨ ∀ mark,
        ¬ (Perform.haltingAt (perform fuel) y.task y.machine mark).Does fuel task m a s := by
  have noEnsure := fun x hx => @noEnsure_of_reaches path text sink host node m₀ hp hn x hx
  have fault : Failure.IsFault ⟨.fault cause, place?⟩ := ⟨cause, rfl⟩
  obtain ⟨f₁, d₁, fails, passes₁⟩ := does.fails (noEnsure _ he) hf
  have fails₁ : Moment.outcome ⟨fuel + 1, task, m⟩ = .failed f₁ { m' with depth := d₁ } := by
    rw [Moment.outcome, perform_succ]
    exact fails
  have fault₁ := passes₁.isFault fault
  refine ⟨?_, ?_, ?_⟩
  -- The fault is carried back along the way to the start.
  · obtain ⟨f₂, d, ends, passes₂⟩ := he.fails noEnsure fails₁ fault₁
    obtain ⟨signal, place?'⟩ := f₂
    have passes := passes₁.trans passes₂
    obtain rfl : signal = .fault cause := passes.signal
    refine ⟨place?', d, ?_, passes.span⟩
    rw [Session.run_of_parse hp, ends]
    rfl
  -- It is the fault of every task on the way, so that none of them asks for more.
  · intro x z hx asks hz y asks'
    obtain ⟨f', d, fails', passes'⟩ :=
      hz.fails (fun w hw => noEnsure w (hx.trans (.head asks hw))) fails₁ fault₁
    exact asks.before (noEnsure x hx) fails' (passes'.isFault fault₁) asks'
  · rintro ⟨k, task', s'⟩ ⟨hk, asks⟩
    obtain rfl : fuel = k := Nat.succ.inj hk
    exact does.asks_before (noEnsure _ he) hf asks

/-- The body that a program guards, if the program begins with a construct that guards one. -/
def Node.guardedBody? : Node → Option Node
  | stmts _ (guarded _ body _ _ _ :: _) => some body
  | _ => none

namespace Moment

/-- A row of statements asks for the first one. -/
theorem asks_first (fuel : Nat) (place : Span) (first : Node) (rest : List Node) (env : Env)
    (m : Machine) :
    Asks ⟨fuel + 1, .eval (.stmts place (first :: rest)) env, m⟩ ⟨fuel, .eval first env, m⟩ := by
  have hF : Plan (fun _ => False) fun perform => perform (.eval first env) := .ask _
  exact ⟨rfl, hF.asks_bind_iff.mpr (.inl (Plan.asks_ask_iff.mpr ⟨rfl, rfl⟩))⟩

/-- A guarded body is asked for before its clauses. -/
theorem asks_guarded (fuel : Nat) (place : Span) (body : Node)
    (rescues : List (RescueClause Node)) (otherwise cleanup : Node) (env : Env) (m : Machine) :
    Asks ⟨fuel + 1, .eval (.guarded place body rescues otherwise cleanup) env, m⟩
      ⟨fuel, .eval body env, m⟩ := by
  have hF : Plan (fun _ => False) fun perform => perform (.eval body env) := .ask _
  have rescued := (@Perform.script_rescued False False env body rescues otherwise).plan
  exact ⟨rfl, rescued.asks_seq_iff.mpr (.inl (hF.asks_seq_iff.mpr
    (.inl (Plan.asks_ask_iff.mpr ⟨rfl, rfl⟩))))⟩

theorem reaches_guardedBody {node body : Node} (m : Machine) (h : node.guardedBody? = some body) :
    (start node m).Reaches ⟨budget - 2, .eval body .top, { m with depth := 0 }⟩ := by
  unfold Node.guardedBody? at h
  split at h
  · rename_i s s' body rescues otherwise cleanup rest
    cases h
    have first := asks_first (budget - 1) s (.guarded s' body rescues otherwise cleanup) rest .top
      { m with depth := 0 }
    have guarded := asks_guarded (budget - 2) s' body rescues otherwise cleanup .top
      { m with depth := 0 }
    exact .tail (.single first) guarded
  · cases h

end Moment

/-- A class below a number: the `rescue` clause does not catch the fault. -/
theorem fault_ends_rescue : ∃ node m₀ body place? m',
    Session.parse "" "begin\nclass X < 5\nend\nrescue\n1\nend" (Machine.boot (.collecting "")) =
      .done node m₀ ∧
    node.All Node.NoEnsure ∧
    (Moment.start node m₀).Reaches ⟨budget - 2, .eval body .top, { m₀ with depth := 0 }⟩ ∧
    perform (budget - 2) (.eval body .top) { m₀ with depth := 0 } =
      .failed ⟨.fault (.parentNotAClass "Integer"), place?⟩ m' ∧
    ∃ place?' d, Session.run "" "begin\nclass X < 5\nend\nrescue\n1\nend"
        (Machine.boot (.collecting "")) =
      .failed (.failed ⟨.fault (.parentNotAClass "Integer"), place?'⟩) { m' with depth := d } := by
  have fails : (Session.parse "" "begin\nclass X < 5\nend\nrescue\n1\nend"
      (Machine.boot (.collecting ""))).DoneWith fun node m₀ =>
    node.All Node.NoEnsure ∧
      (node.guardedBody?.bind fun body =>
        (perform (budget - 2) (.eval body .top) { m₀ with depth := 0 }).fault?) =
          some (.parentNotAClass "Integer") := by
    decide +kernel
  obtain ⟨node, m₀, hp, hn, hb⟩ := fails.exists_eq
  obtain ⟨body, guards, fault⟩ := Option.bind_eq_some_iff.mp hb
  obtain ⟨place?, m', hf⟩ := Outcome.eq_failed_of_fault? fault
  have reaches := Moment.reaches_guardedBody m₀ guards
  obtain ⟨⟨place?', d, run, -⟩, -⟩ := fault_ends_program hp hn reaches (.whole _ _) hf
  exact ⟨node, m₀, body, place?, m', hp, hn, reaches, hf, place?', d, run⟩

end MiniRuby
