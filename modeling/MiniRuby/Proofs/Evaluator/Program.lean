import MiniRuby.Proofs.Evaluator.Reach
import MiniRuby.Session

/-!
# Runs of programs

A program that has been read starts with the task to evaluate it outside of all classes and
methods, on a machine without open calls (`Moment.start`).  How the run of its text ends is told by
how this task ends (`Session.run_of_parse`), and the moments that the run comes to are those that
the start reaches (`Session.Reaches`).
-/

namespace MiniRuby

/-- The start of a program. -/
def Moment.start (node : Node) (m : Machine) : Moment :=
  ⟨budget, .eval node .top, { m with depth := 0 }⟩

/-- How a program ends: `return` gives its value, and other jumps are faults. -/
def Outcome.settle : Outcome Machine Failure Value → Outcome Machine ProgramError Value
  | done v m => done v m
  | failed f m =>
    match f.signal with
    | .returned v => done v m
    | _ => failed (.failed f.settle) m
  | halted m => halted m

theorem Outcome.Ended.settle {o : Outcome Machine Failure Value} (h : o.Ended) :
    o.settle.Ended := by
  cases o with
  | done v m => trivial
  | failed f m =>
      obtain ⟨signal, place?⟩ := f
      cases signal <;> trivial
  | halted m => exact h

theorem Outcome.state_settle (o : Outcome Machine Failure Value) : o.settle.state = o.state := by
  cases o with
  | done v s | halted s => rfl
  | failed f s =>
      obtain ⟨signal, place?⟩ := f
      cases signal <;> rfl

/-- Whether an outcome is a value, and it and the state that is left are as they should be. -/
def Outcome.DoneWith {σ ε α : Type} (good : α → σ → Prop) : Outcome σ ε α → Prop
  | done a s => good a s
  | failed _ _ => False
  | halted _ => False

instance {σ ε α : Type} {good : α → σ → Prop} [∀ a s, Decidable (good a s)] :
    DecidablePred (@Outcome.DoneWith σ ε α good)
  | .done a s => inferInstanceAs (Decidable (good a s))
  | .failed _ _ => .isFalse id
  | .halted _ => .isFalse id

theorem Outcome.DoneWith.exists_eq {σ ε α : Type} {good : α → σ → Prop} {o : Outcome σ ε α}
    (h : o.DoneWith good) : ∃ a s, o = .done a s ∧ good a s := by
  cases o with
  | done a s => exact ⟨a, s, rfl, h⟩
  | failed f s => exact h.elim
  | halted s => exact h.elim

/-- The fault that a task ends with. -/
def Outcome.fault? {α : Type} : Outcome Machine Failure α → Option Fault
  | failed ⟨.fault cause, _⟩ _ => some cause
  | _ => none

theorem Outcome.eq_failed_of_fault? {α : Type} {cause : Fault}
    {o : Outcome Machine Failure α} (h : o.fault? = some cause) :
    ∃ place? m', o = .failed ⟨.fault cause, place?⟩ m' := by
  cases o with
  | done v s => cases h
  | halted s => cases h
  | failed f s =>
      obtain ⟨signal, place?⟩ := f
      cases signal with
      | fault cause' =>
          cases h
          exact ⟨place?, s, rfl⟩
      | raised v | returned v | broke v | skipped v => cases h

/-- Whether a task ends with an exception. -/
def Outcome.raises {α : Type} : Outcome Machine Failure α → Bool
  | failed ⟨.raised _, _⟩ _ => true
  | _ => false

theorem Outcome.eq_failed_of_raises {α : Type} {o : Outcome Machine Failure α}
    (h : o.raises = true) : ∃ e place? m', o = .failed ⟨.raised e, place?⟩ m' := by
  cases o with
  | done v s | halted s => cases h
  | failed f s =>
      obtain ⟨signal, place?⟩ := f
      cases signal with
      | raised e => exact ⟨e, place?, s, rfl⟩
      | fault cause => cases h
      | returned v | broke v | skipped v => cases h


namespace Session

/-- A moment that the run of a text comes to. -/
def Reaches (path text : String) (m : Machine) (x : Moment) : Prop :=
  ∃ node m₀, parse path text m = .done node m₀ ∧ (Moment.start node m₀).Reaches x

variable {path text : String} {m : Machine}

/-- How a text that can be read runs. -/
theorem run_of_parse {node : Node} {m₀ : Machine} (h : parse path text m = .done node m₀) :
    run path text m = (Moment.start node m₀).outcome.settle := by
  have read : run path text m = (Run.evalProgram node m₀).mapError .failed := by
    rw [run, Action.bind_eq_andThen, h]
    rfl
  have ends : Run.evalProgram node m₀ = (Moment.start node m₀).outcome.andCatch _ :=
    Action.attempt_bind_eq_andCatch _ _ { m₀ with depth := 0 }
  rw [read, ends]
  cases (Moment.start node m₀).outcome with
  | done v s => rfl
  | failed f s =>
      obtain ⟨signal, place?⟩ := f
      cases signal <;> rfl
  | halted s => rfl

theorem state_run_of_parse {node : Node} {m₀ : Machine} (h : parse path text m = .done node m₀) :
    (run path text m).state = (Moment.start node m₀).outcome.state := by
  rw [run_of_parse h, Outcome.state_settle]

/-- Reading changes the names and the text that was read last, and nothing else. -/
theorem state_parse (path text : String) (m : Machine) : ∃ names,
    (parse path text m).state =
      { m with names := names, source? := some (Source.ofText path text) } := by
  unfold parse
  cases tokenize text.toList with
  | error e => exact ⟨_, rfl⟩
  | ok tokens =>
      dsimp only
      cases parseTokens tokens m.names (m.frames.names .top) <;> exact ⟨_, rfl⟩

/-- A text that can be read: its tokens are a program, and the names that it has are kept. -/
theorem parse_eq_done {node : Node} {m' : Machine} :
    parse path text m = .done node m' ↔ ∃ tokens c, tokenize text.toList = .ok tokens ∧
      parseTokens tokens m.names (m.frames.names .top) = .done node c ∧
      m' = { m with names := c.names, source? := some (Source.ofText path text) } := by
  unfold parse
  cases ht : tokenize text.toList with
  | error e => simp
  | ok tokens =>
      cases hp : parseTokens tokens m.names (m.frames.names .top) with
      | done node' c =>
          simp only [hp, Outcome.done.injEq, Except.ok.injEq]
          constructor
          · rintro ⟨rfl, rfl⟩
            exact ⟨tokens, c, rfl, hp, rfl⟩
          · rintro ⟨_, c', rfl, hp', rfl⟩
            rw [hp] at hp'
            cases hp'
            exact ⟨rfl, rfl⟩
      | failed e c | halted c => simp [hp]

theorem parse_of_tokens {node : Node} {tokens : List Token} {c : Cursor} (path : String)
    (ht : tokenize text.toList = .ok tokens)
    (hp : parseTokens tokens m.names (m.frames.names .top) = .done node c) :
    parse path text m =
      .done node { m with names := c.names, source? := some (Source.ofText path text) } :=
  parse_eq_done.mpr ⟨tokens, c, ht, hp, rfl⟩

/-- Reading fails with errors of the text only. -/
theorem not_parse_failed {f : Failure} {m' : Machine} :
    parse path text m ≠ .failed (.failed f) m' := by
  intro h
  unfold parse at h
  cases ht : tokenize text.toList with
  | error e =>
      simp only [ht] at h
      cases h
  | ok tokens =>
      simp only [ht] at h
      cases hp : parseTokens tokens m.names (m.frames.names .top) <;>
        (simp only [hp] at h; cases h)

/-- A text whose run ends with a failure has been read. -/
theorem parse_of_run_failed {f : Failure} {m' : Machine}
    (h : run path text m = .failed (.failed f) m') :
    ∃ node m₀, parse path text m = .done node m₀ := by
  rw [run, Action.bind_eq_andThen] at h
  cases hp : parse path text m with
  | done node m₀ => exact ⟨node, m₀, rfl⟩
  | halted m₀ =>
      rw [hp] at h
      cases h
  | failed e m₀ =>
      rw [hp] at h
      cases h
      exact (not_parse_failed hp).elim

end Session

end MiniRuby
