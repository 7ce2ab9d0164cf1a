import MiniRuby.Proofs.Evaluator.Limit
import MiniRuby.Proofs.Evolution

/-!
# What nodes evaluate to

A node evaluates to a value or a failure if it does so with enough fuel (`Evaluates`).  How much
fuel that takes is of no interest: the result is the one that the node has without any bound, and
so what a construct evaluates to is told by what its parts evaluate to.

* `Evaluates.unique`: a node has one result at most.
* `evaluates_iff_step`: a node has the result that its construct works out from the results of its
  parts.
-/

namespace MiniRuby

/-- The outcome of an action that has ended with a value or an error. -/
def Outcome.of {σ ε α : Type} : Except ε α → σ → Outcome σ ε α
  | .ok a, s => .done a s
  | .error e, s => .failed e s

namespace Outcome

variable {σ ε α : Type}

theorem ended_of {o : Outcome σ ε α} {r : Except ε α} {s : σ} (h : o = .of r s) : o.Ended := by
  rw [h]
  cases r <;> trivial

@[simp] theorem state_of (r : Except ε α) (s : σ) : (Outcome.of r s).state = s := by
  cases r <;> rfl

theorem of_inj {r r' : Except ε α} {s s' : σ} (h : Outcome.of r s = .of r' s') :
    r = r' ∧ s = s' := by
  cases r <;> cases r' <;> cases h <;> exact ⟨rfl, rfl⟩

end Outcome

namespace Action

variable {σ ε α β : Type} {x : Action σ ε α} {s s' : σ}

theorem pure_eq_of_iff {a : α} {r : Except ε α} :
    (pure a : Action σ ε α) s = .of r s' ↔ r = .ok a ∧ s' = s := by
  constructor
  · intro h
    obtain ⟨rfl, rfl⟩ := Outcome.of_inj (r := .ok a) h
    exact ⟨rfl, rfl⟩
  · rintro ⟨rfl, rfl⟩
    rfl

theorem fail_eq_of_iff {e : ε} {r : Except ε α} :
    (fail e : Action σ ε α) s = .of r s' ↔ r = .error e ∧ s' = s := by
  constructor
  · intro h
    obtain ⟨rfl, rfl⟩ := Outcome.of_inj (r := .error e) h
    exact ⟨rfl, rfl⟩
  · rintro ⟨rfl, rfl⟩
    rfl

theorem mapError_eq_done_iff {ε' : Type} {f : ε → ε'} {a : α} :
    mapError f x s = .done a s' ↔ x s = .done a s' := by
  rw [mapError]
  cases x s <;> simp

/-- Something follows whatever the result is. -/
theorem attempt_bind_eq_of_iff {f : Except ε α → Action σ ε β} {r : Except ε β} :
    (attempt x >>= f) s = .of r s' ↔
      ∃ first s₁, x s = .of first s₁ ∧ f first s₁ = .of r s' := by
  rw [attempt_bind_eq_andCatch]
  constructor
  · intro h
    cases hx : x s with
    | done a s₁ =>
        rw [hx] at h
        exact ⟨.ok a, s₁, rfl, h⟩
    | failed e s₁ =>
        rw [hx] at h
        exact ⟨.error e, s₁, rfl, h⟩
    | halted s₁ =>
        rw [hx] at h
        cases r <;> cases h
  · rintro ⟨first, s₁, hx, h⟩
    rw [hx]
    cases first <;> exact h

/-- Something follows a value, and an error is the result. -/
theorem bind_eq_of_iff {f : α → Action σ ε β} {r : Except ε β} :
    (x >>= f) s = .of r s' ↔
      (∃ a s₁, x s = .of (.ok a) s₁ ∧ f a s₁ = .of r s') ∨
        ∃ e, x s = .of (.error e) s' ∧ r = .error e := by
  rw [bind_eq_attempt, attempt_bind_eq_of_iff]
  constructor
  · rintro ⟨e | a, s₁, hx, h⟩
    · obtain ⟨rfl, rfl⟩ := Outcome.of_inj (r := .error e) h
      exact .inr ⟨e, hx, rfl⟩
    · exact .inl ⟨a, s₁, hx, h⟩
  · rintro (⟨a, s₁, hx, h⟩ | ⟨e, hx, rfl⟩)
    · exact ⟨.ok a, s₁, hx, h⟩
    · exact ⟨.error e, s', hx, rfl⟩

end Action

/-- A node evaluates to a value or a failure, and leaves a machine: so it does with enough fuel. -/
def Evaluates (env : Env) (node : Node) (m : Machine) (r : Except Failure Value) (m' : Machine) :
    Prop :=
  ∃ fuel, perform fuel (.eval node env) m = .of r m'

variable {env : Env} {node : Node} {m m' : Machine} {r : Except Failure Value}

/-- The result is the one without any bound. -/
theorem evaluates_iff_carryOut :
    Evaluates env node m r m' ↔ carryOut.eval env node m = .of r m' := by
  constructor
  · rintro ⟨fuel, h⟩
    exact (perform_refines_carryOut fuel _ m (Outcome.ended_of h)).trans h
  · intro h
    obtain ⟨fuel, e⟩ := exists_carryOut_eq (.eval node env) m
    exact ⟨fuel, e.symm.trans h⟩

/-- A node has one result at most. -/
theorem Evaluates.unique {r₁ : Except Failure Value} {m₁ : Machine} (h : Evaluates env node m r m')
    (h₁ : Evaluates env node m r₁ m₁) : r₁ = r ∧ m₁ = m' :=
  Outcome.of_inj ((evaluates_iff_carryOut.mp h₁).symm.trans (evaluates_iff_carryOut.mp h))

theorem Evaluates.evolves (h : Evaluates env node m r m') : m.Evolves m' := by
  obtain ⟨fuel, h⟩ := h
  have evolves := perform_evolves fuel (.eval node env) m
  rwa [h, Outcome.state_of] at evolves

/-- **A node has the result that its construct works out** from what its parts evaluate to.  The
fuel bounds the passes of a loop. -/
theorem evaluates_iff_step :
    Evaluates env node m r m' ↔ ∃ fuel, carryOut.node fuel env node m = .of r m' := by
  constructor
  · rintro ⟨fuel, h⟩
    cases fuel with
    | zero => cases r <;> cases h
    | succ fuel =>
        have tasks := (Perform.plan_step fuel (.eval node env)).refines
          (perform_refines_carryOut fuel) m
        exact ⟨fuel, (tasks (Outcome.ended_of h)).trans h⟩
  · rintro ⟨fuel, h⟩
    have ended : (carryOut.step fuel (.eval node env) m).Ended := Outcome.ended_of h
    exact evaluates_iff_carryOut.mpr ((carryOut_of_step ended).trans h)

end MiniRuby
