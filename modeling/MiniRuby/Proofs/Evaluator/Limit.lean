import MiniRuby.Proofs.Evaluator.Reach

/-!
# Fuel only bounds

A task that has ended with some fuel ends in the same way with more (`perform_refines`).  So there
is one way of carrying out tasks without any fuel, `carryOut`: a task ends as it does with enough
fuel, and it halts if no fuel is enough.

* `Plan.refines`: what is done in terms of tasks keeps its outcome when more of the tasks end.
* `Perform.step_refines`: a step keeps its outcome when it is given more fuel.
* `carryOut_of_step`: `carryOut` does what its own steps do, if these end with some fuel.
-/

namespace MiniRuby

/-! ### Actions that end more often -/

namespace Action

variable {σ ε α β : Type}

/-- Where the first action ends, the second one ends in the same way. -/
def Refines (x y : Action σ ε α) : Prop := ∀ s, (x s).Ended → y s = x s

namespace Refines

theorem refl (x : Action σ ε α) : Refines x x := fun _ _ => rfl

theorem trans {x y z : Action σ ε α} (h₁ : Refines x y) (h₂ : Refines y z) : Refines x z := by
  intro s hs
  have same := h₁ s hs
  rw [← same] at hs
  exact (h₂ s hs).trans same

theorem exhaust (y : Action σ ε α) : Refines Action.exhaust y := fun _ hs => hs.elim

theorem bind {x y : Action σ ε α} {f g : α → Action σ ε β} (h : Refines x y)
    (hf : ∀ a, Refines (f a) (g a)) : Refines (x >>= f) (y >>= g) := by
  intro s hs
  rw [bind_eq_andThen] at hs ⊢
  rw [bind_eq_andThen]
  cases hx : x s with
  | done a s' =>
      rw [hx] at hs
      rw [h s (hx ▸ trivial), hx]
      exact hf a s' hs
  | failed e s' =>
      rw [h s (hx ▸ trivial), hx]
      rfl
  | halted s' =>
      rw [hx] at hs
      exact hs.elim

theorem attempt {x y : Action σ ε α} (h : Refines x y) :
    Refines (Action.attempt x) (Action.attempt y) := by
  intro s hs
  have ended : (x s).Ended := by
    rw [Action.attempt] at hs
    cases hx : x s with
    | done | failed => trivial
    | halted s' =>
        rw [hx] at hs
        exact hs
  rw [Action.attempt, Action.attempt, h s ended]

theorem ite {c : Prop} [Decidable c] {x y x' y' : Action σ ε α} (h : Refines x y)
    (h' : Refines x' y') : Refines (if c then x else x') (if c then y else y') := by
  split
  · exact h
  · exact h'

theorem each {f g : α → Action σ ε β} (h : ∀ a, Refines (f a) (g a)) (as : List α) :
    Refines (Action.each f as) (Action.each g as) := by
  induction as with
  | nil => exact refl _
  | cons a as ih =>
      rw [each_cons, each_cons]
      exact (h a).bind fun b => ih.bind fun bs => refl _

/-- A loop that has ended ends in the same way when more passes are allowed. -/
theorem untilSome (x : Action σ ε (Option α)) {n k : Nat} (h : n ≤ k) :
    Refines (Action.untilSome x n) (Action.untilSome x k) := by
  induction n generalizing k with
  | zero => exact exhaust _
  | succ n ih =>
      obtain ⟨k, rfl⟩ : ∃ j, k = j + 1 := ⟨k - 1, by omega⟩
      rw [untilSome_succ, untilSome_succ]
      refine (refl x).bind fun r => ?_
      cases r with
      | some a => exact refl _
      | none => exact ih (Nat.le_of_succ_le_succ h)

end Refines

end Action

open MiniRuby.Action (Refines)

/-! ### Steps -/

/-- Where the first way of carrying out tasks comes to an end, the second one comes to the same
end. -/
def Perform.Below (P Q : Perform) : Prop := ∀ task, Action.Refines (P task) (Q task)

/-- **What is done in terms of tasks ends in the same way** when more of these end. -/
theorem Plan.refines {passes : Failure → Prop} {α : Type} {F : Perform → Run α}
    (hF : Plan passes F) {P Q : Perform} (h : P.Below Q) : Refines (F P) (F Q) := by
  induction hF with
  | own x => exact .refl x
  | ask task => exact h task
  | seq hF hG pass ihF ihG => exact ihF.attempt.bind ihG

/-- Lines that have been written are written in the same way with more fuel. -/
theorem KernelOp.putsValue_refines (invoke : Invoke) {n k : Nat} (h : n ≤ k) (path : List ArrayId)
    (v : Value) : Refines (putsValue invoke n path v) (putsValue invoke k path v) := by
  induction n generalizing k path v with
  | zero => exact .exhaust _
  | succ n ih =>
      obtain ⟨k, rfl⟩ : ∃ j, k = j + 1 := ⟨k - 1, by omega⟩
      cases v with
      | arr id =>
          refine .ite (.refl _) ((Refines.refl _).bind fun elements => .ite (.refl _) ?_)
          exact (Refines.each (ih (Nat.le_of_succ_le_succ h) (id :: path)) _).bind fun _ => .refl _
      | _ => exact .refl _

theorem Native.run_refines (invoke : Invoke) {n k : Nat} (h : n ≤ k) (op : Native) (self : Value)
    (args : List Value) : Refines (op.run n invoke self args) (op.run k invoke self args) := by
  cases op with
  | kernel op =>
      cases op with
      | puts =>
          have lines : Refines (Action.each (KernelOp.putsValue invoke n []) args)
              (Action.each (KernelOp.putsValue invoke k []) args) :=
            .each (KernelOp.putsValue_refines invoke h []) args
          simp only [run, KernelOp.run, KernelOp.putLines]
          refine .ite ?_ ?_
          · exact (Refines.refl _).bind fun _ => lines.bind fun _ => .refl _
          · exact lines.bind fun _ => .refl _
      | _ => exact .refl _
  | _ => exact .refl _

theorem Run.nested_refines {α : Type} {x y : Run α} (h : Refines x y) :
    Refines (Run.nested x) (Run.nested y) :=
  (Refines.refl _).bind fun _ => h.attempt.bind fun _ => .refl _

theorem Perform.call_refines (P : Perform) {n k : Nat} (h : n ≤ k) (method : Method)
    (receiver : Value) (args : List Value) :
    Refines (P.call n method receiver args) (P.call k method receiver args) := by
  have entered : Refines (P.enter n method receiver args) (P.enter k method receiver args) := by
    cases method with
    | native name arity op => exact op.run_refines P.invoke h receiver args
    | defined name params body scope => exact .refl _
  refine .ite ((Refines.refl _).bind fun depth => .ite ?_ (.refl _)) (.refl _)
  exact Run.nested_refines entered

/-- **A step that has ended ends in the same way with more fuel.** -/
theorem Perform.step_refines (P : Perform) {n k : Nat} (h : n ≤ k) (task : Task) :
    Refines (P.step n task) (P.step k task) := by
  cases task with
  | eval node env =>
      cases node with
      | loop place test body => exact .untilSome _ h
      | _ => exact .refl _
  | invoke method receiver args => exact P.call_refines h method receiver args

/-- A step as a plan, whatever the task. -/
theorem Perform.plan_step (fuel : Nat) (task : Task) :
    Plan (fun f => False ∧ ∃ cause, f.signal = .fault cause) fun perform =>
      perform.step fuel task :=
  (@script_step False True fuel task nofun fun _ => trivial).plan

/-- **More fuel keeps the outcome of a task that has ended.** -/
theorem perform_refines {n k : Nat} (h : n ≤ k) : Perform.Below (perform n) (perform k) := by
  induction n generalizing k with
  | zero =>
      intro task m hm
      cases task <;> exact hm.elim
  | succ n ih =>
      obtain ⟨k, rfl⟩ : ∃ j, k = j + 1 := ⟨k - 1, by omega⟩
      have h := Nat.le_of_succ_le_succ h
      intro task
      rw [perform_succ, perform_succ]
      exact ((Perform.plan_step n task).refines (ih h)).trans
        (Perform.step_refines (perform k) h task)

/-! ### The limit -/

open Classical in
/-- Carry out a task without any bound: it ends as with enough fuel, and halts if none is
enough. -/
noncomputable def carryOut : Perform := fun task m =>
  if h : ∃ n, (perform n task m).Ended then perform h.choose task m else .halted m

theorem perform_refines_carryOut (n : Nat) : Perform.Below (perform n) carryOut := by
  intro task m hm
  have h : ∃ n, (perform n task m).Ended := ⟨n, hm⟩
  rw [carryOut, dif_pos h]
  rcases Nat.le_total n h.choose with hle | hle
  · exact perform_refines hle task m hm
  · exact (perform_refines hle task m h.choose_spec).symm

/-- Whatever happens without a bound happens with some fuel. -/
theorem exists_carryOut_eq (task : Task) (m : Machine) :
    ∃ n, carryOut task m = perform n task m := by
  by_cases h : ∃ n, (perform n task m).Ended
  · exact ⟨h.choose, by rw [carryOut, dif_pos h]⟩
  · refine ⟨0, ?_⟩
    rw [carryOut, dif_neg h]
    cases task <;> rfl

/-- What ends in terms of tasks that are carried out without a bound ends with some fuel. -/
theorem Plan.exists_eq_carryOut {passes : Failure → Prop} {α : Type} {F : Perform → Run α}
    (hF : Plan passes F) {m : Machine} (h : (F carryOut m).Ended) :
    ∃ n, F (perform n) m = F carryOut m := by
  induction hF generalizing m with
  | own x => exact ⟨0, rfl⟩
  | ask task =>
      obtain ⟨n, e⟩ := exists_carryOut_eq task m
      exact ⟨n, e.symm⟩
  | @seq α β F G hF hG pass ihF ihG =>
      have ended : (F carryOut m).Ended := by
        change (((Action.attempt (F carryOut)) m).andThen fun r => G r carryOut).Ended at h
        rw [Action.attempt] at h
        cases hx : F carryOut m with
        | done | failed => trivial
        | halted s =>
            rw [hx] at h
            exact h
      obtain ⟨r, m₁, first⟩ : ∃ r m₁, Action.attempt (F carryOut) m = .done r m₁ := by
        rw [Action.attempt]
        cases hx : F carryOut m with
        | done a s => exact ⟨_, _, rfl⟩
        | failed f s => exact ⟨_, _, rfl⟩
        | halted s =>
            rw [hx] at ended
            exact ended.elim
      have whole : ∀ Q : Perform, F Q m = F carryOut m →
          (Action.attempt (F Q) >>= fun r => G r Q) m = G r Q m₁ := by
        intro Q e
        refine Action.bind_of_done ?_
        rw [← first, Action.attempt, Action.attempt, e]
      -- Take enough fuel for the first part and for what follows it.
      obtain ⟨n₁, e₁⟩ := ihF ended
      have rest : (G r carryOut m₁).Ended := whole carryOut rfl ▸ h
      obtain ⟨n₂, e₂⟩ := ihG r rest
      have up₁ := hF.refines (perform_refines (Nat.le_max_left n₁ n₂)) m (e₁ ▸ ended)
      have up₂ := (hG r).refines (perform_refines (Nat.le_max_right n₁ n₂)) m₁ (e₂ ▸ rest)
      refine ⟨max n₁ n₂, ?_⟩
      exact ((whole _ (up₁.trans e₁)).trans (up₂.trans e₂)).trans (whole carryOut rfl).symm

/-- **Without a bound, a task does what its steps do**, if these end with some fuel. -/
theorem carryOut_of_step {fuel : Nat} {task : Task} {m : Machine}
    (h : (carryOut.step fuel task m).Ended) : carryOut task m = carryOut.step fuel task m := by
  obtain ⟨n, e⟩ := (Perform.plan_step fuel task).exists_eq_carryOut h
  have up : perform (max n fuel + 1) task m = carryOut.step fuel task m := by
    rw [perform_succ, ← e]
    have ended : (Perform.step fuel (perform n) task m).Ended := e ▸ h
    have tasks := (Perform.plan_step fuel task).refines
      (perform_refines (Nat.le_max_left n fuel)) m ended
    have fuels := Perform.step_refines (perform (max n fuel)) (Nat.le_max_right n fuel) task m
      (tasks ▸ ended)
    exact fuels.trans tasks
  exact (perform_refines_carryOut _ task m (up ▸ h)).trans up

end MiniRuby
