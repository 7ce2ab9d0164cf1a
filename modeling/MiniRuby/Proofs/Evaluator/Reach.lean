import Mathlib.Logic.Relation
import Mathlib.Tactic.ByContra
import MiniRuby.Proofs.Evaluator.Step

/-!
# The tasks that a run comes to

A step asks for a task on a machine when halting the task there halts the step, in whatever state
the task is halted in (`AsksFor`).  From this the run of a task is told as a whole: a `Moment` is a
task together with the machine that it finds and the fuel that it is given, and a moment reaches
another one when a chain of steps leads from one to the other (`Moment.Reaches`).

That a step asks for some tasks and looks into none of them is said by `Plan`, a coarse form of
`Script`: it does things of its own, asks for tasks, and goes on after what has ended.

* `Plan.asks_or_eq`: what a task does matters to a step only if the step asks for it.
* `Plan.failed_of_asks`: a failure that the step lets pass ends the step.
* `Plan.asks_before`: and nothing is asked for after it.
* `perform_of_step`, `AsksFor.requires`: what holds of a task because each step keeps it holds
  of all tasks, and what steps require of the tasks that they ask for holds of all that are reached.
-/

namespace MiniRuby

/-- The failure is the same, except that its place may have been noted. -/
structure Failure.Passes (f f' : Failure) : Prop where
  signal : f'.signal = f.signal
  span : ∀ place, f.span? = some place → f'.span? = some place

namespace Failure.Passes

/-- A failure passes as it is. -/
theorem refl (f : Failure) : f.Passes f := ⟨rfl, fun _ h => h⟩

/-- It passes through several places. -/
theorem trans {f f₁ f₂ : Failure} (h₁ : f.Passes f₁) (h₂ : f₁.Passes f₂) : f.Passes f₂ :=
  ⟨h₂.signal.trans h₁.signal, fun place h => h₂.span place (h₁.span place h)⟩

/-- It passes if it is given a place. -/
theorem locate (place : Span) (f : Failure) : f.Passes (f.locate place) := by
  refine ⟨f.signal_locate place, fun place' h => ?_⟩
  rw [Failure.locate]
  split
  · exact h
  · rename_i h'
    rw [h] at h'
    cases h'

end Failure.Passes

/-- Going on with a value is going on after what has ended. -/
theorem Action.bind_eq_attempt {σ ε α β : Type} (x : Action σ ε α) (f : α → Action σ ε β) :
    x >>= f = attempt x >>= fun r => ofExcept r >>= f := by
  funext s
  rw [attempt_bind_eq_andCatch, bind_eq_andThen]
  cases x s <;> rfl

/-- Placing failures is catching them and failing again. -/
theorem Run.located_eq_attempt {α : Type} (place : Span) (x : Run α) :
    Run.located place x =
      Action.attempt x >>= fun r => Run.located place (Action.ofExcept r) := by
  funext m
  rw [Action.attempt_bind_eq_andCatch, Run.located, Action.mapError_eq]
  cases x m <;> rfl

/-! ### Plans -/

/-- Something that is done in terms of how tasks are carried out: things of its own, tasks that are
asked for, and what follows when one of these has ended.  Failures for which `passes` holds are
not held up. -/
inductive Plan (passes : Failure → Prop) : {α : Type} → (Perform → Run α) → Prop where
  | own {α : Type} (x : Run α) : Plan passes fun _ => x
  | ask (task : Task) : Plan passes fun perform => perform task
  | seq {α β : Type} {F : Perform → Run α} {G : Except Failure α → Perform → Run β}
      (hF : Plan passes F) (hG : ∀ r, Plan passes (G r))
      (pass : ∀ f, passes f → ∀ perform m, ∃ f' d,
        G (.error f) perform m = .failed f' { m with depth := d } ∧ f.Passes f') :
      Plan passes fun perform => Action.attempt (F perform) >>= fun r => G r perform

namespace Plan

variable {passes : Failure → Prop} {α β : Type}

/-- Actions in a row are an action that is caught, and what is done with the result. -/
theorem bind_eq_seq (F : Perform → Run α) (G : α → Perform → Run β) :
    (fun perform => F perform >>= fun a => G a perform) = fun perform =>
      Action.attempt (F perform) >>= fun r => Action.ofExcept r >>= fun a => G a perform :=
  funext fun perform => Action.bind_eq_attempt (F perform) fun a => G a perform

/-- **Actions in a row** are a plan if each of them is. -/
theorem bind {F : Perform → Run α} {G : α → Perform → Run β} (hF : Plan passes F)
    (hG : ∀ a, Plan passes (G a)) :
    Plan passes fun perform => F perform >>= fun a => G a perform := by
  rw [bind_eq_seq]
  refine hF.seq (fun r => ?_) fun f _ perform m => ⟨f, m.depth, rfl, .refl f⟩
  cases r with
  | ok a => exact hG a
  | error f => exact .own (Action.fail f)

/-- A plan may place its failures. -/
theorem located {F : Perform → Run α} (place : Span) (hF : Plan passes F) :
    Plan passes fun perform => Run.located place (F perform) := by
  have same : (fun perform => Run.located place (F perform)) = fun perform =>
      Action.attempt (F perform) >>= fun r => Run.located place (Action.ofExcept r) :=
    funext fun perform => Run.located_eq_attempt place (F perform)
  rw [same]
  exact hF.seq (fun _ => .own _)
    fun f _ perform m => ⟨f.locate place, m.depth, rfl, .locate place f⟩

/-- A plan may run one level deeper. -/
theorem nested {F : Perform → Run α} (hF : Plan passes F) :
    Plan passes fun perform => Run.nested (F perform) :=
  (own _).bind fun _ => hF.seq (fun _ => .own _) fun f _ _ m => ⟨f, m.depth - 1, rfl, .refl f⟩

end Plan

/-- A script is a plan, and a strict one lets faults pass. -/
theorem Script.plan {strict endless : Prop} {frame? : Option FrameId} {α : Type}
    {F : Perform → Run α} (hF : Script strict endless frame? F) :
    Plan (fun f => strict ∧ ∃ cause, f.signal = .fault cause) F := by
  induction hF with
  | own he hd hb hf hm => exact .own _
  | ask task h => exact .ask task
  | bind hF hG ihF ihG => exact ihF.bind ihG
  | inside scope hG ihG => exact (Plan.own _).bind ihG
  | located place hF ih => exact ih.located place
  | nested hF ih => exact ih.nested
  | catching hF hG pass ihF ihG =>
      refine ihF.seq ihG fun f hf perform m => ?_
      obtain ⟨hs, cause, hc⟩ := hf
      exact ⟨f, m.depth, pass hs f cause hc perform m, .refl f⟩

/-- A native method lets all failures pass. -/
theorem Calls.plan {endless : Prop} {α : Type} {F : Invoke → Run α} (hF : Calls endless F) :
    Plan (fun _ => True) fun perform => F perform.invoke := by
  induction hF with
  | quiet hx => exact .own _
  | exhaust h => exact .own _
  | call method receiver args => exact .ask (.invoke method receiver args)
  | bind hF hG ihF ihG => exact ihF.bind ihG

/-! ### Asking for a task -/

open Classical in
/-- Carry out tasks as before, but let one task halt on one machine, in the given state. -/
noncomputable def Perform.haltingAt (P : Perform) (task : Task) (s mark : Machine) : Perform :=
  fun t m => if t = task ∧ m = s then .halted mark else P t m

/-- Whether a task is asked for on a machine `s`, from a machine `m` on: when the task is halted
there, all is halted, in whatever state that is. -/
def AsksFor {α : Type} (F : Perform → Run α) (P : Perform) (m : Machine) (task : Task)
    (s : Machine) : Prop :=
  ∀ mark, F (P.haltingAt task s mark) m = .halted mark

/-- What does the same on a machine asks for the same tasks there. -/
theorem AsksFor.congr {α : Type} {F G : Perform → Run α} {m : Machine} (h : ∀ Q, F Q m = G Q m)
    {P : Perform} {task : Task} {s : Machine} :
    AsksFor F P m task s ↔ AsksFor G P m task s :=
  forall_congr' fun mark => Iff.of_eq (congrArg (· = .halted mark) (h _))

namespace Perform

variable (P : Perform)

/-- The mark is put at the task and the machine that are looked for. -/
@[simp] theorem haltingAt_self (task : Task) (s mark : Machine) :
    P.haltingAt task s mark task s = .halted mark := by
  simp [haltingAt]

/-- All others are performed as before. -/
theorem haltingAt_of_ne {task t : Task} {s m : Machine} (mark : Machine)
    (h : ¬ (t = task ∧ m = s)) : P.haltingAt task s mark t m = P t m := by
  simp only [haltingAt, if_neg h]

/-- Two tasks are halted in either order. -/
theorem haltingAt_comm {task₁ task₂ : Task} {s₁ s₂ : Machine} (mark₁ mark₂ : Machine)
    (hne : ¬ (task₁ = task₂ ∧ s₁ = s₂)) :
    (P.haltingAt task₁ s₁ mark₁).haltingAt task₂ s₂ mark₂ =
      (P.haltingAt task₂ s₂ mark₂).haltingAt task₁ s₁ mark₁ := by
  funext t m
  by_cases h₁ : t = task₁ ∧ m = s₁
  · have h₂ : ¬ (t = task₂ ∧ m = s₂) := fun h₂ =>
      hne ⟨h₁.1.symm.trans h₂.1, h₁.2.symm.trans h₂.2⟩
    simp only [haltingAt, if_pos h₁, if_neg h₂]
  · simp only [haltingAt, if_neg h₁]

end Perform

/-- Nothing is halted in every state. -/
theorem Outcome.not_forall_halted {ε α : Type} {o : Outcome Machine ε α} (m : Machine)
    (h : ∀ mark, o = .halted mark) : False := by
  have e : (.halted m : Outcome Machine ε α) = .halted { m with depth := m.depth + 1 } :=
    (h m).symm.trans (h _)
  injection e with e
  have hd := congrArg Machine.depth e
  exact Nat.succ_ne_self _ hd.symm

namespace Plan

variable {passes : Failure → Prop} {α β : Type} {F : Perform → Run α}
  {G : Except Failure α → Perform → Run β} {P : Perform} {m s : Machine} {task : Task}

/-- A task on its own is asked for, and no other. -/
theorem asks_ask_iff {task' : Task} :
    AsksFor (fun perform => perform task') P m task s ↔ task' = task ∧ m = s := by
  constructor
  · intro h
    by_contra hne
    refine Outcome.not_forall_halted (o := P task' m) m fun mark => ?_
    exact (P.haltingAt_of_ne mark hne).symm.trans (h mark)
  · rintro ⟨rfl, rfl⟩ mark
    exact P.haltingAt_self task' m mark

/-- What runs by itself asks for no task. -/
theorem not_asks_own {x : Run α} : ¬ AsksFor (fun _ => x) P m task s :=
  fun h => Outcome.not_forall_halted m h

/-- **What a task does matters only if it is asked for.** -/
theorem asks_or_eq (hF : Plan passes F) (P : Perform) (m : Machine) (task : Task) (s : Machine) :
    AsksFor F P m task s ∨ ∀ mark, F (P.haltingAt task s mark) m = F P m := by
  induction hF generalizing m with
  | own x => exact .inr fun _ => rfl
  | ask task' =>
      by_cases h : task' = task ∧ m = s
      · exact .inl (asks_ask_iff.mpr h)
      · exact .inr fun mark => P.haltingAt_of_ne mark h
  | @seq α β F G hF hG pass ihF ihG =>
      have eq : ∀ Q : Perform, (Action.attempt (F Q) >>= fun r => G r Q) m =
          (F Q m).andCatch fun r => G r Q := fun Q => Action.attempt_bind_eq_andCatch _ _ m
      -- Either the first part halts, or it ends as before and what follows starts from there.
      rcases ihF m with h | h
      · refine .inl fun mark => (eq _).trans ?_
        rw [h mark]
        rfl
      · simp only [AsksFor, eq, h]
        cases F P m with
        | done a m₁ => exact ihG (.ok a) m₁
        | failed f m₁ => exact ihG (.error f) m₁
        | halted m₁ => exact .inr fun _ => rfl

/-- A task is asked for at first, or after what came first has ended. -/
theorem asks_seq_iff (hF : Plan passes F) :
    AsksFor (fun perform => Action.attempt (F perform) >>= fun r => G r perform) P m task s ↔
      AsksFor F P m task s ∨
        ∃ r m₁, Action.attempt (F P) m = .done r m₁ ∧ AsksFor (G r) P m₁ task s := by
  have eq : ∀ Q : Perform, (Action.attempt (F Q) >>= fun r => G r Q) m =
      (F Q m).andCatch fun r => G r Q := fun Q => Action.attempt_bind_eq_andCatch _ _ m
  rcases hF.asks_or_eq P m task s with hl | hr
  · refine ⟨fun _ => .inl hl, fun _ mark => (eq _).trans ?_⟩
    rw [hl mark]
    rfl
  · have none : ¬ AsksFor F P m task s := fun h =>
      Outcome.not_forall_halted m fun mark => (hr mark).symm.trans (h mark)
    simp only [none, false_or]
    simp only [AsksFor, eq, hr, Action.attempt]
    cases F P m with
    | done a m₁ =>
        refine ⟨fun h => ⟨.ok a, m₁, rfl, h⟩, ?_⟩
        rintro ⟨r, m₁, e, h⟩
        cases e
        exact h
    | failed f m₁ =>
        refine ⟨fun h => ⟨.error f, m₁, rfl, h⟩, ?_⟩
        rintro ⟨r, m₁, e, h⟩
        cases e
        exact h
    | halted m₁ =>
        refine ⟨fun h => (Outcome.not_forall_halted m h).elim, ?_⟩
        rintro ⟨r, m₁, e, -⟩
        cases e

/-- **Actions in a row** ask for what the first asks for, and then for what the second does. -/
theorem asks_bind_iff {G : α → Perform → Run β} (hF : Plan passes F) :
    AsksFor (fun perform => F perform >>= fun a => G a perform) P m task s ↔
      AsksFor F P m task s ∨ ∃ a m₁, F P m = .done a m₁ ∧ AsksFor (G a) P m₁ task s := by
  rw [bind_eq_seq, asks_seq_iff hF]
  refine or_congr_right ⟨?_, ?_⟩
  · rintro ⟨r | a, m₁, e, h⟩
    · exact (Outcome.not_forall_halted m h).elim
    · refine ⟨a, m₁, ?_, h⟩
      simp only [Action.attempt] at e
      cases hx : F P m <;> rw [hx] at e <;> cases e
      rfl
  · rintro ⟨a, m₁, e, h⟩
    exact ⟨.ok a, m₁, by simp only [Action.attempt, e], h⟩

/-- A nested action asks one level deeper. -/
theorem asks_nested_iff :
    AsksFor (fun perform => Run.nested (F perform)) P m task s ↔
      AsksFor F P { m with depth := m.depth + 1 } task s := by
  refine forall_congr' fun mark => ?_
  simp only [Run.nested_apply]
  cases F (P.haltingAt task s mark) { m with depth := m.depth + 1 } <;> simp [Outcome.leave]

/-- Placing failures asks for nothing more. -/
theorem asks_located_iff {place : Span} :
    AsksFor (fun perform => Run.located place (F perform)) P m task s ↔ AsksFor F P m task s := by
  refine forall_congr' fun mark => ?_
  simp only [Run.located, Action.mapError_eq]
  cases F (P.haltingAt task s mark) m <;> simp [Outcome.mapError]

/-- Two ways of carrying out tasks that agree on the tasks that are asked for come to the same. -/
theorem eq_of_asks {P' : Perform} (hF : Plan passes F)
    (h : ∀ task s, AsksFor F P m task s → P' task s = P task s) : F P' m = F P m := by
  induction hF generalizing m with
  | own x => rfl
  | ask task => exact h task m (asks_ask_iff.mpr ⟨rfl, rfl⟩)
  | @seq α β F G hF hG pass ihF ihG =>
      have first : F P' m = F P m := ihF fun task s ha => h task s ((asks_seq_iff hF).mpr (.inl ha))
      have rest : ∀ r m₁, Action.attempt (F P) m = .done r m₁ → G r P' m₁ = G r P m₁ :=
        fun r m₁ e => ihG r fun task s ha =>
          h task s ((asks_seq_iff hF).mpr (.inr ⟨r, m₁, e, ha⟩))
      simp only [Action.attempt_bind_eq_andCatch, first]
      cases e : F P m with
      | done a m₁ => exact rest (.ok a) m₁ (by simp only [Action.attempt, e])
      | failed f m₁ => exact rest (.error f) m₁ (by simp only [Action.attempt, e])
      | halted m₁ => rfl

/-- Where a task has been halted, no more tasks are asked for than otherwise. -/
theorem asks_of_haltingAt (hF : Plan passes F) {task' : Task} {s' mark : Machine}
    (h : AsksFor F (P.haltingAt task' s' mark) m task s) : AsksFor F P m task s := by
  induction hF generalizing m with
  | own x => exact (not_asks_own h).elim
  | ask task₁ => exact asks_ask_iff.mpr (asks_ask_iff.mp h)
  | @seq α β F G hF hG pass ihF ihG =>
      rw [asks_seq_iff hF] at h ⊢
      rcases h with h | ⟨r, m₁, e, h⟩
      · exact .inl (ihF h)
      · refine .inr ⟨r, m₁, ?_, ihG r h⟩
        rcases hF.asks_or_eq P m task' s' with h' | h'
        · simp only [Action.attempt, h' mark] at e
          cases e
        · simpa only [Action.attempt, h' mark] using e

/-- Halting a task that is not asked for changes nothing about the others. -/
theorem asks_haltingAt (hF : Plan passes F) {task' : Task} {s' : Machine}
    (h' : ¬ AsksFor F P m task' s') (h : AsksFor F P m task s) (mark' : Machine) :
    AsksFor F (P.haltingAt task' s' mark') m task s := by
  intro mark
  have hne : ¬ (task' = task ∧ s' = s) := by
    rintro ⟨rfl, rfl⟩
    exact h' h
  rw [P.haltingAt_comm mark' mark hne]
  rcases hF.asks_or_eq (P.haltingAt task s mark) m task' s' with ha | he
  · exact (h' (hF.asks_of_haltingAt ha)).elim
  · exact (he mark').trans (h mark)

/-- **A failure passes.**  When a task is asked for and fails in a way that is let pass, all fails
in the same way; only the number of open calls differs. -/
theorem failed_of_asks (hF : Plan passes F)
    (closed : ∀ {f f' : Failure}, passes f → f.Passes f' → passes f') {f : Failure}
    {m' : Machine} (h : AsksFor F P m task s) (hp : P task s = .failed f m') (hf : passes f) :
    ∃ f' d, F P m = .failed f' { m' with depth := d } ∧ f.Passes f' := by
  induction hF generalizing m with
  | own x => exact (not_asks_own h).elim
  | ask task' =>
      obtain ⟨rfl, rfl⟩ := asks_ask_iff.mp h
      exact ⟨f, m'.depth, hp, .refl f⟩
  | @seq α β F G hF hG pass ihF ihG =>
      have eq : (Action.attempt (F P) >>= fun r => G r P) m = (F P m).andCatch fun r => G r P :=
        Action.attempt_bind_eq_andCatch _ _ m
      rcases (asks_seq_iff hF).mp h with h | ⟨r, m₁, e, h⟩
      · obtain ⟨f₁, d₁, e₁, h₁⟩ := ihF h
        obtain ⟨f₂, d₂, e₂, h₂⟩ := pass f₁ (closed hf h₁) P { m' with depth := d₁ }
        refine ⟨f₂, d₂, eq.trans ?_, h₁.trans h₂⟩
        rw [e₁]
        exact e₂
      · obtain ⟨f₁, d₁, e₁, h₁⟩ := ihG r h
        refine ⟨f₁, d₁, (Action.bind_eq_andThen _ _ m).trans ?_, h₁⟩
        rw [e]
        exact e₁

/-- **Nothing comes after a failure that passes.**  All that is asked for is asked for before the
task that fails, even when that one is halted. -/
theorem asks_before (hF : Plan passes F)
    (closed : ∀ {f f' : Failure}, passes f → f.Passes f' → passes f') {f : Failure}
    {m' : Machine} (h : AsksFor F P m task s) (hp : P task s = .failed f m') (hf : passes f)
    {task' : Task} {s' : Machine} (h' : AsksFor F P m task' s') (mark : Machine) :
    (task' = task ∧ s' = s) ∨ AsksFor F (P.haltingAt task s mark) m task' s' := by
  induction hF generalizing m with
  | own x => exact (not_asks_own h).elim
  | ask task₁ =>
      obtain ⟨rfl, rfl⟩ := asks_ask_iff.mp h
      obtain ⟨rfl, rfl⟩ := asks_ask_iff.mp h'
      exact .inl ⟨rfl, rfl⟩
  | @seq α β F G hF hG pass ihF ihG =>
      rw [asks_seq_iff hF] at h h' ⊢
      by_cases hask : AsksFor F P m task s
      · -- The first part fails, so that what follows it asks for nothing.
        obtain ⟨f₁, d₁, e₁, h₁⟩ := hF.failed_of_asks closed hask hp hf
        rcases h' with h' | ⟨r, m₁, e, h'⟩
        · exact (ihF hask h').imp_right .inl
        · simp only [Action.attempt, e₁] at e
          cases e
          have e' := h' m
          obtain ⟨f₂, d₂, e₂, -⟩ := pass f₁ (closed hf h₁) (P.haltingAt task' s' m) _
          rw [e₂] at e'
          cases e'
      · obtain ⟨r, m₁, e, h⟩ := h.resolve_left hask
        have same : Action.attempt (F (P.haltingAt task s mark)) m = .done r m₁ := by
          have := (hF.asks_or_eq P m task s).resolve_left hask mark
          simpa only [Action.attempt, this] using e
        rcases h' with h' | ⟨r', m₁', e', h'⟩
        · exact .inr (.inl (hF.asks_haltingAt hask h' mark))
        · rw [e] at e'
          cases e'
          exact (ihG r h h').imp_right fun h'' => .inr ⟨r, m₁, same, h''⟩

end Plan

/-! ### Moments -/

/-- A task, the machine that it finds, and the fuel that it is given. -/
structure Moment where
  fuel : Nat
  task : Task
  machine : Machine

namespace Moment

/-- How the task of a moment ends. -/
def outcome (x : Moment) : Outcome Machine Failure Value := perform x.fuel x.task x.machine

/-- A moment asks for another one when a step of its task does. -/
def Asks (x y : Moment) : Prop :=
  x.fuel = y.fuel + 1 ∧
    AsksFor (fun perform => perform.step y.fuel x.task) (perform y.fuel) x.machine y.task y.machine

/-- A moment asks for a moment `y` before it has asked for a moment `z`: also when `z` is
halted. -/
def AsksBefore (x y z : Moment) : Prop :=
  x.fuel = y.fuel + 1 ∧
    AsksFor (fun perform => perform.step y.fuel x.task)
      (Perform.haltingAt (perform y.fuel) z.task z.machine z.machine) x.machine y.task y.machine

/-- A chain of steps leads from one moment to another. -/
def Reaches : Moment → Moment → Prop := Relation.ReflTransGen Asks

/-- A moment that asks for another is a step with fuel left. -/
theorem outcome_of_asks {x y : Moment} (h : x.Asks y) :
    x.outcome = Perform.step y.fuel (perform y.fuel) x.task x.machine := by
  rw [outcome, h.1, perform_succ]

end Moment

/-! ### What steps keep -/

section Contract

variable {pre : Task → Machine → Prop}
  {post : Task → Machine → Outcome Machine Failure Value → Prop}

/-- What a step keeps, given that the tasks that it asks for keep it, all tasks keep. -/
theorem perform_of_step
    (step : ∀ fuel (P : Perform), (∀ t m, pre t m → post t m (P t m)) →
      ∀ t m, pre t m → post t m (P.step fuel t m))
    (halted : ∀ t m, pre t m → post t m (.halted m)) (fuel : Nat) (task : Task) (m : Machine)
    (h : pre task m) : post task m (perform fuel task m) := by
  induction fuel generalizing task m with
  | zero => cases task <;> exact halted _ m h
  | succ fuel ih =>
      rw [perform_succ]
      exact step fuel (perform fuel) ih task m h

/-- What is required of tasks so that they keep something is true of the tasks that are asked for:
a task of which it is not may end as badly as can be, without any harm. -/
theorem AsksFor.requires {bad : Machine} (hbad : ∀ t m, ¬ post t m (.halted bad))
    (step : ∀ fuel (P : Perform), (∀ t m, pre t m → post t m (P t m)) →
      ∀ t m, pre t m → post t m (P.step fuel t m))
    {P : Perform} (hP : ∀ t m, pre t m → post t m (P t m)) {fuel : Nat} {task task' : Task}
    {m s : Machine} (h : AsksFor (fun perform => perform.step fuel task) P m task' s)
    (hm : pre task m) : pre task' s := by
  by_contra hs
  -- Let the task halt on the bad machine: all tasks keep the contract, so the step has to keep it.
  refine hbad task m ?_
  rw [← h bad]
  refine step fuel _ (fun t m ht => ?_) task m hm
  have other : ¬ (t = task' ∧ m = s) := by
    rintro ⟨rfl, rfl⟩
    exact hs ht
  have same := P.haltingAt_of_ne bad other
  exact same ▸ hP t m ht

end Contract

end MiniRuby
