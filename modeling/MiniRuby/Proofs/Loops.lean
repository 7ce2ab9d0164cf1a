import MiniRuby.Proofs.Evaluator.Evaluates
import MiniRuby.Proofs.Evaluator.Program
import Mathlib.Logic.Relation

/-!
# What loops catch

A loop makes passes.  A pass evaluates the test and, if that holds, the body; the loop goes on when
the body has a value or says `next` (`Passes`), and otherwise the pass is the last one (`Finishes`).
Only the body is evaluated in reach of the loop: `break` and `next` in the test are nothing that the
loop catches, and they end it as a failure does.

* `loop_iff`: a loop makes passes and then the last one.
* `jump_leaves_loop_iff`: `break` and `next` leave a loop exactly if its test says so, and in its
body the one ends the loop and the other goes on with it.
-/

namespace MiniRuby

/-- The signals that are meant for a loop. -/
inductive Signal.ForLoop : Signal → Prop where
  | broke (v : Value) : ForLoop (.broke v)
  | skipped (v : Value) : ForLoop (.skipped v)

/-- A pass after which the loop goes on. -/
inductive Passes (env : Env) (test body : Node) (m m' : Machine) : Prop where
  | value {v w : Value} {m₁ : Machine} (tested : Evaluates env test m (.ok v) m₁)
      (holds : v.truthy = true) (ends : Evaluates env body m₁ (.ok w) m')
  | next {v w : Value} {place? : Option Span} {m₁ : Machine}
      (tested : Evaluates env test m (.ok v) m₁) (holds : v.truthy = true)
      (ends : Evaluates env body m₁ (.error ⟨.skipped w, place?⟩) m')

/-- The last pass of a loop, and how the loop ends with it. -/
inductive Finishes (env : Env) (test body : Node) (m : Machine) :
    Except Failure Value → Machine → Prop where
  | stops {v : Value} {m' : Machine} (tested : Evaluates env test m (.ok v) m')
      (fails : v.truthy = false) : Finishes env test body m (.ok .nil) m'
  | breaks {v w : Value} {place? : Option Span} {m₁ m' : Machine}
      (tested : Evaluates env test m (.ok v) m₁) (holds : v.truthy = true)
      (ends : Evaluates env body m₁ (.error ⟨.broke w, place?⟩) m') :
      Finishes env test body m (.ok w) m'
  | fails {v : Value} {f : Failure} {m₁ m' : Machine} (tested : Evaluates env test m (.ok v) m₁)
      (holds : v.truthy = true) (ends : Evaluates env body m₁ (.error f) m')
      (other : ¬ f.signal.ForLoop) : Finishes env test body m (.error f) m'
  | untested {f : Failure} {m' : Machine} (tested : Evaluates env test m (.error f) m') :
      Finishes env test body m (.error f) m'

namespace Action

variable {σ ε α : Type}

/-- Something that is done until it answers a value is done for some time without an answer, and
then for a last time. -/
theorem untilSome_eq_of_iff {x : Action σ ε (Option α)} {r : Except ε α} {s s' : σ} :
    (∃ fuel, untilSome x fuel s = .of r s') ↔
      ∃ s₁, Relation.ReflTransGen (fun s s₁ => x s = .of (.ok none) s₁) s s₁ ∧
        x s₁ = .of (some <$> r) s' := by
  constructor
  · rintro ⟨fuel, h⟩
    induction fuel generalizing s with
    | zero => cases r <;> cases h
    | succ fuel ih =>
        rw [untilSome_succ] at h
        rcases bind_eq_of_iff.mp h with ⟨none | a, s₁, first, rest⟩ | ⟨e, first, rfl⟩
        · obtain ⟨s₂, passes, last⟩ := ih rest
          exact ⟨s₂, .head first passes, last⟩
        · obtain ⟨rfl, rfl⟩ := pure_eq_of_iff.mp rest
          exact ⟨s, .refl, first⟩
        · exact ⟨s, .refl, first⟩
  · rintro ⟨s₁, passes, last⟩
    induction passes using Relation.ReflTransGen.head_induction_on with
    | refl =>
        refine ⟨1, ?_⟩
        rw [untilSome_succ, bind_eq_of_iff]
        cases r with
        | ok a => exact .inl ⟨some a, s', last, rfl⟩
        | error e => exact .inr ⟨e, last, rfl⟩
    | head first _ ih =>
        obtain ⟨fuel, h⟩ := ih
        refine ⟨fuel + 1, ?_⟩
        rw [untilSome_succ, bind_eq_of_iff]
        exact .inl ⟨none, _, first, h⟩

end Action

section loops

variable {env : Env} {place : Span} {test body : Node} {m m' : Machine}

open MiniRuby.Action (pure_eq_of_iff fail_eq_of_iff bind_eq_of_iff attempt_bind_eq_of_iff)

/-- What the body of a loop makes of a pass. -/
theorem pass_iff {r : Except Failure (Option Value)} :
    carryOut.pass env test body m = .of r m' ↔
      r = .ok none ∧ Passes env test body m m' ∨
        ∃ r', r = some <$> r' ∧ Finishes env test body m r' m' := by
  rw [Perform.pass, bind_eq_of_iff]
  constructor
  · rintro (⟨v, m₁, tested, h⟩ | ⟨f, tested, rfl⟩)
    · have tested := evaluates_iff_carryOut.mpr tested
      cases holds : v.truthy with
      | false =>
          rw [holds] at h
          obtain ⟨rfl, rfl⟩ := pure_eq_of_iff.mp h
          exact .inr ⟨.ok .nil, rfl, .stops tested holds⟩
      | true =>
          rw [holds] at h
          obtain ⟨ended, m₂, ends, h⟩ := attempt_bind_eq_of_iff.mp h
          have ends := evaluates_iff_carryOut.mpr ends
          match ended with
          | .ok w =>
              obtain ⟨rfl, rfl⟩ := pure_eq_of_iff.mp h
              exact .inl ⟨rfl, .value tested holds ends⟩
          | .error ⟨.broke w, place?⟩ =>
              obtain ⟨rfl, rfl⟩ := pure_eq_of_iff.mp h
              exact .inr ⟨.ok w, rfl, .breaks tested holds ends⟩
          | .error ⟨.skipped w, place?⟩ =>
              obtain ⟨rfl, rfl⟩ := pure_eq_of_iff.mp h
              exact .inl ⟨rfl, .next tested holds ends⟩
          | .error ⟨.fault _, _⟩ | .error ⟨.raised _, _⟩ | .error ⟨.returned _, _⟩ =>
              obtain ⟨rfl, rfl⟩ := fail_eq_of_iff.mp h
              exact .inr ⟨.error _, rfl, .fails tested holds ends nofun⟩
    · exact .inr ⟨.error f, rfl, .untested (evaluates_iff_carryOut.mpr tested)⟩
  · rintro (⟨rfl, h⟩ | ⟨r', rfl, h⟩)
    · refine .inl ?_
      cases h with
      | value tested holds ends =>
          refine ⟨_, _, evaluates_iff_carryOut.mp tested, ?_⟩
          rw [holds]
          exact attempt_bind_eq_of_iff.mpr ⟨_, m', evaluates_iff_carryOut.mp ends, rfl⟩
      | next tested holds ends =>
          refine ⟨_, _, evaluates_iff_carryOut.mp tested, ?_⟩
          rw [holds]
          exact attempt_bind_eq_of_iff.mpr ⟨_, m', evaluates_iff_carryOut.mp ends, rfl⟩
    · cases h with
      | stops tested fails =>
          refine .inl ⟨_, _, evaluates_iff_carryOut.mp tested, ?_⟩
          rw [fails]
          rfl
      | breaks tested holds ends =>
          refine .inl ⟨_, _, evaluates_iff_carryOut.mp tested, ?_⟩
          rw [holds]
          exact attempt_bind_eq_of_iff.mpr ⟨_, m', evaluates_iff_carryOut.mp ends, rfl⟩
      | @fails v f _ _ tested holds ends other =>
          refine .inl ⟨_, _, evaluates_iff_carryOut.mp tested, ?_⟩
          rw [holds]
          refine attempt_bind_eq_of_iff.mpr ⟨_, m', evaluates_iff_carryOut.mp ends, ?_⟩
          match f with
          | ⟨.broke w, _⟩ => exact absurd (.broke w) other
          | ⟨.skipped w, _⟩ => exact absurd (.skipped w) other
          | ⟨.fault _, _⟩ | ⟨.raised _, _⟩ | ⟨.returned _, _⟩ => rfl
      | untested tested => exact .inr ⟨_, evaluates_iff_carryOut.mp tested, rfl⟩

theorem pass_goesOn_iff :
    carryOut.pass env test body m = .of (.ok none) m' ↔ Passes env test body m m' := by
  rw [pass_iff]
  constructor
  · rintro (⟨-, h⟩ | ⟨r' | r', e, -⟩)
    · exact h
    · cases e
    · cases e
  · exact fun h => .inl ⟨rfl, h⟩

theorem pass_finishes_iff {r : Except Failure Value} :
    carryOut.pass env test body m = .of (some <$> r) m' ↔ Finishes env test body m r m' := by
  rw [pass_iff]
  constructor
  · rintro (⟨e, -⟩ | ⟨r', e, h⟩)
    · cases r <;> cases e
    · cases r <;> cases r' <;> cases e <;> exact h
  · exact fun h => .inr ⟨r, rfl, h⟩

/-- **A loop makes passes and then the last one**, and it ends as that one does. -/
theorem loop_iff {r : Except Failure Value} :
    Evaluates env (.loop place test body) m r m' ↔
      ∃ m₁, Relation.ReflTransGen (Passes env test body) m m₁ ∧
        Finishes env test body m₁ r m' := by
  rw [evaluates_iff_step]
  simp only [Perform.node, Action.untilSome_eq_of_iff, pass_goesOn_iff, pass_finishes_iff]

/-- One pass leads to one machine. -/
theorem Passes.unique {m₁ : Machine} (h : Passes env test body m m')
    (h₁ : Passes env test body m m₁) : m₁ = m' := by
  have none := Outcome.of_inj ((pass_goesOn_iff.mpr h₁).symm.trans (pass_goesOn_iff.mpr h))
  exact none.2

/-- A pass after which the loop goes on is not the last one. -/
theorem Passes.not_finishes {r : Except Failure Value} {m₁ : Machine}
    (h : Passes env test body m m') : ¬ Finishes env test body m r m₁ := by
  intro last
  have both := Outcome.of_inj ((pass_goesOn_iff.mpr h).symm.trans (pass_finishes_iff.mpr last))
  cases r <;> cases both.1

/-- After a pass a loop is a loop from there. -/
theorem Passes.loop_iff_loop {r : Except Failure Value} {m₁ : Machine}
    (h : Passes env test body m m₁) :
    Evaluates env (.loop place test body) m r m' ↔
      Evaluates env (.loop place test body) m₁ r m' := by
  rw [loop_iff, loop_iff]
  constructor
  · rintro ⟨m₂, passes, last⟩
    rcases passes.cases_head with rfl | ⟨m₃, first, rest⟩
    · exact absurd last h.not_finishes
    · obtain rfl := h.unique first
      exact ⟨m₂, rest, last⟩
  · rintro ⟨m₂, passes, last⟩
    exact ⟨m₂, .head h passes, last⟩

/-- A last pass ends with a signal for loops only if the test does. -/
theorem finishes_jump_iff {f : Failure} (jump : f.signal.ForLoop) :
    Finishes env test body m (.error f) m' ↔ Evaluates env test m (.error f) m' := by
  constructor
  · rintro (_ | _ | ⟨-, -, -, other⟩ | tested)
    · exact absurd jump other
    · exact tested
  · exact .untested

end loops

/-- **`break` and `next` leave a loop exactly if its test says so**, in the pass that is the last
one for that reason.  Where the test holds and the body says it, they do not leave the loop: `break`
ends it with the value, and after `next` it goes on. -/
theorem jump_leaves_loop_iff (env : Env) (place : Span) (test body : Node) (m m' : Machine)
    (f : Failure) (jump : f.signal.ForLoop) :
    (Evaluates env (.loop place test body) m (.error f) m' ↔
      ∃ m₁, Relation.ReflTransGen (Passes env test body) m m₁ ∧
        Evaluates env test m₁ (.error f) m') ∧
    ∀ v m₁, Evaluates env test m (.ok v) m₁ → v.truthy = true →
      Evaluates env body m₁ (.error f) m' →
      (∀ w, f.signal = .broke w → Evaluates env (.loop place test body) m (.ok w) m') ∧
      ∀ w, f.signal = .skipped w → ∀ r m₂, Evaluates env (.loop place test body) m r m₂ ↔
        Evaluates env (.loop place test body) m' r m₂ := by
  constructor
  · simp only [loop_iff, finishes_jump_iff jump]
  · intro v m₁ tested holds ends
    obtain ⟨signal, place?⟩ := f
    constructor
    · rintro w rfl
      exact loop_iff.mpr ⟨m, .refl, .breaks tested holds ends⟩
    · rintro w rfl r m₂
      exact (Passes.next tested holds ends).loop_iff_loop

/-- A `break` in the test leaves the loop. -/
theorem break_leaves_loop :
    Evaluates .top (.loop ⟨0, 19⟩ (.breakWith ⟨7, 13⟩ (.int ⟨13, 13⟩ 5)) (.nil ⟨16, 16⟩))
      (.bare (.collecting "")) (.error ⟨.broke (.int 5), some ⟨7, 13⟩⟩) (.bare (.collecting "")) :=
  (jump_leaves_loop_iff .top ⟨0, 19⟩ _ _ _ _ ⟨.broke (.int 5), some ⟨7, 13⟩⟩ (.broke _)).1.mpr
    ⟨_, .refl, 2, rfl⟩

-- So nothing has caught it when the program ends.
example : (Session.parse "" "while (break 5)\nend" (.boot (.collecting ""))).DoneWith fun node m =>
    ((Run.evalProgram node) m).fault? = some .strayBreak := by
  decide +kernel

end MiniRuby
