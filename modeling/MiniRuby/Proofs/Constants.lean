import MiniRuby.Proofs.Evaluator.Evaluates
import MiniRuby.Proofs.Evaluator.Program

/-!
# What a class definition and its constant stand for

A class definition looks for a class that bears the name, and makes one if there is none (`Opens`);
it does not look at the constants that have been set.  A constant is looked for among these first,
and only then among the classes.  So the two agree as long as the constant has not been set to
something else, by an assignment before the definition or in its body.

* `classDef_iff`: a class definition opens a class and evaluates its body in it.
* `constant_after_classDef`: what the constant stands for afterwards.
-/

namespace MiniRuby

/-- The class that is asked for above the one that is defined, if any is. -/
inductive Above (env : Env) : Option Node → Machine → Option ClassId → Machine → Prop where
  | none {m : Machine} : Above env none m none m
  | some {node : Node} {p : ClassId} {m m₁ : Machine}
      (is : Evaluates env node m (.ok (.cls p)) m₁) : Above env (some node) m (some p) m₁

/-- The class that a definition opens, where it has been asked for a class above: the class of that
name, which has to be below the one that is asked for, or a new class. -/
inductive Opens (name : NameId) (above : Option ClassId) (m : Machine) :
    ClassId → Machine → Prop where
  | reopens {c : ClassId} (found : m.classes.find? (m.names.text name) = some c)
      (agrees : above = none ∨ m.classes.parent? c = above) : Opens name above m c m
  | creates (free : m.classes.find? (m.names.text name) = none) :
      Opens name above m ⟨m.classes.classes.size⟩
        { m with
          classes := (m.classes.register (m.names.text name) (m.names.text name)
            (some (above.getD .object)) none).2 }

/-- The machine on which the body of a definition is evaluated: it has a new frame. -/
def Machine.framed (m : Machine) (scope : Scope) : Machine :=
  { m with frames := (m.frames.child scope).2 }

section definitions

variable {env : Env} {place : Span} {name : NameId} {parent? : Option Node} {body : Node}
  {m m' : Machine}

open MiniRuby.Action (bind_eq_done)

theorem above_iff {above : Option ClassId} :
    (match parent? with
      | some node => some <$> carryOut.parentClass env node
      | none => pure none : Run (Option ClassId)) m = .done above m' ↔
      Above env parent? m above m' := by
  cases parent? with
  | none =>
      constructor
      · rintro ⟨⟩
        exact .none
      · rintro ⟨⟩
        rfl
  | some node =>
      simp only [map_eq_pure_bind, bind_eq_done, Perform.parentClass]
      constructor
      · rintro ⟨p, m₂, ⟨v, m₁, is, h⟩, ⟨⟩⟩
        cases v with
        | cls c =>
            cases h
            exact .some (evaluates_iff_carryOut.mpr is)
        | _ => cases h
      · rintro (_ | is)
        exact ⟨_, _, ⟨_, _, evaluates_iff_carryOut.mp is, rfl⟩, rfl⟩

theorem openClass_of_free {above : Option ClassId}
    (free : m.classes.find? (m.names.text name) = none) :
    Perform.openClass name above m = .done ⟨m.classes.classes.size⟩
      { m with
        classes := (m.classes.register (m.names.text name) (m.names.text name)
          (some (above.getD .object)) none).2 } := by
  simp only [Perform.openClass, Action.bind_apply, Action.view, free]
  rfl

theorem openClass_of_found {above : Option ClassId} {c : ClassId}
    (found : m.classes.find? (m.names.text name) = some c) :
    Perform.openClass name above m =
      (if above.isNone || m.classes.parent? c == above then pure c
        else Run.fault (.parentMismatch (m.names.text name)) : Run ClassId) m := by
  simp only [Perform.openClass, Action.bind_apply, Action.view, found]

theorem opens_iff {above : Option ClassId} {c : ClassId} :
    Run.located place (Perform.openClass name above) m = .done c m' ↔ Opens name above m c m' := by
  rw [Run.located, Action.mapError_eq_done_iff]
  cases found : m.classes.find? (m.names.text name) with
  | none =>
      rw [openClass_of_free found]
      constructor
      · rintro ⟨⟩
        exact .creates found
      · rintro (⟨found', -⟩ | -)
        · cases found.symm.trans found'
        · rfl
  | some c' =>
      rw [openClass_of_found found]
      split
      · rename_i agrees
        constructor
        · rintro ⟨⟩
          exact .reopens found (by simpa using agrees)
        · rintro (⟨found', -⟩ | free)
          · cases found.symm.trans found'
            rfl
          · cases found.symm.trans free
      · rename_i differs
        constructor
        · rintro ⟨⟩
        · rintro (⟨found', agrees⟩ | free)
          · cases found.symm.trans found'
            exact absurd (by simpa using agrees) differs
          · cases found.symm.trans free

/-- **A class definition opens a class and evaluates its body in it**, in a frame of its own. -/
theorem classDef_iff {v : Value} :
    Evaluates env (.classDef place name parent? body) m (.ok v) m' ↔
      ∃ above m₁ c m₂, Above env parent? m above m₁ ∧ Opens name above m₁ c m₂ ∧
        Evaluates ⟨(m₂.frames.child env.scope).1, .cls c⟩ body (m₂.framed env.scope)
          (.ok v) m' := by
  have step : carryOut.classDef env place name parent? body =
      ((match parent? with
        | some node => some <$> carryOut.parentClass env node
        | none => pure none : Run (Option ClassId)) >>= fun above => do
          let c ← Run.located place (Perform.openClass name above)
          let scope ← Run.openScope env.scope
          carryOut.eval ⟨scope, .cls c⟩ body) := by
    cases parent? <;> rfl
  rw [evaluates_iff_step]
  simp only [Perform.node, step, exists_const]
  constructor
  · intro h
    obtain ⟨above, m₁, asked, h⟩ := bind_eq_done.mp h
    obtain ⟨c, m₂, opened, h⟩ := bind_eq_done.mp h
    obtain ⟨_, _, ⟨⟩, h⟩ := bind_eq_done.mp h
    exact ⟨above, m₁, c, m₂, above_iff.mp asked, opens_iff.mp opened,
      evaluates_iff_carryOut.mpr h⟩
  · rintro ⟨above, m₁, c, m₂, asked, opened, h⟩
    refine bind_eq_done.mpr ⟨above, m₁, above_iff.mpr asked, ?_⟩
    refine bind_eq_done.mpr ⟨c, m₂, opens_iff.mpr opened, ?_⟩
    exact bind_eq_done.mpr ⟨_, _, rfl, evaluates_iff_carryOut.mp h⟩

theorem Above.evolves {above : Option ClassId} (h : Above env parent? m above m') :
    m.Evolves m' := by
  cases h with
  | none => exact .refl m
  | some is => exact is.evolves

theorem Opens.evolves {above : Option ClassId} {c : ClassId} (h : Opens name above m c m') :
    m.Evolves m' := by
  cases h with
  | reopens found agrees => exact .refl m
  | creates free => exact .withClasses (.register free _)

/-- The class that is opened bears the name. -/
theorem Opens.find?_eq {above : Option ClassId} {c : ClassId} (h : Opens name above m c m') :
    m'.classes.find? (m'.names.text name) = some c := by
  cases h with
  | reopens found agrees => exact found
  | creates free => simp only [ClassTable.find?_register, if_true]

theorem evaluates_const_iff {v : Value} :
    Evaluates env (.const place name) m (.ok v) m' ↔ m.constant name = .ok v ∧ m' = m := by
  have seen : carryOut.node 0 env (.const place name) m =
      Run.located place (Run.ofExcept (m.constant name)) m := rfl
  rw [evaluates_iff_step]
  simp only [Perform.node, exists_const] at seen ⊢
  rw [seen]
  cases m.constant name with
  | ok w =>
      constructor
      · rintro ⟨⟩
        exact ⟨rfl, rfl⟩
      · rintro ⟨⟨⟩, rfl⟩
        rfl
  | error cause =>
      constructor
      · rintro ⟨⟩
      · rintro ⟨⟨⟩, -⟩

end definitions

/-- **What a constant stands for after the definition of a class of that name**: for what it has
been set to, and for the class that was opened only if it has not been set to anything else. -/
theorem constant_after_classDef {env : Env} {place : Span} {name : NameId} {parent? : Option Node}
    {body : Node} {m m' : Machine} {v : Value} (known : m.names.Has name)
    (h : Evaluates env (.classDef place name parent? body) m (.ok v) m') :
    ∃ above m₁ c m₂, Above env parent? m above m₁ ∧ Opens name above m₁ c m₂ ∧
      Evaluates ⟨(m₂.frames.child env.scope).1, .cls c⟩ body (m₂.framed env.scope) (.ok v) m' ∧
      m'.classes.find? (m.names.text name) = some c ∧
      ∀ env' place',
        Evaluates env' (.const place' name) m' (.ok ((m'.constants.get? name).getD (.cls c))) m' ∧
        (Evaluates env' (.const place' name) m' (.ok (.cls c)) m' ↔
          ∀ w, m'.constants.get? name = some w → w = .cls c) := by
  obtain ⟨above, m₁, c, m₂, asked, opened, body⟩ := classDef_iff.mp h
  have before : m.Evolves m₂ := asked.evolves.trans opened.evolves
  have framed : m₂.Evolves (m₂.framed env.scope) := .of_eq rfl rfl rfl rfl rfl
  have after : m₂.Evolves m' := framed.trans body.evolves
  have text₂ : m₂.names.text name = m.names.text name :=
    before.names.toExtends.text_eq name known
  have text : m'.names.text name = m.names.text name :=
    (before.trans after).names.toExtends.text_eq name known
  have found : m'.classes.find? (m.names.text name) = some c := by
    rw [← text₂]
    exact after.classes.find?_eq opened.find?_eq
  have stands : m'.constant name = .ok ((m'.constants.get? name).getD (.cls c)) := by
    rw [Machine.constant, text]
    cases m'.constants.get? name with
    | some w => rfl
    | none => simp only [found, Option.getD_none]
  refine ⟨above, m₁, c, m₂, asked, opened, body, found, fun env' place' => ⟨?_, ?_⟩⟩
  · exact evaluates_const_iff.mpr ⟨stands, rfl⟩
  · rw [evaluates_const_iff, stands]
    cases m'.constants.get? name <;> simp

/-- A class is defined under the name of a constant that stands for another one: a new class bears
the name, and the constant stands for what it did. -/
theorem constant_after_classDef_alias : ∃ m m' : Machine, ∃ c v,
    m.names.Has ⟨12⟩ ∧ m.constant ⟨12⟩ = .ok (.cls .object) ∧
    Evaluates .top (.classDef ⟨0, 10⟩ ⟨12⟩ none (.nil ⟨8, 8⟩)) m (.ok v) m' ∧
    m'.classes.find? "B" = some c ∧ c ≠ .object ∧
    Evaluates .top (.const ⟨12, 12⟩ ⟨12⟩) m' (.ok (.cls .object)) m' := by
  let b : Machine := .bare (.collecting "")
  let m : Machine :=
    { b with names := (b.names.intern "B").2, constants := b.constants.insert ⟨12⟩ (.cls .object) }
  have known : m.names.Has ⟨12⟩ := by decide +kernel
  have runs : (perform 2 (.eval (.classDef ⟨0, 10⟩ ⟨12⟩ none (.nil ⟨8, 8⟩)) .top) m).DoneWith
      fun _ m' => m'.classes.find? "B" = some ⟨b.classes.classes.size⟩ := by
    decide +kernel
  obtain ⟨v, m', runs, found⟩ := runs.exists_eq
  have defined : Evaluates .top (.classDef ⟨0, 10⟩ ⟨12⟩ none (.nil ⟨8, 8⟩)) m (.ok v) m' :=
    ⟨2, runs⟩
  obtain ⟨_, _, c, m₂, asked, opened, body, -, stands⟩ := constant_after_classDef known defined
  have stands := (stands .top ⟨12, 12⟩).1
  have set : m'.constants.get? ⟨12⟩ = some (.cls .object) := by
    cases asked
    obtain ⟨fuel, done⟩ := evaluates_iff_step.mp body
    obtain ⟨-, rfl⟩ := Action.pure_eq_of_iff.mp done
    cases opened <;> rfl
  rw [set] at stands
  exact ⟨m, m', _, _, known, rfl, defined, found, by decide +kernel, stands⟩

-- The same comes of a program.
example : (Session.run "" "B = Object\nclass B\nend\nB" (.bare (.collecting ""))).DoneWith
  fun v m =>
    (v matches .cls .object) = true ∧ (m.classes.find? "B").isSome = true ∧
      m.classes.find? "B" ≠ some .object := by
  decide +kernel

end MiniRuby
