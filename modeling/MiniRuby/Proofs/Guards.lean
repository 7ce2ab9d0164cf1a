import MiniRuby.Proofs.Boot
import MiniRuby.Proofs.Evaluator.Evaluates
import MiniRuby.Proofs.Evaluator.Places
import MiniRuby.Proofs.Typing.Boot

/-!
# What guarded bodies mean

The meaning of a body with `rescue`, `else` and `ensure` clauses, as rules about what its parts
evaluate to.  The body comes first.  If it has a value, the `else` clause is evaluated, and how that
ends is of no concern to the `rescue` clauses.  If it raises an exception, the clauses are tried in
order (`Finds`): the classes that a clause lists are worked out from left to right (`Lists`), and
the first clause that lists a class of the exception handles it (`Rescues`).  Any other failure
passes.  Then, in whatever way this has ended, the `ensure` clause is evaluated once, and its
failure takes the place of what came before (`Guards`).

* `lists_iff`, `finds_iff`, `rescues_iff`: each part of the evaluation follows its rules.
* `guarded_meaning`: a guarded body evaluates to what the rules say, and to nothing else.
-/

namespace MiniRuby

/-- The classes that are listed by nodes, which are evaluated from left to right. -/
inductive Lists (env : Env) :
    List Node → Machine → Except Failure (List ClassId) → Machine → Prop where
  | nil {m : Machine} : Lists env [] m (.ok []) m
  | cls {node : Node} {nodes : List Node} {m m₁ m₂ : Machine} {c : ClassId}
      {r : Except Failure (List ClassId)} (first : Evaluates env node m (.ok (.cls c)) m₁)
      (rest : Lists env nodes m₁ r m₂) : Lists env (node :: nodes) m ((c :: ·) <$> r) m₂
  | other {node : Node} {nodes : List Node} {m m₁ : Machine} {v : Value}
      (first : Evaluates env node m (.ok v) m₁) (noClass : ∀ c, v ≠ .cls c) :
      Lists env (node :: nodes) m (.error ⟨.fault .rescueNeedsClass, some node.span⟩) m₁
  | fails {node : Node} {nodes : List Node} {m m₁ : Machine} {f : Failure}
      (first : Evaluates env node m (.error f) m₁) : Lists env (node :: nodes) m (.error f) m₁

/-- The classes that a clause is for: those that it lists, and the standard one if it lists
none. -/
inductive ListsFor (env : Env) (clause : RescueClause Node) (m : Machine) :
    Except Failure (List ClassId) → Machine → Prop where
  | standard (none : clause.classes = []) : ListsFor env clause m (.ok [.standardError]) m
  | listed {r : Except Failure (List ClassId)} {m' : Machine} (some : clause.classes ≠ [])
      (lists : Lists env clause.classes m r m') : ListsFor env clause m r m'

/-- The clause that is found for an exception of class `c`.  A clause is tried when the ones before
it are not for the exception, and the classes above `c` are those that it has by then. -/
inductive Finds (env : Env) (c : ClassId) : List (RescueClause Node) → Machine →
    Except Failure (Option (RescueClause Node)) → Machine → Prop where
  | none {m : Machine} : Finds env c [] m (.ok none) m
  | here {clause : RescueClause Node} {clauses : List (RescueClause Node)} {m m₁ : Machine}
      {classes : List ClassId} (lists : ListsFor env clause m (.ok classes) m₁)
      (isFor : ∃ a ∈ classes, a ∈ m₁.classes.ancestors c) :
      Finds env c (clause :: clauses) m (.ok (some clause)) m₁
  | later {clause : RescueClause Node} {clauses : List (RescueClause Node)} {m m₁ m₂ : Machine}
      {classes : List ClassId} {r : Except Failure (Option (RescueClause Node))}
      (lists : ListsFor env clause m (.ok classes) m₁)
      (notFor : ∀ a ∈ classes, a ∉ m₁.classes.ancestors c) (rest : Finds env c clauses m₁ r m₂) :
      Finds env c (clause :: clauses) m r m₂
  | fails {clause : RescueClause Node} {clauses : List (RescueClause Node)} {m m₁ : Machine}
      {f : Failure} (lists : ListsFor env clause m (.error f) m₁) :
      Finds env c (clause :: clauses) m (.error f) m₁

/-- The machine on which a clause handles an exception: its variable, if it has one, is bound. -/
def Machine.caught (m : Machine) (env : Env) (binder? : Option NameId) (e : Value) : Machine :=
  match binder? with
  | some name => { m with frames := m.frames.set env.scope name e }
  | none => m

/-- How a body with `rescue` and `else` clauses ends. -/
inductive Rescues (env : Env) (body : Node) (rescues : List (RescueClause Node))
    (otherwise : Node) (m : Machine) : Except Failure Value → Machine → Prop where
  | value {v : Value} {m₁ : Machine} (ends : Evaluates env body m (.ok v) m₁)
      (nothing : otherwise.isNop = true) : Rescues env body rescues otherwise m (.ok v) m₁
  | otherwise {v : Value} {r : Except Failure Value} {m₁ m₂ : Machine}
      (ends : Evaluates env body m (.ok v) m₁) (something : otherwise.isNop = false)
      (next : Evaluates env otherwise m₁ r m₂) : Rescues env body rescues otherwise m r m₂
  | handled {e : Value} {place? : Option Span} {c : ClassId} {clause : RescueClause Node}
      {r : Except Failure Value} {m₁ m₂ m₃ : Machine}
      (raises : Evaluates env body m (.error ⟨.raised e, place?⟩) m₁) (is : m₁.classOf e = .ok c)
      (found : Finds env c rescues m₁ (.ok (some clause)) m₂)
      (next : Evaluates env clause.body (m₂.caught env clause.binder? e) r m₃) :
      Rescues env body rescues otherwise m r m₃
  | unhandled {e : Value} {place? : Option Span} {c : ClassId} {m₁ m₂ : Machine}
      (raises : Evaluates env body m (.error ⟨.raised e, place?⟩) m₁) (is : m₁.classOf e = .ok c)
      (found : Finds env c rescues m₁ (.ok none) m₂) :
      Rescues env body rescues otherwise m (.error ⟨.raised e, place?⟩) m₂
  | misled {e : Value} {place? : Option Span} {c : ClassId} {f : Failure} {m₁ m₂ : Machine}
      (raises : Evaluates env body m (.error ⟨.raised e, place?⟩) m₁) (is : m₁.classOf e = .ok c)
      (found : Finds env c rescues m₁ (.error f) m₂) :
      Rescues env body rescues otherwise m (.error f) m₂
  /-- What is raised belongs to no class.  This does not come up where every value has one. -/
  | classless {e : Value} {place? : Option Span} {cause : Fault} {m₁ : Machine}
      (raises : Evaluates env body m (.error ⟨.raised e, place?⟩) m₁)
      (none : m₁.classOf e = .error cause) :
      Rescues env body rescues otherwise m (.error (.ofFault cause)) m₁
  | passes {f : Failure} {m₁ : Machine} (ends : Evaluates env body m (.error f) m₁)
      (other : ∀ e, f.signal ≠ .raised e) : Rescues env body rescues otherwise m (.error f) m₁

/-- **The meaning of a guarded body**: how it ends with its `ensure` clause. -/
inductive Guards (env : Env) (body : Node) (rescues : List (RescueClause Node))
    (otherwise cleanup : Node) (m : Machine) : Except Failure Value → Machine → Prop where
  | plain {r : Except Failure Value} {m₁ : Machine}
      (ends : Rescues env body rescues otherwise m r m₁) (nothing : cleanup.isNop = true) :
      Guards env body rescues otherwise cleanup m r m₁
  | ensured {r : Except Failure Value} {v : Value} {m₁ m₂ : Machine}
      (ends : Rescues env body rescues otherwise m r m₁) (something : cleanup.isNop = false)
      (next : Evaluates env cleanup m₁ (.ok v) m₂) :
      Guards env body rescues otherwise cleanup m r m₂
  | replaced {r : Except Failure Value} {f : Failure} {m₁ m₂ : Machine}
      (ends : Rescues env body rescues otherwise m r m₁) (something : cleanup.isNop = false)
      (next : Evaluates env cleanup m₁ (.error f) m₂) :
      Guards env body rescues otherwise cleanup m (.error f) m₂

/-! ### The rules hold -/

section rules

variable {env : Env} {m m' : Machine} {c : ClassId}

open MiniRuby.Action (pure_eq_of_iff fail_eq_of_iff bind_eq_of_iff attempt_bind_eq_of_iff)

theorem rescueClass_iff {node : Node} {r : Except Failure ClassId} :
    carryOut.rescueClass env node m = .of r m' ↔
      (∃ c, Evaluates env node m (.ok (.cls c)) m' ∧ r = .ok c) ∨
      (∃ v, Evaluates env node m (.ok v) m' ∧ (∀ c, v ≠ .cls c) ∧
        r = .error ⟨.fault .rescueNeedsClass, some node.span⟩) ∨
      ∃ f, Evaluates env node m (.error f) m' ∧ r = .error f := by
  simp only [Perform.rescueClass, bind_eq_of_iff, ← evaluates_iff_carryOut]
  constructor
  · rintro (⟨v, m₁, hv, h⟩ | h)
    · by_cases hc : ∃ c, v = .cls c
      · obtain ⟨c, rfl⟩ := hc
        obtain ⟨rfl, rfl⟩ := pure_eq_of_iff.mp h
        exact .inl ⟨c, hv, rfl⟩
      · have hc : ∀ c, v ≠ .cls c := fun c e => hc ⟨c, e⟩
        have fails : (Action.fail ⟨.fault .rescueNeedsClass, some node.span⟩ : Run ClassId) m₁ =
            .of r m' := by
          cases v with
          | cls c => exact absurd rfl (hc c)
          | _ => exact h
        obtain ⟨rfl, rfl⟩ := fail_eq_of_iff.mp fails
        exact .inr (.inl ⟨v, hv, hc, rfl⟩)
    · exact .inr (.inr h)
  · rintro (⟨c, hv, rfl⟩ | ⟨v, hv, hc, rfl⟩ | h)
    · exact .inl ⟨_, _, hv, rfl⟩
    · refine .inl ⟨v, _, hv, ?_⟩
      cases v with
      | cls c => exact absurd rfl (hc c)
      | _ => rfl
    · exact .inr h

/-- The classes of a clause are worked out from left to right. -/
theorem lists_iff {nodes : List Node} {r : Except Failure (List ClassId)} :
    Action.each (carryOut.rescueClass env) nodes m = .of r m' ↔ Lists env nodes m r m' := by
  induction nodes generalizing m r with
  | nil =>
      rw [Action.each_nil, pure_eq_of_iff]
      constructor
      · rintro ⟨rfl, rfl⟩
        exact .nil
      · rintro ⟨⟩
        exact ⟨rfl, rfl⟩
  | cons node nodes ih =>
      simp only [Action.each_cons, bind_eq_of_iff, rescueClass_iff, pure_eq_of_iff]
      constructor
      · rintro (⟨c, m₁, h | ⟨v, h, hc, e⟩ | ⟨f, h, e⟩, rest⟩ | ⟨f, h, rfl⟩)
        · obtain ⟨_, h, ⟨⟩⟩ := h
          rcases rest with ⟨cs, m₂, rest, rfl, rfl⟩ | ⟨f, rest, rfl⟩
          · exact .cls (r := .ok cs) h (ih.mp rest)
          · exact .cls (r := .error f) h (ih.mp rest)
        · cases e
        · cases e
        · rcases h with ⟨_, h, e⟩ | ⟨v, h, hc, e⟩ | ⟨g, h, e⟩
          · cases e
          · cases e
            exact .other h hc
          · cases e
            exact .fails h
      · intro h
        cases h with
        | @cls _ _ _ m₁ _ c r first rest =>
            refine .inl ⟨c, m₁, .inl ⟨c, first, rfl⟩, ?_⟩
            cases r with
            | ok cs => exact .inl ⟨cs, m', ih.mpr rest, rfl, rfl⟩
            | error f => exact .inr ⟨f, ih.mpr rest, rfl⟩
        | other first noClass => exact .inr ⟨_, .inr (.inl ⟨_, first, noClass, rfl⟩), rfl⟩
        | fails first => exact .inr ⟨_, .inr (.inr ⟨_, first, rfl⟩), rfl⟩

theorem listsFor_iff {clause : RescueClause Node} {r : Except Failure (List ClassId)} :
    (if clause.classes.isEmpty then pure [ClassId.standardError]
      else Action.each (carryOut.rescueClass env) clause.classes : Run _) m = .of r m' ↔
      ListsFor env clause m r m' := by
  split
  · rename_i he
    have none := List.isEmpty_iff.mp he
    rw [pure_eq_of_iff]
    constructor
    · rintro ⟨rfl, rfl⟩
      exact .standard none
    · rintro (_ | ⟨some, -⟩)
      · exact ⟨rfl, rfl⟩
      · exact absurd none some
  · rename_i he
    have some : clause.classes ≠ [] := fun e => he (List.isEmpty_iff.mpr e)
    rw [lists_iff]
    constructor
    · exact .listed some
    · rintro (⟨none⟩ | ⟨-, lists⟩)
      · exact absurd none some
      · exact lists

/-- The clauses are tried in order, and the first one that is for the exception is found. -/
theorem finds_iff {clauses : List (RescueClause Node)}
    {r : Except Failure (Option (RescueClause Node))} :
    carryOut.findRescue env c clauses m = .of r m' ↔ Finds env c clauses m r m' := by
  induction clauses generalizing m r with
  | nil =>
      rw [Perform.findRescue, pure_eq_of_iff]
      constructor
      · rintro ⟨rfl, rfl⟩
        exact .none
      · rintro ⟨⟩
        exact ⟨rfl, rfl⟩
  | cons clause clauses ih =>
      have test (classes : List ClassId) (m₁ : Machine) :
          classes.any (fun a => m₁.classes.isSubclass c a) = true ↔
            ∃ a ∈ classes, a ∈ m₁.classes.ancestors c := by
        simp [ClassTable.isSubclass]
      have unfolds : carryOut.findRescue env c (clause :: clauses) =
          (do
            let classes ← (if clause.classes.isEmpty then pure [.standardError]
              else Action.each (carryOut.rescueClass env) clause.classes : Run (List ClassId))
            let isFor ← Action.view fun m => classes.any fun a => m.classes.isSubclass c a
            if isFor then pure (some clause) else carryOut.findRescue env c clauses) := by
        rw [Perform.findRescue]
        split <;> rfl
      simp only [unfolds, bind_eq_of_iff, listsFor_iff]
      constructor
      · rintro (⟨classes, m₁, lists, ⟨b, m₂, seen, h⟩ | ⟨f, seen, -⟩⟩ | ⟨f, lists, rfl⟩)
        · obtain ⟨e, rfl⟩ := Outcome.of_inj (r := .ok _) seen
          cases e
          split at h
          · rename_i isFor
            obtain ⟨rfl, rfl⟩ := pure_eq_of_iff.mp h
            exact .here lists ((test _ _).mp isFor)
          · rename_i notFor
            refine .later lists (fun a ha hc => notFor ((test _ _).mpr ⟨a, ha, hc⟩)) (ih.mp h)
        · cases seen
        · exact .fails lists
      · intro h
        cases h with
        | here lists isFor =>
            refine .inl ⟨_, _, lists, .inl ⟨true, _, ?_, rfl⟩⟩
            exact congrArg (Outcome.done · _) ((test _ _).mpr isFor)
        | later lists notFor rest =>
            refine .inl ⟨_, _, lists, .inl ⟨false, _, ?_, ih.mpr rest⟩⟩
            refine congrArg (Outcome.done · _) (Bool.eq_false_iff.mpr fun isFor => ?_)
            obtain ⟨a, ha, hc⟩ := (test _ _).mp isFor
            exact notFor a ha hc
        | fails lists => exact .inr ⟨_, lists, rfl⟩

theorem handle_eq (clause : RescueClause Node) (e : Value) :
    carryOut.handle env clause e m =
      carryOut.eval env clause.body (m.caught env clause.binder? e) := by
  unfold Perform.handle Machine.caught
  cases clause.binder? <;> rfl

/-- What the clauses make of an exception of class `c`, which is `f` if none of them is for it. -/
theorem tries_iff {rescues : List (RescueClause Node)} {e : Value} {f : Failure}
    {r : Except Failure Value} :
    (do
      match ← carryOut.findRescue env c rescues with
      | some clause => carryOut.handle env clause e
      | none => Action.fail f : Run Value) m = .of r m' ↔
      (∃ clause m₁, Finds env c rescues m (.ok (some clause)) m₁ ∧
        Evaluates env clause.body (m₁.caught env clause.binder? e) r m') ∨
      (Finds env c rescues m (.ok none) m' ∧ r = .error f) ∨
      ∃ g, Finds env c rescues m (.error g) m' ∧ r = .error g := by
  simp only [bind_eq_of_iff, finds_iff]
  constructor
  · rintro (⟨found, m₁, hf, h⟩ | h)
    · cases found with
      | none =>
          obtain ⟨rfl, rfl⟩ := fail_eq_of_iff.mp h
          exact .inr (.inl ⟨hf, rfl⟩)
      | some clause =>
          have h := (handle_eq clause e).symm.trans h
          exact .inl ⟨clause, m₁, hf, evaluates_iff_carryOut.mpr h⟩
    · exact .inr (.inr h)
  · rintro (⟨clause, m₁, hf, h⟩ | ⟨hf, rfl⟩ | h)
    · exact .inl ⟨some clause, m₁, hf, (handle_eq clause e).trans (evaluates_iff_carryOut.mp h)⟩
    · exact .inl ⟨none, m', hf, rfl⟩
    · exact .inr h

/-- The body, and what its `rescue` and `else` clauses make of how it ends. -/
theorem rescues_iff {body otherwise : Node} {rescues : List (RescueClause Node)}
    {r : Except Failure Value} :
    carryOut.rescued env body rescues otherwise m = .of r m' ↔
      Rescues env body rescues otherwise m r m' := by
  rw [Perform.rescued, attempt_bind_eq_of_iff]
  simp only [← evaluates_iff_carryOut]
  constructor
  · rintro ⟨⟨signal, place?⟩ | v, m₁, hb, h⟩
    · by_cases raised : ∃ e, signal = .raised e
      · obtain ⟨e, rfl⟩ := raised
        change (Run.ofExcept (m₁.classOf e) >>= _) m₁ = _ at h
        cases hc : m₁.classOf e with
        | error cause =>
            rw [hc] at h
            obtain ⟨rfl, rfl⟩ := Outcome.of_inj (r := .error _) h
            exact .classless hb hc
        | ok c =>
            rw [hc] at h
            rcases tries_iff.mp h with ⟨clause, m₂, hf, h⟩ | ⟨hf, rfl⟩ | ⟨f, hf, rfl⟩
            · exact .handled hb hc hf h
            · exact .unhandled hb hc hf
            · exact .misled hb hc hf
      · have other : ∀ e, signal ≠ .raised e := fun e he => raised ⟨e, he⟩
        have fails : (Action.fail ⟨signal, place?⟩ : Run Value) m₁ = .of r m' := by
          cases signal with
          | raised e => exact absurd rfl (other e)
          | _ => exact h
        obtain ⟨rfl, rfl⟩ := fail_eq_of_iff.mp fails
        exact .passes hb other
    · change (if otherwise.isNop then pure v else carryOut.eval env otherwise : Run Value) m₁ = _
        at h
      split at h
      · rename_i nothing
        obtain ⟨rfl, rfl⟩ := pure_eq_of_iff.mp h
        exact .value hb nothing
      · rename_i something
        exact .otherwise hb (Bool.eq_false_iff.mpr something) (evaluates_iff_carryOut.mpr h)
  · have ofClass {e : Value} {c : ClassId} {m₁ : Machine} (is : m₁.classOf e = .ok c)
        (tries : ClassId → Run Value) : (Run.ofExcept (m₁.classOf e) >>= tries) m₁ =
          tries c m₁ := by
      rw [is]
      rfl
    intro h
    cases h with
    | value ends nothing => exact ⟨.ok _, _, ends, by simp only [nothing]; rfl⟩
    | otherwise ends something next =>
        refine ⟨.ok _, _, ends, ?_⟩
        simp only [something]
        exact evaluates_iff_carryOut.mp next
    | handled raises is found next =>
        exact ⟨.error _, _, raises, (ofClass is _).trans (tries_iff.mpr (.inl ⟨_, _, found, next⟩))⟩
    | unhandled raises is found =>
        exact ⟨.error _, _, raises, (ofClass is _).trans (tries_iff.mpr (.inr (.inl ⟨found, rfl⟩)))⟩
    | misled raises is found =>
        exact ⟨.error _, _, raises,
          (ofClass is _).trans (tries_iff.mpr (.inr (.inr ⟨_, found, rfl⟩)))⟩
    | classless raises none =>
        refine ⟨.error _, _, raises, ?_⟩
        change (Run.ofExcept (m'.classOf _) >>= _) m' = _
        rw [none]
        rfl
    | @passes f m₁ ends other =>
        refine ⟨.error f, _, ends, ?_⟩
        obtain ⟨signal, place?⟩ := f
        cases signal with
        | raised e => exact absurd rfl (other e)
        | _ => rfl

/-- The `ensure` clause, and what it makes of how the rest has ended. -/
theorem guards_iff {body otherwise cleanup : Node} {rescues : List (RescueClause Node)}
    {r : Except Failure Value} :
    carryOut.ensured env cleanup (carryOut.rescued env body rescues otherwise) m = .of r m' ↔
      Guards env body rescues otherwise cleanup m r m' := by
  have ofExcept (first : Except Failure Value) (m₁ : Machine) :
      (Action.ofExcept first : Run Value) m₁ = .of first m₁ := by
    cases first <;> rfl
  rw [Perform.ensured, attempt_bind_eq_of_iff]
  simp only [rescues_iff]
  cases hc : cleanup.isNop with
  | true =>
      constructor
      · rintro ⟨first, m₁, ends, h⟩
        obtain ⟨rfl, rfl⟩ := Outcome.of_inj ((ofExcept first m₁).symm.trans h)
        exact .plain ends hc
      · rintro (⟨ends, -⟩ | ⟨-, something, -⟩ | ⟨-, something, -⟩)
        · exact ⟨r, m', ends, ofExcept r m'⟩
        · rw [hc] at something
          cases something
        · rw [hc] at something
          cases something
  | false =>
      constructor
      · rintro ⟨first, m₁, ends, h⟩
        rcases bind_eq_of_iff.mp h with ⟨v, m₂, next, h⟩ | ⟨f, next, rfl⟩
        · obtain ⟨rfl, rfl⟩ := Outcome.of_inj ((ofExcept first m₂).symm.trans h)
          exact .ensured ends hc (evaluates_iff_carryOut.mpr next)
        · exact .replaced ends hc (evaluates_iff_carryOut.mpr next)
      · rintro (⟨-, nothing⟩ | ⟨ends, -, next⟩ | ⟨ends, -, next⟩)
        · rw [hc] at nothing
          cases nothing
        · have next := evaluates_iff_carryOut.mp next
          exact ⟨r, _, ends, bind_eq_of_iff.mpr (.inl ⟨_, m', next, ofExcept r m'⟩)⟩
        · have next := evaluates_iff_carryOut.mp next
          exact ⟨_, _, ends, bind_eq_of_iff.mpr (.inr ⟨_, next, rfl⟩)⟩

end rules

/-- **A guarded body means what the rules say**: on every machine and in every frame it evaluates
to what they give, and to nothing else.  What its body raises belongs to a class, so that the
clauses can be tried, wherever every value does. -/
theorem guarded_meaning (env : Env) (place : Span) (body : Node)
    (rescues : List (RescueClause Node)) (otherwise cleanup : Node) (m m' : Machine)
    (r : Except Failure Value) :
    (Evaluates env (.guarded place body rescues otherwise cleanup) m r m' ↔
      Guards env body rescues otherwise cleanup m r m') ∧
    (m.Classifies → ∀ e place? m₁, Evaluates env body m (.error ⟨.raised e, place?⟩) m₁ →
      ∃ c, m₁.classOf e = .ok c) := by
  constructor
  · rw [evaluates_iff_step]
    simp only [Perform.node, guards_iff, exists_const]
  · intro hm e place? m₁ raises
    exact raises.evolves.classifies hm e

/-- What `raise` raises on the first machine belongs to a class. -/
theorem guarded_meaning_raise : ∃ body m e place? m₁ c,
    Session.parse "" "raise \"a\"" (Machine.boot (.collecting "")) = .done body m ∧
    m.Classifies ∧ Evaluates .top body m (.error ⟨.raised e, place?⟩) m₁ ∧
    m₁.classOf e = .ok c := by
  have runs : (Session.parse "" "raise \"a\"" (Machine.boot (.collecting ""))).DoneWith
      fun body m => (perform 12 (.eval body .top) m).raises = true := by
    rw [Machine.boot_eq]
    decide +kernel
  obtain ⟨body, m, hp, raises⟩ := runs.exists_eq
  obtain ⟨e, place?, m₁, raises⟩ := Outcome.eq_failed_of_raises raises
  have classifies : m.Classifies := (ready_of_parse hp (wellAimed_of_parse hp).1).1.1.classifies
  have evaluates : Evaluates .top body m (.error ⟨.raised e, place?⟩) m₁ := ⟨12, raises⟩
  obtain ⟨c, is⟩ := (guarded_meaning .top (.point 0) body [] (.nop (.point 0))
    (.nop (.point 0)) m m₁
    (.error ⟨.raised e, place?⟩)).2 classifies e place? m₁ evaluates
  exact ⟨body, m, e, place?, m₁, c, hp, classifies, evaluates, is⟩

end MiniRuby
