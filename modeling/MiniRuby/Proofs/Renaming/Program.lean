import MiniRuby.Proofs.Renaming.Evaluator
import MiniRuby.Proofs.Typing.Classes

/-!
# Programs do not look at positions of names

The machine that programs start from is alike to itself (`Machine.alike_boot`), and it stays so when
further names are looked up on one side (`Machine.Alike.internAll`).  On machines that are alike a
text is read in the same way (`Session.parse_alike`), and a program that has been read ends alike if
its start is discreet (`Moment.Discreet.alike_start`).
-/

namespace MiniRuby

variable {w : Tables} {m n : Machine}

/-! ### More names -/

/-- A machine that knows further names. -/
def Machine.internAll (m : Machine) (names : List String) : Machine :=
  { m with names := m.names.internAll names }

theorem Machine.Alike.internAll [Comparison] (h : m.Alike n) (apart : ¬ Comparison.sameTable)
    (names : List String) : m.Alike (n.internAll names) := by
  have grown := n.names.grows_internAll names
  have later : m.both n ≤ ⟨m.names, n.names.internAll names⟩ := ⟨.refl _, grown.toExtends⟩
  exact h.withNames later ⟨h.valid.left, grown.sound h.valid.right, (absurd · apart)⟩

/-! ### The first machine -/

/-- Whether a native method reads or writes an instance variable of a certain name. -/
def Native.isAccessor : Native → Bool
  | .reader _ | .writer _ => true
  | _ => false

theorem Native.Alike.refl_of_not_isAccessor {op : Native} (h : op.isAccessor = false) :
    op.Alike w op := by
  cases op with
  | reader x | writer x => cases h
  | _ => exact .same _ nofun nofun

theorem ClassTable.alike_first : firstTable.Alike w firstTable := by
  have none : ∀ i ∈ firstTable.classes.toList,
      i.methods.entries.isEmpty ∧ i.classMethods.entries.isEmpty := by
    decide +kernel
  refine ⟨List.forall₂_same.mpr fun i hi => ⟨rfl, rfl, rfl, ?_, ?_⟩, rfl⟩
  · change List.Forall₂ _ _ _
    rw [List.isEmpty_iff.mp (none i hi).1]
    exact .nil
  · change List.Forall₂ _ _ _
    rw [List.isEmpty_iff.mp (none i hi).2]
    exact .nil

namespace Machine

variable [Comparison]

theorem alike_bare (sink : Sink) (host : Host) : (bare sink host).Alike (bare sink host) where
  valid := ⟨NameTable.sound_initial, NameTable.sound_initial, fun _ => rfl⟩
  classes := ClassTable.alike_first
  heap := (Heap.Alike.newObject ⟨rfl, .nil, .nil, .nil⟩ .object).2
  frames := .cons .nil .nil
  constants := .nil
  source? := rfl
  sink := rfl
  depth := rfl
  host := rfl

theorem Alike.install (h : m.Alike n) {e : NativeEntry} (he : e.op.isAccessor = false) :
    (m.install e).Alike (n.install e) := by
  have known := (h.intern e.name).2
  have method := Method.Alike.native (.intern (m.both n) e.name) e.arity
    (Native.Alike.refl_of_not_isAccessor he)
  exact { known with classes := known.classes.addMethod known.valid e.owner method }

theorem Alike.installAll {es : List NativeEntry} (hes : ∀ e ∈ es, e.op.isAccessor = false)
    (h : m.Alike n) : (es.foldl Machine.install m).Alike (es.foldl Machine.install n) := by
  induction es generalizing m n with
  | nil => exact h
  | cons e es ih => exact ih (fun e' he' => hes e' (.tail _ he')) (h.install (hes e (.head _)))

/-- **The machine that every program starts from** is alike to itself. -/
theorem alike_boot (sink : Sink) (host : Host) : (boot sink host).Alike (boot sink host) :=
  (alike_bare sink host).installAll (by decide +kernel)

end Machine

/-! ### Reading -/

section

variable [Comparison]

omit [Comparison] in
/-- The variables of bindings that are alike are spelled alike. -/
theorem Kin.locals_of_bindings {α : Type} {R : Kin α} {b c : Bindings α}
    (h : R.bindings w b c) : (Naming.spelled fun _ => True).locals w b.names c.names := by
  replace h : (name.prod R).list w b.entries c.entries := h
  rw [Bindings.names, Bindings.names]
  generalize b.entries = es at h
  generalize c.entries = fs at h
  induction h with
  | nil => exact Naming.locals_nil _ _
  | cons he _ ih => exact Naming.locals_cons _ ⟨he.1, trivial⟩ ih

/-- **A text is read alike on machines that are alike**, or it is wrong in the same way. -/
theorem Session.parse_alike (path text : String) (h : m.Alike n) :
    (∃ a b m₁ n₁, parse path text m = .done a m₁ ∧ parse path text n = .done b n₁ ∧
      m₁.Alike n₁ ∧ Kin.node (m₁.both n₁) a b) ∨
    ∃ e m₁ n₁, parse path text m = .failed (.unreadable e) m₁ ∧
      parse path text n = .failed (.unreadable e) n₁ ∧ n₁.sink = m₁.sink := by
  unfold parse
  cases tokenize text.toList with
  | error e => exact .inr ⟨e, _, _, rfl, rfl, h.sink⟩
  | ok tokens =>
      dsimp only
      have paired := parse_paired tokens h.valid.left h.valid.right
        (Kin.locals_of_bindings (h.frames.frame Scope.top.inner))
      change Parser.Paired _ _ _ _ _ (parseTokens tokens m.names (m.frames.names .top))
        (parseTokens tokens n.names (n.frames.names .top)) at paired
      generalize hp : parseTokens tokens m.names (m.frames.names .top) = o at paired ⊢
      generalize hq : parseTokens tokens n.names (n.frames.names .top) = o' at paired ⊢
      cases paired with
      | @done _ _ c d hw along ha =>
          refine .inl ⟨_, _, _, _, rfl, rfl, ?_, ha⟩
          -- On one table it is one machine that reads.
          have same (together : Comparison.sameTable) : d.names = c.names := by
            obtain rfl : n = m := h.eq (h.valid.same together)
            cases hq.symm.trans hp
            rfl
          have known := h.withNames hw ⟨along.valid.1, along.valid.2, same⟩
          exact { known with source? := rfl }
      | failed same =>
          subst same
          exact .inr ⟨_, _, _, rfl, rfl, h.sink⟩
      | haltedLeft => exact (parseTokens_ne_halted _ _ _ _ hp).elim
      | haltedRight => exact (parseTokens_ne_halted _ _ _ _ hq).elim

/-! ### Running -/

/-- **A program that has been read ends alike**, if no call that tells positions is reached. -/
theorem Moment.Discreet.alike_start {a b : Node} (hd : (Moment.start a m).Discreet)
    (h : m.Alike n) (hn : Kin.node (m.both n) a b) :
    (Moment.start a m).outcome.Alike Kin.value (m.both n) (Moment.start b n).outcome := by
  have main : Kin.value (m.both n) .main .main := .obj _
  have plan : Plan (fun _ => False) fun perform => perform (.eval a .top) := .ask _
  refine Perform.alike_of_discreet (m := { m with depth := 0 }) (n := { n with depth := 0 }) plan
    (G := fun perform => perform (.eval b .top)) ?_ { h with depth := rfl } ?_
  · intro task s asks
    obtain ⟨rfl, rfl⟩ := Plan.asks_ask_iff.mp asks
    exact hd
  · exact fun P Q hP => hP _ _ _ (.eval hn (.mk .top main))

end

end MiniRuby
