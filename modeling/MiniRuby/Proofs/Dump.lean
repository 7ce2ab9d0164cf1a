import MiniRuby.Proofs.Evaluator.Program
import MiniRuby.Proofs.Grammar.Spelled
import MiniRuby.Proofs.Rendering

/-!
# What the dump of a program tells

A program is dumped as the s-expression of its tree.  Lists, words and quoted texts are told apart
in it, and so are the constructs, wherever they stand: a head says what a list is for, names of
variables and constants begin like no literal, and the parts that may be missing have heads of their
own or a fixed place.  So the dump tells the tree, but for the places of its nodes, up to its gist:
`class A < nil` is dumped like `class A`, and the name `inf` like a number that is too big.

* `Node.gist_of_clear`: where neither of the two occurs, the gist is all but the places.
* `dump_tells`: two programs are dumped alike just if their trees have the same gist.
* `dump_confuses`: the two exceptions do occur.
-/

namespace MiniRuby

namespace Node

variable {t : NameTable}

/-- Whether a node is none of those that are taken for others: a class whose parent is written
`nil`, or the bare name `inf`. -/
def isClear (t : NameTable) : Node → Bool
  | ident _ name => t.text name ≠ "inf"
  | classDef _ _ (some (nil _)) _ => false
  | _ => true

abbrev Clear (t : NameTable) (a : Node) : Prop := a.isClear t = true

theorem parent?_unplaced {p : Node} (h : Sexp.Reading.parent? p = some p) :
    Sexp.Reading.parent? p.unplaced = some p.unplaced := by
  cases p with
  | nil => cases h
  | classDef s name parent? body => cases parent? <;> rfl
  | send s receiver? name args => cases receiver? <;> rfl
  | _ => rfl

mutual

/-- **The gist of a clear tree** is the tree without its places. -/
theorem gist_of_clear (a : Node) (h : a.All (Clear t)) : a.gist t = a.unplaced := by
  have here := all_here h
  cases a with
  | self | nil | int | float | bool | str | symbol | instanceVar | const => rfl
  | ident _ x => exact if_neg (of_decide_eq_true here)
  | array _ as => exact congrArg (Node.array default) (gistAll_of_clear as (all_array.mp h).2)
  | stmts _ as => exact congrArg (Node.stmts default) (gistAll_of_clear as (all_stmts.mp h).2)
  | assign _ a b | and _ a b | or _ a b | loop _ a b =>
      simp only [all_assign, all_and, all_or, all_loop] at h
      obtain ⟨-, ha, hb⟩ := h
      rw [gist, unplaced, reshape, ← gist, ← gist, gist_of_clear a ha, gist_of_clear b hb]
      rfl
  | not _ a | breakWith _ a | nextWith _ a | returnWith _ a =>
      simp only [all_not, all_breakWith, all_nextWith, all_returnWith] at h
      rw [gist, unplaced, reshape, ← gist, gist_of_clear a h.2]
      rfl
  | cond _ a b c =>
      obtain ⟨-, ha, hb, hc⟩ := all_cond.mp h
      rw [gist, unplaced, reshape, ← gist, ← gist, ← gist, gist_of_clear a ha, gist_of_clear b hb,
        gist_of_clear c hc]
      rfl
  | guarded _ a rs b c =>
      obtain ⟨-, ha, hr, hb, hc⟩ := all_guarded.mp h
      rw [gist, unplaced, reshape, ← gist, ← gist, ← gist, gist_of_clear a ha, gist_of_clear b hb,
        gist_of_clear c hc, gistRescues_of_clear rs hr]
      rfl
  | methodDef _ x ps a =>
      obtain ⟨-, hp, ha⟩ := all_methodDef.mp h
      rw [gist, unplaced, reshape, ← gist, gist_of_clear a ha, gistParams_of_clear ps hp]
      rfl
  | singletonDef _ a x ps b =>
      obtain ⟨-, ha, hp, hb⟩ := all_singletonDef.mp h
      rw [gist, unplaced, reshape, ← gist, ← gist, gist_of_clear a ha, gist_of_clear b hb,
        gistParams_of_clear ps hp]
      rfl
  | classDef _ x parent? a =>
      obtain ⟨-, hp, ha⟩ := all_classDef.mp h
      cases parent? with
      | none =>
          rw [gist, unplaced, reshape, ← gist, gist_of_clear a ha]
          rfl
      | some p =>
          -- The parent is kept as it is not `nil`, and it does not become `nil` without its place.
          have named : Sexp.Reading.parent? p = some p := by
            cases p with
            | nil => cases here
            | _ => rfl
          rw [gist, unplaced, reshape, ← gist, ← gist, gist_of_clear a ha,
            gist_of_clear p (hp p rfl), Sexp.fuse_classDef, parent?_unplaced named]
          rfl
  | send _ receiver? x as =>
      obtain ⟨-, hr, ha⟩ := all_send.mp h
      cases receiver? with
      | none =>
          rw [gist, unplaced, reshape, gistAll_of_clear as ha]
          rfl
      | some r =>
          rw [gist, unplaced, reshape, ← gist, gist_of_clear r (hr r rfl), gistAll_of_clear as ha]
          rfl

theorem gistAll_of_clear (as : List Node) (h : ∀ a ∈ as, a.All (Clear t)) :
    reshapeAll (fuse t) as = reshapeAll id as := by
  cases as with
  | nil => rfl
  | cons a as =>
      obtain ⟨ha, has⟩ := List.forall_mem_cons.mp h
      exact congrArg₂ List.cons (gist_of_clear a ha) (gistAll_of_clear as has)

theorem gistParams_of_clear (ps : List (Param Node)) (h : AllParams (Clear t) ps) :
    reshapeParams (fuse t) ps = reshapeParams id ps := by
  cases ps with
  | nil => rfl
  | cons p ps =>
      obtain ⟨hp, hps⟩ := List.forall_mem_cons.mp h
      have rest := gistParams_of_clear ps hps
      obtain ⟨x, d | d⟩ := p
      · exact congrArg (List.cons ⟨x, none⟩) rest
      · have value := congrArg some (gist_of_clear d (hp d rfl))
        exact congrArg₂ List.cons (congrArg (Param.mk x) value) rest

theorem gistRescues_of_clear (rs : List (RescueClause Node))
    (h : ∀ r ∈ rs, AllClause (Clear t) r) :
    reshapeRescues (fuse t) rs = reshapeRescues id rs := by
  cases rs with
  | nil => rfl
  | cons r rs =>
      obtain ⟨hr, hrs⟩ := List.forall_mem_cons.mp h
      obtain ⟨classes, binder?, body⟩ := r
      have classes := congrArg RescueClause.mk (gistAll_of_clear classes hr.1)
      exact congrArg₂ List.cons (congr (congrFun classes binder?) (gist_of_clear body hr.2))
        (gistRescues_of_clear rs hrs)

end

end Node

/-- Two texts that are read one after the other, with a table of names that both share. -/
def Session.parseBoth (text text' : String) : Session (Node × Node) := do
  let a ← parse "" text
  let b ← parse "" text'
  pure (a, b)

theorem Session.parseBoth_done {text text' : String} {r : Node × Node} {m n : Machine}
    (h : parseBoth text text' m = .done r n) :
    ∃ m₁, parse "" text m = .done r.1 m₁ ∧ parse "" text' m₁ = .done r.2 n := by
  obtain ⟨a, m₁, ha, h⟩ := Action.bind_eq_done.mp h
  obtain ⟨b, n₁, hb, h⟩ := Action.bind_eq_done.mp h
  cases h
  exact ⟨m₁, ha, hb⟩

/-- **What a dump tells.**  Two programs that have been read with the same table of names are dumped
alike just if their trees have the same gist; and if nothing in them is taken for something else,
just if their trees are the same but for the places of the nodes. -/
theorem dump_tells {path path' text text' : String} {a b : Node} {m m₁ n n₁ : Machine}
    {t : NameTable} (ha : Session.parse path text m = .done a m₁)
    (hb : Session.parse path' text' n = .done b n₁) (sound : t.Sound)
    (grown : m₁.names.Extends t) (grown' : n₁.names.Extends t) :
    (a.render t = b.render t ↔ a.gist t = b.gist t) ∧
    (a.All (Node.Clear t) → b.All (Node.Clear t) →
      (a.render t = b.render t ↔ a.unplaced = b.unplaced)) := by
  have gists := Node.render_eq_iff sound (legible_of_parse sound ha grown)
    (legible_of_parse sound hb grown')
  refine ⟨gists, fun clear clear' => ?_⟩
  rw [gists, Node.gist_of_clear a clear, Node.gist_of_clear b clear']

/-- A call with and without parentheses. -/
theorem dump_tells_call : ∃ a m₁ b n₁,
    Session.parse "" "f -1" (.bare (.collecting "")) = .done a m₁ ∧
    Session.parse "" "f(-1)" m₁ = .done b n₁ ∧ n₁.names.Sound ∧
    m₁.names.Extends n₁.names ∧ n₁.names.Extends n₁.names ∧
    a.All (Node.Clear n₁.names) ∧ b.All (Node.Clear n₁.names) ∧
    a.render n₁.names = "(stmts (call f -1))" ∧ a.gist n₁.names = b.gist n₁.names ∧
    a.unplaced = b.unplaced := by
  have reads : (Session.parseBoth "f -1" "f(-1)" (.bare (.collecting ""))).DoneWith fun r n₁ =>
      r.1.render n₁.names = "(stmts (call f -1))" ∧ r.1.render n₁.names = r.2.render n₁.names ∧
        r.1.All (Node.Clear n₁.names) ∧ r.2.All (Node.Clear n₁.names) := by
    decide +kernel
  obtain ⟨⟨a, b⟩, n₁, both, dump, same, clear, clear'⟩ := reads.exists_eq
  obtain ⟨m₁, ha, hb⟩ := Session.parseBoth_done both
  have first := Session.names_parse "" "f -1" (.bare (.collecting ""))
  have second := Session.names_parse "" "f(-1)" m₁
  rw [ha] at first
  rw [hb] at second
  have sound := (first.trans second).sound NameTable.sound_initial
  obtain ⟨gists, trees⟩ := dump_tells ha hb sound second.toExtends (.refl _)
  exact ⟨a, m₁, b, n₁, ha, hb, sound, second.toExtends, .refl _, clear, clear', dump,
    gists.mp same, (trees clear clear').mp same⟩

/-- Whether two texts are dumped alike, with the same table of names, although their trees differ in
more than the places of the nodes. -/
def Session.Confuses (text text' : String) : Prop :=
  ∃ a m₁ b n₁, parse "" text (.bare (.collecting "")) = .done a m₁ ∧
    parse "" text' m₁ = .done b n₁ ∧ a.render n₁.names = b.render n₁.names ∧
    a.unplaced ≠ b.unplaced

/-- Whether a program consists of a single number. -/
def Node.isNumeral : Node → Bool
  | stmts _ [float _ _] => true
  | _ => false

/-- **What a dump does not tell.**  A parent that is written `nil` is taken for none, and the name
`inf` for a number. -/
theorem dump_confuses : Session.Confuses "class A < nil\nend" "class A\nend" ∧
    Session.Confuses "1e999" "inf" := by
  have confuses {text text' : String} (f : Node → Nat)
      (h : (Session.parseBoth text text' (.bare (.collecting ""))).DoneWith fun r n₁ =>
        r.1.render n₁.names = r.2.render n₁.names ∧ f r.1.unplaced ≠ f r.2.unplaced) :
      Session.Confuses text text' := by
    obtain ⟨⟨a, b⟩, n₁, both, dump, other⟩ := h.exists_eq
    obtain ⟨m₁, ha, hb⟩ := Session.parseBoth_done both
    exact ⟨a, m₁, b, n₁, ha, hb, dump, fun same => other (congrArg f same)⟩
  -- The trees differ in the number of their nodes, and in what the only statement is.
  exact ⟨confuses (fun a => a.preorder.length) (by decide +kernel),
    confuses (fun a => a.isNumeral.toNat) (by decide +kernel)⟩

end MiniRuby
