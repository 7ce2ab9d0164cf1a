import MiniRuby.Proofs.Evaluator.Locals
import MiniRuby.Proofs.Evaluator.Program
import MiniRuby.Proofs.Evolution
import MiniRuby.Proofs.Lines

/-!
# Sessions and whole texts

In a session a text is read after another one has been run.  It is given the variables that are
bound at the top by then, whereas the reader of a whole text knows the variables that it has seen
set.  What is bound has been set, so the two differ in variables that are set in a branch that was
not taken, or behind a `return`.  A text that does not use these is read in the session as it is
read below the first one.

The tables of names differ as well, since a run adds names of its own.  So two readings are followed
in which names correspond that are spelled alike (`Naming.spelled`).

* `bound_of_run`: the variables that are bound after a run are known to the reader of its text.
* `session_reads_as_joined`: the statements of a text in a session are printed as those of the same
  text below the one that was run.
-/

namespace MiniRuby

/-! ### Names that are spelled alike -/

/-- Whether names of two tables are spelled alike. -/
def Tables.Spelled (w : Tables) (x y : NameId) : Prop :=
  w.left.Has x ∧ w.right.Has y ∧ w.right.text y = w.left.text x

namespace Tables.Spelled

variable {w w' : Tables} {x y : NameId}

/-- Names that are spelled alike stay so. -/
theorem mono (h : w ≤ w') (hs : w.Spelled x y) : w'.Spelled x y := by
  obtain ⟨hx, hy, e⟩ := hs
  exact ⟨h.1.has hx, h.2.has hy, (h.2.text_eq y hy).trans (e.trans (h.1.text_eq x hx).symm)⟩

/-- The first names are spelled alike in all tables. -/
theorem first (hl : w.left.Sound) (hr : w.right.Sound) (hx : NameTable.initial.Has x) :
    w.Spelled x x :=
  ⟨hl.first.has hx, hr.first.has hx, (hr.first.text_eq x hx).trans (hl.first.text_eq x hx).symm⟩

/-- **A text that is looked up** in both tables has ids that are spelled alike. -/
theorem intern (w : Tables) (name : String) :
    (w.intern name).Spelled (w.left.intern name).1 (w.right.intern name).1 :=
  ⟨(w.left.text_intern name).1, (w.right.text_intern name).1,
    (w.right.text_intern name).2.trans (w.left.text_intern name).2.symm⟩

end Tables.Spelled

/-- Whether the variables of `xs` that are certain words are spelled like variables of `ys`. -/
def Tables.Covers (W : String → Prop) (w : Tables) (xs ys : List NameId) : Prop :=
  ∀ x ∈ xs, w.left.Has x ∧ (W (w.left.text x) → ∃ y ∈ ys, w.Spelled x y)

/-- The same tables the other way round. -/
def Tables.swap (w : Tables) : Tables := ⟨w.right, w.left⟩

/-- Names that are covered stay so. -/
theorem Tables.Covers.mono {W : String → Prop} {w w' : Tables} {xs ys : List NameId} (h : w ≤ w')
    (hc : w.Covers W xs ys) : w'.Covers W xs ys := by
  intro x hx
  obtain ⟨has, covered⟩ := hc x hx
  refine ⟨h.1.has has, fun hw => ?_⟩
  rw [h.1.text_eq x has] at hw
  obtain ⟨y, hy, hs⟩ := covered hw
  exact ⟨y, hy, hs.mono h⟩

/-- Fewer names are covered by more. -/
theorem Tables.Covers.subset {W : String → Prop} {w : Tables} {xs ys xs' ys' : List NameId}
    (hc : w.Covers W xs ys) (hx : xs' ⊆ xs) (hy : ys ⊆ ys') : w.Covers W xs' ys' := fun x h =>
  ⟨(hc x (hx h)).1, fun hw => ((hc x (hx h)).2 hw).imp fun _ h => ⟨hy h.1, h.2⟩⟩

theorem Tables.Covers.cons {W : String → Prop} {w : Tables} {xs ys : List NameId} {x y : NameId}
    (hs : w.Spelled x y) (hc : w.Covers W xs ys) : w.Covers W (x :: xs) (y :: ys) := by
  rintro z (_ | ⟨_, hz⟩)
  · exact ⟨hs.1, fun _ => ⟨y, .head _, hs⟩⟩
  · obtain ⟨has, covered⟩ := hc z hz
    exact ⟨has, fun hw => (covered hw).imp fun _ h => ⟨.tail _ h.1, h.2⟩⟩

/-- A name is one of the known ones if a name with the same text is. -/
theorem Tables.Covers.mem {W : String → Prop} {w : Tables} {xs ys : List NameId} {x y : NameId}
    (hr : w.right.Sound) (hc : w.Covers W xs ys) (hs : w.Spelled x y) (hw : W (w.left.text x))
    (hx : x ∈ xs) : y ∈ ys := by
  obtain ⟨y', hy', hs'⟩ := (hc x hx).2 hw
  rwa [hr.distinct y y' hs.2.1 hs'.2.1 (hs.2.2.trans hs'.2.2.symm)]

/-- Names correspond that are spelled alike, and so do the local variables among certain words. -/
def Naming.spelled (W : String → Prop) : Naming where
  valid w := w.left.Sound ∧ w.right.Sound
  likeness w := ⟨w.Spelled, fun x y => w.Spelled x y ∧ W (w.left.text x)⟩
  locals w xs ys := w.Covers W xs ys ∧ w.swap.Covers W ys xs
  words := W
  mono h := by
    refine ⟨fun _ _ => .mono h, fun x y hs => ⟨hs.1.mono h, ?_⟩⟩
    rw [h.1.text_eq x hs.1.1]
    exact hs.2
  same_of_word := And.left
  eq_iff := by
    rintro w x x' y y' ⟨hl, hr⟩ hs hs'
    rw [← hl.text_inj hs.1 hs'.1, ← hr.text_inj hs.2.1 hs'.2.1, hs.2.2, hs'.2.2]
  subscript hw := .first hw.1 hw.2 (by decide)
  subscriptAssign hw := .first hw.1 hw.2 (by decide)
  minus hw := .first hw.1 hw.2 (by decide)
  valid_intern name hw := ⟨hw.1.intern name, hw.2.intern name⟩
  same_intern {w} name _ := .intern w name
  word_intern {w} name _ h := ⟨.intern w name, by rwa [Tables.intern, (w.left.text_intern name).2]⟩
  locals_mono h := fun hl => ⟨hl.1.mono h, hl.2.mono h.symm⟩
  locals_nil _ := ⟨nofun, nofun⟩
  locals_cons h hl := ⟨hl.1.cons h.1, hl.2.cons ⟨h.1.2.1, h.1.1, h.1.2.2.symm⟩⟩
  mem_locals := by
    rintro w x y xs ys ⟨hl, hr⟩ ⟨hxs, hys⟩ ⟨hs, hw⟩
    refine ⟨hxs.mem hr hs hw, ?_⟩
    exact Tables.Covers.mem (w := w.swap) hl hys ⟨hs.2.1, hs.1, hs.2.2.symm⟩ (hs.2.2 ▸ hw)

/-- Statements that are alike by the spelling of their names are printed alike. -/
theorem render_of_spelled {W : String → Prop} {n : Nat} {w : Tables} {as bs : List Node}
    (h : (Naming.spelled W).nodes n w as bs) :
    bs.map (Node.render w.right) = as.map (Node.render w.left) := by
  induction h with
  | nil => rfl
  | @cons a b _ _ h _ ih =>
      have same : b.render w.right = a.render w.left :=
        h.render_eq (fun x y (hs : w.Spelled x y) => hs.2.2)
          fun x y (hs : w.Spelled x y ∧ _) => hs.1.2.2
      rw [List.map_cons, List.map_cons, ih, same]

/-! ### Reading with another table of names -/

section

variable {tokens : List Token} {names names' : NameTable} {locals locals' known : List NameId}
  {node : Node} {c : Cursor}

/-- **How a text is read does not depend on the table of names**, as long as the local variables are
spelled alike. -/
theorem parse_paired (tokens : List Token) (hn : names.Sound) (hn' : names'.Sound)
    (hl : (Naming.spelled fun _ => True).locals ⟨names, names'⟩ locals locals') :
    Parser.Paired (.spelled fun _ => True) 0 (fun _ => false)
      ((Naming.spelled fun _ => True).node 0) ⟨names, names'⟩
      (parseTokens tokens names locals) (parseTokens tokens names' locals') := by
  have same : ∀ t ∈ tokens, t.Later (.spelled fun _ => True) 0 t := fun t _ =>
    ⟨rfl, by simp [Span.shift], fun _ _ => trivial⟩
  have along : (Cursor.start tokens names locals).Along (.spelled fun _ => True) 0 false
      (.start tokens names' locals') :=
    ⟨List.forall₂_same.mpr same, .inl rfl, by simp, ⟨hn, hn'⟩, .cons ⟨rfl, hl⟩ .nil⟩
  exact Parser.tracks_program (tokens.length + 1) (tokens.length + 1) _ _ le_rfl along

/-- A text that can be read with one table can be read with another one, and its statements are
printed alike. -/
theorem parse_spelled (hn : names.Sound) (hn' : names'.Sound)
    (hl : (Naming.spelled fun _ => True).locals ⟨names, names'⟩ locals locals')
    (h : parseTokens tokens names locals = .done node c) :
    ∃ node' c', parseTokens tokens names' locals' = .done node' c' ∧
      c.Along (.spelled fun _ => True) 0 false c' ∧
      node'.statements.map (Node.render c'.names) = node.statements.map (Node.render c.names) := by
  have paired := parse_paired tokens hn hn' hl
  rw [h] at paired
  generalize hq : parseTokens tokens names' locals' = o at paired
  cases paired with
  | @done _ node' _ c' _ hcd ha =>
      exact ⟨node', c', rfl, hcd, render_of_spelled ha.statements⟩
  | haltedRight => exact (parseTokens_ne_halted _ _ _ _ hq).elim

/-- The variables that the reader of a text knows in the end are names of its table. -/
theorem has_of_parse (hn : names.Sound) (h : parseTokens tokens names [] = .done node c)
    (hb : c.bodies = [⟨.top, known⟩]) : ∀ x ∈ known, c.names.Has x := by
  obtain ⟨node', c', -, along, -⟩ := parse_spelled hn hn (Naming.locals_nil _ _) h
  have bodies := along.bodies
  rw [hb, List.forall₂_cons_left_iff] at bodies
  obtain ⟨_, _, ⟨-, hl⟩, -⟩ := bodies
  exact fun x hx => (hl.1 x hx).1

/-- The variables that a tree sets are known once it has been read. -/
theorem known_of_parse (h : parseTokens tokens names locals = .done node c)
    (hb : c.bodies = [⟨.top, known⟩]) : node.vars ⊆ known := by
  have went := Parser.moves_program (N := fun _ => False) (tokens.length + 1)
    (.start tokens names locals)
  rw [show Parser.program _ (Cursor.start tokens names locals) = .done node c from h] at went
  intro x hx
  have isLocal := went.2 ⟨nofun, nofun⟩ x hx
  rw [Cursor.isLocal, hb] at isLocal
  simpa using isLocal

/-- The parser takes no name out of the table. -/
theorem names_of_parse (h : parseTokens tokens names locals = .done node c) :
    names.Grows c.names := by
  have went := Parser.moves_program (N := fun _ => False) (tokens.length + 1)
    (.start tokens names locals)
  rw [show Parser.program _ (Cursor.start tokens names locals) = .done node c from h] at went
  exact went.1.names

/-- Reading a text adds names only, also if it is not a program. -/
theorem Session.names_parse (path text : String) (m : Machine) :
    m.names.Grows (parse path text m).state.names := by
  unfold parse
  cases tokenize text.toList with
  | error e => exact .refl
  | ok tokens =>
      have leads := (Parser.moves_program (N := fun _ => False) (tokens.length + 1)).leads
        (.start tokens m.names (m.frames.names .top))
      dsimp only
      rw [parseTokens]
      generalize Parser.program _ _ = o at leads ⊢
      cases o <;> exact leads.names

end

/-! ### The variables of a program -/

/-- The machine that a program has been run on: where the task to evaluate it has come to. -/
theorem state_of_run {path text : String} {m₀ m₁ m : Machine} {node : Node} {v : Value}
    (hp : Session.parse path text m₀ = .done node m₁)
    (h : Session.run path text m₀ = .done v m) : (Moment.start node m₁).outcome.state = m :=
  (Session.state_run_of_parse hp).symm.trans (congrArg Outcome.state h)

/-- A run evolves the machine that the text was read on. -/
theorem evolves_of_run {path text : String} {m₀ m₁ m : Machine} {node : Node} {v : Value}
    (hp : Session.parse path text m₀ = .done node m₁)
    (h : Session.run path text m₀ = .done v m) : m₁.Evolves m := by
  have start : m₁.Evolves (Moment.start node m₁).machine := .of_eq rfl rfl rfl rfl rfl
  exact state_of_run hp h ▸ start.trans (perform_evolves _ _ _)

/-- What is bound at the top when a program has been run: variables that its tree sets. -/
theorem bound_of_run {path text : String} {m₀ m₁ m : Machine} {node : Node} {v : Value}
    (hp : Session.parse path text m₀ = .done node m₁) (hf : m₀.frames = .initial)
    (h : Session.run path text m₀ = .done v m) : m.frames.names .top ⊆ node.vars := by
  have frames : (Moment.start node m₁).machine.frames = .initial := by
    obtain ⟨_, _, _, _, rfl⟩ := Session.parse_eq_done.mp hp
    exact hf
  intro x hx
  have bound := (perform_binds budget node .top (Moment.start node m₁).machine
    (by rw [frames]; exact Nat.one_pos)).2.names (x := x)
  rw [← state_of_run hp h] at hx
  refine (bound hx).resolve_left fun hx => ?_
  rw [frames] at hx
  cases hx

/-- A run adds names to a table that holds each name once. -/
theorem sound_of_run {path text : String} {m₀ m : Machine} {v : Value} (hn : m₀.names.Sound)
    (h : Session.run path text m₀ = .done v m) : m.names.Sound := by
  obtain ⟨node, m₁, hp, -⟩ := Action.done_of_bind h
  obtain ⟨tokens, c, -, ha, rfl⟩ := Session.parse_eq_done.mp hp
  exact (evolves_of_run hp h).names.sound ((names_of_parse ha).sound hn)

/-! ### Sessions -/

/-- The identifiers of a text. -/
def identifiers (text : String) : List String :=
  match tokenize text.toList with
  | .error _ => []
  | .ok tokens => tokens.filterMap fun t =>
    match t.kind with
    | .ident name => some name
    | _ => none

/-- An identifier among the tokens is one of the text. -/
theorem mem_identifiers {text : String} {tokens : List Token}
    (h : tokenize text.toList = .ok tokens) {t : Token} (ht : t ∈ tokens) {name : String}
    (hn : t.kind = .ident name) : name ∈ identifiers text := by
  rw [identifiers, h]
  exact List.mem_filterMap.mpr ⟨t, ht, by rw [hn]⟩

/-- The variables that the reader of a program knows at the top in the end: those that are bound on
the machine, and those that the program sets somewhere at the top. -/
def localsAfter (text : String) (m : Machine) : List NameId :=
  match tokenize text.toList with
  | .error _ => []
  | .ok tokens =>
    match parseTokens tokens m.names (m.frames.names .top) with
    | .done _ c => c.bodies.flatMap Body.locals
    | .failed _ _ | .halted _ => []

/-- The locals after a text are those known at the end of its tokens. -/
theorem localsAfter_eq {text : String} {m : Machine} {tokens : List Token} {node : Node}
    {c : Cursor} {known : List NameId} (ht : tokenize text.toList = .ok tokens)
    (hp : parseTokens tokens m.names (m.frames.names .top) = .done node c)
    (hb : c.bodies = [⟨.top, known⟩]) : localsAfter text m = known := by
  simp [localsAfter, ht, hp, hb]

/-- **The variables of a program** are known after it. -/
theorem vars_subset_localsAfter {path text : String} {m m' : Machine} {node : Node}
    (h : Session.parse path text m = .done node m') : node.vars ⊆ localsAfter text m := by
  obtain ⟨tokens, c, ht, hp, -⟩ := Session.parse_eq_done.mp h
  obtain ⟨known, hb⟩ := bodies_of_parse hp
  rw [localsAfter_eq ht hp hb]
  exact known_of_parse hp hb

/-- A text is read on another machine as it is read on one, if the variables that are bound are
spelled alike, and then so are the variables that are known. -/
theorem Session.parse_spelled {path text : String} {m n m' : Machine} {a : Node}
    (hm : m.names.Sound) (hn : n.names.Sound)
    (hl : (Naming.spelled fun _ => True).locals ⟨m.names, n.names⟩ (m.frames.names .top)
      (n.frames.names .top)) (h : Session.parse path text m = .done a m') :
    ∃ b n', Session.parse path text n = .done b n' ∧
      b.statements.map (Node.render n'.names) = a.statements.map (Node.render m'.names) ∧
      (Naming.spelled fun _ => True).locals ⟨m'.names, n'.names⟩ (localsAfter text m)
        (localsAfter text n) := by
  obtain ⟨tokens, c, ht, ha, rfl⟩ := Session.parse_eq_done.mp h
  obtain ⟨b, d, hb, along, same⟩ := MiniRuby.parse_spelled hm hn hl ha
  obtain ⟨known, hc⟩ := bodies_of_parse ha
  obtain ⟨known', hd⟩ := bodies_of_parse hb
  have bodies := along.bodies
  rw [hc, hd] at bodies
  refine ⟨b, _, Session.parse_of_tokens path ht hb, same, ?_⟩
  rw [localsAfter_eq ht ha hc, localsAfter_eq ht hb hd]
  exact ((List.forall₂_cons.mp bodies).1).2

/-- What is bound after a program has been run and what is known after it has been read correspond
in the words that are to be read next, if all of these that are known are bound. -/
theorem locals_of_run {path p : String} {first m : Machine} {v : Value} {W : String → Prop}
    {ts : List Token} {a : Node} {c : Cursor} {known : List NameId} (sound : first.names.Sound)
    (frames : first.frames = .initial) (hts : tokenize p.toList = .ok ts)
    (ha : parseTokens ts first.names (first.frames.names .top) = .done a c)
    (hknown : c.bodies = [⟨.top, known⟩]) (hrun : Session.run path p first = .done v m)
    (hset : ∀ x ∈ known, W (m.names.text x) → x ∈ m.frames.names .top) :
    (Naming.spelled W).valid ⟨m.names, c.names⟩ ∧
      (Naming.spelled W).locals ⟨m.names, c.names⟩ (m.frames.names .top) known := by
  have hparse := Session.parse_of_tokens path hts ha
  have bound := bound_of_run hparse frames hrun
  have none : first.frames.names .top = [] := by rw [frames]; rfl
  have has := has_of_parse sound (none ▸ ha) hknown
  have grown : c.names.Grows m.names := (evolves_of_run hparse hrun).names
  have soundHere := (names_of_parse ha).sound sound
  have spelled : ∀ x ∈ known, Tables.Spelled ⟨m.names, c.names⟩ x x := fun x hx =>
    ⟨grown.toExtends.has (has x hx), has x hx, (grown.toExtends.text_eq x (has x hx)).symm⟩
  refine ⟨⟨grown.sound soundHere, soundHere⟩, fun x hx => ?_, fun x hx => ?_⟩
  · have hx := known_of_parse ha hknown (bound hx)
    exact ⟨(spelled x hx).1, fun _ => ⟨x, hx, spelled x hx⟩⟩
  · obtain ⟨left, right, same⟩ := spelled x hx
    refine ⟨right, fun hw => ⟨x, hset x hx ?_, right, left, same.symm⟩⟩
    exact same ▸ hw

/-- If a program sets one variable, the one that is bound when it has been run on another machine is
spelled alike. -/
theorem locals_of_single {path p : String} {m₀ n₀ m n : Machine} {v w : Value} {x y : NameId}
    (hm : m₀.names.Sound) (hn : n₀.names.Sound) (fm : m₀.frames = .initial)
    (fn : n₀.frames = .initial)
    (known : localsAfter p m₀ = [x]) (hy : n.frames.names .top = [y])
    (hrun : Session.run path p m₀ = .done v m) (hrun' : Session.run path p n₀ = .done w n) :
    (Naming.spelled fun _ => True).locals ⟨m.names, n.names⟩ [x] [y] ∧ localsAfter p n₀ ⊆ [y] ∧
      y ∈ localsAfter p n₀ := by
  obtain ⟨a, m₁, hp, -⟩ := Action.done_of_bind hrun
  have none : (Naming.spelled fun _ => True).locals ⟨m₀.names, n₀.names⟩ (m₀.frames.names .top)
      (n₀.frames.names .top) := by
    rw [fm, fn]
    exact Naming.locals_nil _ _
  obtain ⟨b, n₁, hp', -, alike⟩ := Session.parse_spelled hm hn none hp
  rw [known] at alike
  have grown : (⟨m₁.names, n₁.names⟩ : Tables) ≤ ⟨m.names, n.names⟩ :=
    ⟨(evolves_of_run hp hrun).names.toExtends, (evolves_of_run hp' hrun').names.toExtends⟩
  replace alike := Naming.locals_mono _ grown alike
  have bound : y ∈ localsAfter p n₀ :=
    vars_subset_localsAfter hp' (bound_of_run hp' fn hrun' (by rw [hy]; exact .head _))
  have sound := sound_of_run hn hrun'
  have one : localsAfter p n₀ ⊆ [y] := by
    intro z hz
    obtain ⟨_, _ | ⟨_, ⟨⟩⟩, hs⟩ := (alike.2 z hz).2 trivial
    obtain ⟨_, _ | ⟨_, ⟨⟩⟩, hs'⟩ := (alike.2 y bound).2 trivial
    rw [sound.distinct z y hs.1 hs'.1 (hs.2.2.symm.trans hs'.2.2)]
    exact .head _
  have two : [y] ⊆ localsAfter p n₀ := List.cons_subset.mpr ⟨bound, List.nil_subset _⟩
  exact ⟨⟨alike.1.subset (List.Subset.refl _) one, alike.2.subset two (List.Subset.refl _)⟩, one,
    bound⟩

/-- A new machine knows the first names. -/
theorem sound_names_boot (sink : Sink) (host : Host) : (Machine.boot sink host).names.Sound :=
  (Machine.evolves_boot sink host).names.sound NameTable.sound_initial

/-- What starts with a name does not go on with the line before it. -/
theorem plain_minus (tokens : List Token) (h : tokenize "x -1".toList = .ok tokens) :
    Plain tokens := by
  have read : tokenize "x -1".toList = .ok [⟨.ident "x", ⟨0, 0⟩⟩, ⟨.punct .minus, ⟨2, 2⟩⟩,
      ⟨.num 1, ⟨3, 3⟩⟩, ⟨.eof, ⟨4, 4⟩⟩] := by
    with_unfolding_all rfl
  cases read.symm.trans h
  simp [Plain, TokenKind.isLineTerm, TokenKind.isPunct]

variable {path p q : String} {sink : Sink} {host : Host} {v : Value} {m m' : Machine} {b : Node}

/-- **A session reads a text as it is read below the one that was run**, if the variables among its
identifiers that the reader of the first text has seen set are bound by then.  The second text does
not start with a dot. -/
theorem session_reads_as_joined (hrun : Session.run path p (.boot sink host) = .done v m)
    (hread : Session.parse path q m = .done b m')
    (hdot : ∀ tokens, tokenize q.toList = .ok tokens → Plain tokens)
    (hset : ∀ x ∈ localsAfter p (.boot sink host), m.names.text x ∈ identifiers q →
      x ∈ m.frames.names .top) :
    ∃ a m₀ node m₁ body, Session.parse path p (.boot sink host) = .done a m₀ ∧
      Session.parse path (p ++ "\n" ++ q) (.boot sink host) = .done node m₁ ∧
      node.statements = a.statements ++ body ∧
      body.map (Node.render m₁.names) = b.statements.map (Node.render m'.names) := by
  have sound := sound_names_boot sink host
  obtain ⟨a, m₀, hparse, -⟩ := Action.done_of_bind hrun
  obtain ⟨ts, c, hts, ha, -⟩ := Session.parse_eq_done.mp hparse
  obtain ⟨us, d, hus, hb, hm'⟩ := Session.parse_eq_done.mp hread
  obtain ⟨known, hknown⟩ := bodies_of_parse ha
  rw [localsAfter_eq hts ha hknown] at hset
  obtain ⟨valid, locals⟩ :=
    locals_of_run sound (Machine.frames_boot sink host) hts ha hknown hrun hset
  obtain ⟨whole, node, e, body, hwhole, hnode, statements, alike⟩ :=
    parse_joined hts ha hus hb (hdot us hus) valid
      (fun known' h => by
        rw [hknown] at h
        cases h
        exact locals) fun t ht _ => mem_identifiers hus ht
  have text : (p ++ "\n" ++ q).toList = p.toList ++ '\n' :: q.toList := by
    simp [String.toList_append]
  rw [← text] at hwhole
  refine ⟨a, m₀, node, _, body, hparse, Session.parse_of_tokens path hwhole hnode, statements, ?_⟩
  rw [hm']
  exact render_of_spelled alike

/-- A variable that is set when the first text is run: a minus sign after it is an operator in the
session as well. -/
theorem session_reads_as_joined_minus : ∃ v m b m' x,
    Session.run "" "x = 1" (.boot (.collecting "")) = .done v m ∧
    Session.parse "" "x -1" m = .done b m' ∧
    (∀ tokens, tokenize "x -1".toList = .ok tokens → Plain tokens) ∧
    x ∈ localsAfter "x = 1" (.boot (.collecting "")) ∧ m.names.text x ∈ identifiers "x -1" ∧
    (∀ x ∈ localsAfter "x = 1" (.boot (.collecting "")), m.names.text x ∈ identifiers "x -1" →
      x ∈ m.frames.names .top) ∧
    ∃ a m₀ node m₁ body, Session.parse "" "x = 1" (.boot (.collecting "")) = .done a m₀ ∧
      Session.parse "" ("x = 1" ++ "\n" ++ "x -1") (.boot (.collecting "")) = .done node m₁ ∧
      node.statements = a.statements ++ body ∧
      body.map (Node.render m₁.names) = b.statements.map (Node.render m'.names) := by
  have runs : (Session.run "" "x = 1" (.boot (.collecting ""))).DoneWith
      fun _ m => (m.frames.names .top).length = 1 := by
    decide +kernel
  obtain ⟨v, m, hrun, one⟩ := runs.exists_eq
  obtain ⟨x, hx⟩ := List.length_eq_one_iff.mp one
  -- On a machine with the first names only, the variable is the name after these.
  have alone : (Session.run "" "x = 1" (.bare (.collecting ""))).DoneWith fun _ n =>
      n.frames.names .top = [⟨12⟩] ∧ n.names.text ⟨12⟩ = "x" := by
    decide +kernel
  have known : localsAfter "x = 1" (.bare (.collecting "")) = [⟨12⟩] := by
    decide +kernel
  have below : ((Session.run "" "x = 1" >>= fun _ => Session.parse "" "x -1")
      (.bare (.collecting ""))).DoneWith fun _ _ => True := by
    decide +kernel
  obtain ⟨w, n, hn, bound, text⟩ := alone.exists_eq
  obtain ⟨b₀, n', hboth, -⟩ := below.exists_eq
  obtain ⟨_, _, hn', hb₀⟩ := Action.done_of_bind hboth
  cases hn.symm.trans hn'
  have sound := sound_names_boot (.collecting "") .standard
  obtain ⟨alike, only, mem⟩ := locals_of_single NameTable.sound_initial sound rfl
    (Machine.frames_boot _ _) known hx hn hrun
  obtain ⟨b, m', hb, -⟩ := Session.parse_spelled (sound_of_run NameTable.sound_initial hn)
    (sound_of_run sound hrun) (by rw [bound, hx]; exact alike) hb₀
  obtain ⟨_, _ | ⟨_, ⟨⟩⟩, -, -, same⟩ := (alike.2 x (.head _)).2 trivial
  have used : m.names.text x ∈ identifiers "x -1" := by
    rw [show m.names.text x = "x" from same.symm.trans text]
    decide +kernel
  have hset : ∀ x ∈ localsAfter "x = 1" (.boot (.collecting "")),
      m.names.text x ∈ identifiers "x -1" → x ∈ m.frames.names .top :=
    fun z hz _ => hx ▸ only hz
  exact ⟨v, m, b, m', x, hrun, hb, plain_minus, mem, used, hset,
    session_reads_as_joined hrun hb plain_minus hset⟩

/-- A variable that is set in a branch which is not taken: below the first text, a minus sign after
it is an operator, whereas in the session the variable is not known and an argument follows. -/
theorem session_reads_otherwise : ∃ v m b m' node m₁,
    Session.run "" "if false\nx = 1\nend" (.boot (.collecting "")) = .done v m ∧
    Session.parse "" "x -1" m = .done b m' ∧
    (∀ tokens, tokenize "x -1".toList = .ok tokens → Plain tokens) ∧
    Session.parse "" ("if false\nx = 1\nend" ++ "\n" ++ "x -1") (.boot (.collecting "")) =
      .done node m₁ ∧
    b.statements.map (Node.render m'.names) = ["(call x -1)"] ∧
    node.statements.map (Node.render m₁.names) =
      ["(if false (stmts (= x 1)) (stmts))", "(send x - 1)"] := by
  have runs : (Session.run "" "if false\nx = 1\nend" (.boot (.collecting ""))).DoneWith
      fun _ m => m.frames.names .top = [] := by
    decide +kernel
  obtain ⟨v, m, hrun, none⟩ := runs.exists_eq
  -- Where all that there is to know are the first names, the readings can be worked out.
  have alone : (Session.parse "" "x -1" (.bare (.collecting ""))).DoneWith fun b m' =>
      b.statements.map (Node.render m'.names) = ["(call x -1)"] := by
    decide +kernel
  have below : (Session.parse "" ("if false\nx = 1\nend" ++ "\n" ++ "x -1")
      (.bare (.collecting ""))).DoneWith fun b m' => b.statements.map (Node.render m'.names) =
        ["(if false (stmts (= x 1)) (stmts))", "(send x - 1)"] := by
    decide +kernel
  obtain ⟨b₀, _, hb₀, shown⟩ := alone.exists_eq
  obtain ⟨node₀, _, hnode₀, shown'⟩ := below.exists_eq
  have unbound : ∀ {n : Machine}, n.frames.names .top = [] →
      (Naming.spelled fun _ => True).locals ⟨NameTable.initial, n.names⟩ []
        (n.frames.names .top) := by
    intro n h
    rw [h]
    exact Naming.locals_nil _ _
  have sound := sound_names_boot (.collecting "") .standard
  obtain ⟨b, m', hb, same, -⟩ := Session.parse_spelled NameTable.sound_initial
    (sound_of_run sound hrun) (unbound none) hb₀
  obtain ⟨node, m₁, hnode, same', -⟩ := Session.parse_spelled NameTable.sound_initial sound
    (unbound (by rw [Machine.frames_boot]; rfl)) hnode₀
  exact ⟨v, m, b, m', node, m₁, hrun, hb, plain_minus, hnode, same.trans shown, same'.trans shown'⟩

end MiniRuby
