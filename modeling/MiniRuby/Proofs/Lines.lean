import MiniRuby.Proofs.Grammar.Complete
import MiniRuby.Proofs.Grammar.Moves
import MiniRuby.Proofs.Grammar.Tracks
import MiniRuby.Proofs.Token.Seam

/-!
# Programs below each other

A program that is written below another one, from a new line on, is read as it is read alone, if it
is given the local variables that the first one has made known.  Only a dot at its start would go on
with the last statement of the first program.

The reader of both programs first goes along with the reader of the first one, up to its end
(`Parser.chain_prolongs`), and then with the reader of the second one.

* `parse_joined`: two programs below each other are read one after the other.
* `parse_lines`: the statements of two programs below each other.
-/

namespace MiniRuby

/-- The statements of a program. -/
def Node.statements : Node → List Node
  | .stmts _ body => body
  | node => [node]

@[simp] theorem Node.statements_ofStmts (place : Span) (body : List Node) :
    (ofStmts place body).statements = body := by
  unfold ofStmts
  split <;> rfl

/-- The statements of programs that are alike are so, too. -/
theorem Node.Alike.statements {k : Likeness} {n : Nat} {a b : Node} (h : Alike k n a b) :
    AlikeAll k n a.statements b.statements := by
  cases h.congr with
  | stmts _ hs => exact hs
  | _ => exact .cons h .nil

/-- Whether one reader is at the end of its text, and another one, whose text goes on, has come to
the further lines. -/
structure Cursor.Passed (more : List Token) (c d : Cursor) : Prop where
  atEnd : AtEnd c.rest
  rest : d.rest = more.dropWhile Parser.isSeparator
  names : d.names = c.names
  bodies : d.bodies = c.bodies

/-- Whether two readers are between statements: both at the end of the first lines, or at the same
token before. -/
def Cursor.Between (more : List Token) (c d : Cursor) : Prop :=
  c.Passed more d ∨ c.Prolongs more d ∧ ¬AtEnd c.rest

namespace Parser

variable {rules rules' : Rules} {more : List Token} {c c' d : Cursor}

/-! ### The first program -/

/-- After a statement both readers are between statements. -/
theorem eatTerms_prolongs {b : Bool} (hd : c.Prolongs more d) (h : eatTerms c = .done b c') :
    ∃ d', eatTerms d = .done b d' ∧ c'.Between more d' := by
  have same := isTerm_alike hd.current
  cases ht : c.current.kind.isTerm with
  | false =>
      rw [eatTerms, if_neg (by simp [ht])] at h
      cases h
      refine ⟨d, by rw [eatTerms, if_neg (by simp [← same, ht])], .inr ⟨hd, fun hat => ?_⟩⟩
      simp [isTerm_of_atEnd hat] at ht
  | true =>
      rw [eatTerms_done ht] at h
      cases h
      refine ⟨_, eatTerms_done (same ▸ ht), ?_⟩
      rcases separators_prolonged hd.tokens with ⟨hat, hdrop⟩ | ⟨hat, hdrop, htake⟩
      · exact .inl ⟨hat, hdrop, hd.names.symm, hd.bodies.symm⟩
      · refine .inr ⟨⟨hdrop, ?_, hd.names, hd.bodies⟩, hat⟩
        simp only [htake, hd.prev]

/-- The end of the text is ahead only at the end. -/
theorem isEof_ahead (hd : c.Prolongs more d) (hat : ¬AtEnd c.rest) :
    c.ahead.kind.isEof = false := by
  rcases hd.tokens.cases with ⟨h, -⟩ | ⟨t, ts, us, -, he, -, hts, -⟩
  · exact absurd h hat
  · simpa [Cursor.ahead, Cursor.significant, hts] using he

theorem ahead_of_atEnd (h : AtEnd c.rest) : c.ahead.kind = .eof := by
  obtain ⟨last, hl, hc⟩ := h
  simp [Cursor.ahead, Cursor.significant, hc, hl]

section

variable (hr : rules.Continue rules')

include hr

/-- A statement that has been read in the first program is read in both. -/
theorem statement_prolongs {node : Node} (hm : Plain more) (hd : c.Prolongs more d)
    (h : statement rules c = .done node c') :
    (∃ s, statement rules' d = .halted s) ∨
      ∃ d', statement rules' d = .done node d' ∧ c'.Prolongs more d' := by
  rcases (continues_statement hr).goes c with ⟨a, c₁, ha, hlong⟩ | ⟨hend, -⟩ | hlost
  · rw [h] at ha
    cases ha
    have read := hlong more d hm hd
    cases e : statement rules' d with
    | done a d' =>
        rw [e] at read
        obtain ⟨rfl, read⟩ := read
        exact .inr ⟨d', rfl, read⟩
    | failed e' d' =>
        rw [e] at read
        exact read.elim
    | halted s => exact .inl ⟨s, rfl⟩
  · exact (hend node c' h).1.elim
  · rw [h] at hlost
    exact hlost.elim

omit hr in
/-- A statement is read, and what ends it. -/
theorem nextStatement_round (before : List Node) {node : Node} {ended : Bool} {c₁ c₂ : Cursor}
    (he : endsStmts c.ahead.kind = false) (hn : statement rules c = .done node c₁)
    (ht : eatTerms c₁ = .done ended c₂) :
    nextStatement rules (before, true) c = .done (some (node :: before, ended)) c₂ := by
  rw [nextStatement_apply, if_neg (by simp [he]), Action.bind_apply, hn]
  simp only [Action.bind_apply, ht]
  rfl

/-- **The statements of the first program** are read in both, and then the further lines follow. -/
theorem chain_prolongs (hm : Plain more) (r : List Node × Bool) (c : Cursor) :
    ∀ (body : List Node) (b : Bool) (c' d : Cursor), r.2 = true →
      chain (nextStatement rules) r c = .done (body, b) c' → c'.ahead.kind.isEof = true →
      c.Between more d →
      (∃ s, chain (nextStatement rules') r d = .halted s) ∨
        ∃ d', c'.Passed more d' ∧
          chain (nextStatement rules') r d = chain (nextStatement rules') (body, true) d' := by
  have shrinks : Shrinks (nextStatement rules) := Loop.shrinks hr.move .statements
  have shrinks' : Shrinks (nextStatement rules') := Loop.shrinks hr.move' .statements
  refine shrinks.induction (P := fun r c => ∀ (body : List Node) (b : Bool) (c' d : Cursor),
    r.2 = true → chain (nextStatement rules) r c = .done (body, b) c' →
      c'.ahead.kind.isEof = true → c.Between more d →
      (∃ s, chain (nextStatement rules') r d = .halted s) ∨ ∃ d', c'.Passed more d' ∧
        chain (nextStatement rules') r d = chain (nextStatement rules') (body, true) d') ?_ r c
  rintro ⟨before, _⟩ c ih body b c' d rfl h he hd
  rcases hd with hd | ⟨hd, hat⟩
  · have ends : nextStatement rules (before, true) c = .done none c := by
      rw [nextStatement_apply, ahead_of_atEnd hd.atEnd]
      rfl
    rw [shrinks.chain_none ends] at h
    cases h
    exact .inr ⟨d, hd, rfl⟩
  cases hs : endsStmts c.ahead.kind with
  | true =>
      rw [shrinks.chain_none (by rw [nextStatement_apply, if_pos hs])] at h
      cases h
      rw [isEof_ahead hd hat] at he
      cases he
  | false =>
      have hs' : endsStmts d.ahead.kind = false := hd.ahead hat ▸ hs
      cases hn : statement rules c with
      | failed e c₁ | halted c₁ =>
          rw [shrinks.chain_eq, Action.bind_apply, nextStatement_apply, if_neg (by simp [hs]),
            Action.bind_apply, hn] at h
          cases h
      | done node c₁ =>
          obtain ⟨ended, c₂, ht⟩ : ∃ ended c₂, eatTerms c₁ = .done ended c₂ := by
            unfold eatTerms
            split <;> exact ⟨_, _, rfl⟩
          have round := nextStatement_round before hs hn ht
          rw [shrinks.chain_some round] at h
          rcases statement_prolongs hr hm hd hn with ⟨s, hn'⟩ | ⟨d₁, hn', along⟩
          · refine .inl ⟨s, ?_⟩
            rw [shrinks'.chain_eq, Action.bind_apply, nextStatement_apply, if_neg (by simp [hs']),
              Action.bind_apply, hn']
          · obtain ⟨d₂, ht', between⟩ := eatTerms_prolongs along ht
            rw [shrinks'.chain_some (nextStatement_round _ hs' hn' ht')]
            cases ended with
            | true => exact ih _ c₂ round body b c' d₂ rfl h he between
            | false =>
                -- Something else than a separator follows, so the first text is no program.
                obtain ⟨rfl, hterm⟩ := eatTerms_false ht
                rw [shrinks.chain_none rfl] at h
                cases h
                have hat' : ¬AtEnd c'.rest := fun hat' => by simp [isTerm_of_atEnd hat'] at hterm
                rw [isEof_ahead along hat'] at he
                cases he

end

/-! ### Programs -/

/-- A program is read statement by statement, after the separators in front. -/
theorem program_apply {n : Nat} {b : Bool} {c c₁ : Cursor} (h : eatTerms c = .done b c₁) :
    program (n + 1) c = (chain (nextStatement (rule n)) ([], true) >>= fun r =>
      Action.view Cursor.ahead >>= fun t =>
        if t.kind.isEof then pure (.ofStmts c₁.current.span r.1.reverse)
        else failAt .unexpectedToken t.span) c₁ := by
  have stmts : rule (n + 1) .stmts c = (chain (nextStatement (rule n)) ([], true) >>= fun r =>
      pure (.ofStmts c₁.current.span r.1.reverse)) c₁ := by
    rw [rule, ofRule, statements, Action.bind_apply, h]
    rfl
  rw [program, Action.bind_apply, stmts, Action.bind_apply, Action.bind_apply]
  cases chain (nextStatement (rule n)) ([], true) c₁ <;> rfl

/-- The statements of a program that has been read. -/
theorem program_done {n : Nat} {b : Bool} {c c₁ c' : Cursor} {node : Node}
    (h : eatTerms c = .done b c₁) (hp : program (n + 1) c = .done node c') :
    ∃ body more, chain (nextStatement (rule n)) ([], true) c₁ = .done (body, more) c' ∧
      c'.ahead.kind.isEof = true ∧ node.statements = body.reverse := by
  rw [program_apply h, Action.bind_apply] at hp
  cases e : chain (nextStatement (rule n)) ([], true) c₁ with
  | failed e' c₂ | halted c₂ =>
      rw [e] at hp
      cases hp
  | done r c₂ =>
      obtain ⟨body, more⟩ := r
      rw [e] at hp
      change (if c₂.ahead.kind.isEof then pure _ else failAt _ _ : Parser Node) c₂ = _ at hp
      split at hp
      · rename_i he
        cases hp
        exact ⟨body, more, rfl, he, Node.statements_ofStmts _ _⟩
      · cases hp

/-- The separators in front are skipped, and nothing else changes. -/
theorem eatTerms_eq (c : Cursor) : ∃ b c', eatTerms c = .done b c' ∧
    c'.rest = c.rest.dropWhile isSeparator ∧ c'.names = c.names ∧ c'.bodies = c.bodies := by
  cases ht : c.current.kind.isTerm with
  | true => exact ⟨true, _, eatTerms_done ht, rfl, rfl, rfl⟩
  | false =>
      refine ⟨false, c, by rw [eatTerms, if_neg (by simp [ht])], ?_, rfl, rfl⟩
      cases hc : c.rest with
      | nil => rfl
      | cons t rest =>
          have ht : t.kind.isTerm = false := by simpa [Cursor.current, hc] using ht
          rw [List.dropWhile_cons_of_neg (by simp [isSeparator, ht])]

end Parser

/-- The bodies that are open at the end of a program. -/
theorem bodies_of_parse {tokens : List Token} {names : NameTable} {locals : List NameId}
    {node : Node}
    {c : Cursor} (h : parseTokens tokens names locals = .done node c) :
    ∃ known, c.bodies = [⟨.top, known⟩] := by
  have went := Parser.moves_program (N := fun _ => False) (tokens.length + 1)
    (.start tokens names locals)
  unfold parseTokens at h
  rw [h] at went
  have grown := went.1.bodies
  obtain ⟨rest, prev, names, bodies⟩ := c
  cases grown with
  | @cons _ body _ _ hb hs =>
      cases hs
      obtain ⟨kind, known⟩ := body
      obtain ⟨rfl, -⟩ := hb
      exact ⟨known, rfl⟩

section

variable {N : Naming} {p q : List Char} {ts us : List Token} {names names' : NameTable}
  {known locals : List NameId} {a b : Node} {c d : Cursor}

/-- **The first program is read in both texts.**  In the longer one its statements, here the last
one first, are followed by those of the further lines. -/
theorem parseTokens_prolongs {more whole : List Token} (hm : Plain more)
    (ht : Prolonged more ts whole) (ha : parseTokens ts names known = .done a c) :
    ∃ before place d, c.Passed more d ∧ a.statements = before.reverse ∧
      parseTokens whole names known =
        (Parser.chain (Parser.nextStatement (Parser.rule whole.length)) (before, true) >>= fun r =>
          Action.view Cursor.ahead >>= fun t =>
            if t.kind.isEof then pure (.ofStmts place r.1.reverse)
            else Parser.failAt .unexpectedToken t.span) d := by
  obtain ⟨_, c₁, hc₁, -⟩ := Parser.eatTerms_eq (.start ts names known)
  obtain ⟨body, ended, hbody, heof, hstmts⟩ := Parser.program_done hc₁ ha
  have start : (Cursor.start ts names known).Prolongs more (.start whole names known) :=
    ⟨ht, rfl, rfl, rfl⟩
  obtain ⟨d₁, hd₁, between⟩ := Parser.eatTerms_prolongs start hc₁
  have running : parseTokens whole names known = _ := Parser.program_apply hd₁
  rcases Parser.chain_prolongs (Parser.continues_rule ts.length whole.length) hm ([], true) c₁ body
    ended c d₁ rfl hbody heof between with ⟨s, hs⟩ | ⟨d₂, passed, hrest⟩
  · rw [Action.bind_apply, hs] at running
    exact (parseTokens_ne_halted _ _ _ _ running).elim
  · refine ⟨body, d₁.current.span, d₂, passed, hstmts, ?_⟩
    rw [running, Action.bind_apply, hrest, ← Action.bind_apply]

/-- **Two programs below each other are read one after the other.**  Alone, the second one may be
read with other names, as long as they correspond to those of the first one. -/
theorem parse_joined (hp : tokenize p = .ok ts) (ha : parseTokens ts names known = .done a c)
    (hq : tokenize q = .ok us) (hb : parseTokens us names' locals = .done b d) (hdot : Plain us)
    (hv : N.valid ⟨names', c.names⟩)
    (hl : ∀ known', c.bodies = [⟨.top, known'⟩] → N.locals ⟨names', c.names⟩ locals known')
    (hw : ∀ t ∈ us, ∀ name, t.kind = .ident name → N.words name) :
    ∃ whole node e body, tokenize (p ++ '\n' :: q) = .ok whole ∧
      parseTokens whole names known = .done node e ∧ node.statements = a.statements ++ body ∧
      N.nodes (p.length + 1) (d.both e) b.statements body := by
  obtain ⟨whole, brk, more, hwhole, hbrk, prolonged, hmore⟩ :=
    (Lexer.reads_of_eq hp).joined (Lexer.reads_of_eq hq)
  have tokens : tokenize (p ++ '\n' :: q) = .ok whole := hwhole.eq
  have plain : Plain (brk :: more) := by
    intro t ht
    rw [List.dropWhile_cons_of_pos (by simp [hbrk, TokenKind.isLineTerm]), hmore _ (fun t ht => by
      simp [ht, TokenKind.isLineTerm]), List.dropWhile_map, List.head?_map] at ht
    obtain ⟨u, hu, rfl⟩ := Option.map_eq_some_iff.mp ht
    exact hdot u hu
  obtain ⟨before, place, d₂, passed, hstmts, running⟩ := parseTokens_prolongs plain prolonged ha
  rw [Action.bind_apply] at running
  -- The second one is read alike after it.
  obtain ⟨_, f, hf, frest, fnames, fbodies⟩ :=
    Parser.eatTerms_eq (.start us names' locals)
  obtain ⟨body', more'', hbody', heof', hstmts'⟩ := Parser.program_done hf hb
  have along : f.Along N (p.length + 1) false d₂ := by
    have both : f.both d₂ = ⟨names', c.names⟩ := by rw [Cursor.both, fnames, passed.names]
    refine ⟨?_, .inr ?_, by simp, both ▸ hv, ?_⟩
    · rw [frest, passed.rest, List.dropWhile_cons_of_pos (Parser.isSeparator_lineTerm brk hbrk),
        hmore _ Parser.isSeparator_lineTerm, List.dropWhile_map, List.forall₂_map_right_iff]
      exact List.forall₂_same.mpr fun t ht => ⟨rfl, rfl, hw t ((List.dropWhile_suffix _).subset ht)⟩
    · refine Parser.ended_of_done (Parser.moves_eatTerms (N := fun _ => False)) hf ?_
      exact ⟨_, (Lexer.reads_of_eq hq).laidOut.getLast?, rfl⟩
    · obtain ⟨known', hknown⟩ := bodies_of_parse ha
      rw [fbodies, passed.bodies, hknown, both]
      exact .cons ⟨rfl, hl known' hknown⟩ .nil
  have paired := Parser.tracks_statementsAfter (Parser.tracks_rule us.length whole.length) before
    (w := f.both d₂) f d₂ le_rfl along
  rw [hbody'] at paired
  generalize Parser.chain (Parser.nextStatement (Parser.rule whole.length)) (before, true) d₂ = o
    at paired running
  cases paired with
  | haltedRight => exact (parseTokens_ne_halted _ _ _ _ running).elim
  | @done _ r' _ e _ hde hr' =>
      obtain ⟨_, _⟩ := r'
      obtain ⟨rest, rfl, hnodes, -⟩ := hr'
      have last : e.ahead.kind.isEof = true := by rw [hde.ahead.kind, heof']
      refine ⟨whole, .ofStmts place (rest ++ before).reverse, e, rest.reverse, tokens, ?_, ?_, ?_⟩
      · rw [running]
        change (if e.ahead.kind.isEof then pure _ else Parser.failAt _ _ : Parser Node) e = _
        rw [if_pos last]
        rfl
      · rw [Node.statements_ofStmts, hstmts, List.reverse_append]
      · rw [hstmts']
        exact List.rel_reverse hnodes

/-- **The statements of two programs below each other**: those of the first one, and those of the
second one where they stand now.  The second program is read with the local variables that the first
one leaves known, and it does not start with a dot. -/
theorem parse_lines (hp : tokenize p = .ok ts) (ha : parseTokens ts names known = .done a c)
    (hl : ∀ name, name ∈ locals ↔ c.isLocal name = true) (hq : tokenize q = .ok us)
    (hb : parseTokens us c.names locals = .done b d) (hdot : Plain us) :
    ∃ whole node e, tokenize (p ++ '\n' :: q) = .ok whole ∧
      parseTokens whole names known = .done node e ∧
      node.statements = a.statements ++ b.statements.map (Node.shift (p.length + 1)) := by
  obtain ⟨whole, node, e, body, tokens, parsed, statements, nodes⟩ :=
    parse_joined (N := .members) hp ha hq hb hdot rfl (fun known' hk name => by
      rw [hl, Cursor.isLocal, hk]
      simp) fun _ _ _ _ => trivial
  refine ⟨whole, node, e, tokens, parsed, ?_⟩
  rw [statements, Node.AlikeAll.eq_map_shift (fun _ _ => Eq.symm) (fun _ _ => Eq.symm) nodes]

/-- A minus sign after a variable that the first line sets. -/
theorem parse_lines_minus :
    ∃ whole node e, tokenize ("x = 1".toList ++ '\n' :: "x -1".toList) = .ok whole ∧
      parseTokens whole .initial [] = .done node e ∧
      node.statements = [.assign ⟨0, 4⟩ (.ident ⟨0, 0⟩ ⟨12⟩) (.int ⟨4, 4⟩ 1),
        .send ⟨6, 9⟩ (some (.ident ⟨6, 6⟩ ⟨12⟩)) ⟨13⟩ [.int ⟨9, 9⟩ 1]] := by
  have first : tokenize "x = 1".toList = .ok [⟨.ident "x", ⟨0, 0⟩⟩, ⟨.punct .assign, ⟨2, 2⟩⟩,
      ⟨.num 1, ⟨4, 4⟩⟩, ⟨.eof, ⟨5, 5⟩⟩] := by
    with_unfolding_all rfl
  have second : tokenize "x -1".toList = .ok [⟨.ident "x", ⟨0, 0⟩⟩, ⟨.punct .minus, ⟨2, 2⟩⟩,
      ⟨.num 1, ⟨3, 3⟩⟩, ⟨.eof, ⟨4, 4⟩⟩] := by
    with_unfolding_all rfl
  exact @parse_lines _ _ _ _ .initial [] [⟨12⟩]
    (.stmts ⟨0, 4⟩ [.assign ⟨0, 4⟩ (.ident ⟨0, 0⟩ ⟨12⟩) (.int ⟨4, 4⟩ 1)])
    (.stmts ⟨0, 3⟩ [.send ⟨0, 3⟩ (some (.ident ⟨0, 0⟩ ⟨12⟩)) ⟨13⟩ [.int ⟨3, 3⟩ 1]])
    ⟨[⟨.eof, ⟨5, 5⟩⟩], ⟨4, 4⟩, (NameTable.initial.intern "x").2, [⟨.top, [⟨12⟩]⟩]⟩
    ⟨[⟨.eof, ⟨4, 4⟩⟩], ⟨3, 3⟩, ((NameTable.initial.intern "x").2.intern "-").2,
      [⟨.top, [⟨12⟩]⟩]⟩
    first (by with_unfolding_all rfl) (by simp [Cursor.isLocal])
    second (by with_unfolding_all rfl)
    (by simp [Plain, TokenKind.isLineTerm, TokenKind.isPunct])

end

end MiniRuby
