import MiniRuby.Proofs.Evaluator.Script
import MiniRuby.Proofs.Grammar.Moves

/-!
# Reading a single expression

Which token comes next decides how a text is read.  Places in the text do not matter here, so
cursors are looked at by the kinds of their tokens only (`Cursor.kinds`).

Some tokens go on with no expression that stands before them (`Parser.EndsExpr`).  An operand that
such a token follows is handed on as it is by every rule of the grammar, except by the level of the
operator that the token may be.  So a text that is all one expression is read as a program of that
expression.

* `Parser.operation_of_not_mem`, `Parser.assignment_of_operation`,
  `Parser.statement_of_assignment`: an operand is handed on by the levels of operators, by
  assignments, and by statements.
* `Parser.program_of_assignment`: a program of one expression is that expression, if all of the text
  has been read, and else it is refused.
-/

namespace MiniRuby

/-! ### The next token -/

/-- The kinds of the tokens that are left. -/
def Cursor.kinds (c : Cursor) : List TokenKind := c.rest.map Token.kind

namespace Cursor

variable {c : Cursor} {k : TokenKind} {ks : List TokenKind}

/-- What is known of the kinds of tokens is known of the tokens. -/
theorem rest_of_kinds (h : c.kinds = k :: ks) :
    ∃ t rest, c.rest = t :: rest ∧ t.kind = k ∧ rest.map Token.kind = ks :=
  List.map_eq_cons_iff.mp h

/-- The token at the cursor has the first kind. -/
theorem current_of_kinds (h : c.kinds = k :: ks) : c.current.kind = k := by
  obtain ⟨t, rest, hr, hk, -⟩ := rest_of_kinds h
  rw [current, hr]
  exact hk

theorem significant_of_kinds (h : c.kinds = k :: ks) (hl : k.isLineTerm = false) :
    c.significant = c.rest := by
  obtain ⟨t, rest, hr, hk, -⟩ := rest_of_kinds h
  rw [significant, hr]
  exact List.dropWhile_cons_of_neg (by simp [hk, hl])

/-- The token ahead is the token at the cursor if that is no line end. -/
theorem ahead_of_kinds (h : c.kinds = k :: ks) (hl : k.isLineTerm = false) :
    c.ahead.kind = k := by
  rw [ahead, significant_of_kinds h hl]
  exact current_of_kinds h

end Cursor

namespace Parser

open MiniRuby.Action (bind_of_done bind_view)

variable {c c' : Cursor} {p : Punct} {w : Keyword} {k : TokenKind} {ks : List TokenKind}
  {m : Nat} {rules : Rules} {node : Node} {α : Type}

/-- **Taking a token** leaves the others, and no name is new by it. -/
theorem take_of_kinds (h : c.kinds = k :: ks) (hl : k.isLineTerm = false) (he : k.isEof = false) :
    ∃ t c', take c = .done t c' ∧ t.kind = k ∧ c'.kinds = ks ∧ c'.names = c.names := by
  have hs := Cursor.significant_of_kinds h hl
  obtain ⟨t, rest, hr, rfl, hks⟩ := Cursor.rest_of_kinds h
  refine ⟨t, { c with rest := rest, prev := t.span }, ?_, rfl, hks, rfl⟩
  simp only [take, hs, hr, he]
  rfl

/-- Punctuation that is ahead is taken. -/
theorem eatPunct_of_kinds (h : c.kinds = .punct p :: ks) :
    ∃ c', eatPunct p c = .done true c' ∧ c'.kinds = ks ∧ c'.names = c.names := by
  obtain ⟨t, c', ht, -, hks, hn⟩ := take_of_kinds h rfl rfl
  have hp : c.ahead.kind.isPunct p = true := by
    simp [Cursor.ahead_of_kinds h rfl, TokenKind.isPunct]
  refine ⟨c', ?_, hks, hn⟩
  rw [eatPunct, bind_view, if_pos hp, bind_of_done ht]
  rfl

/-- And it is taken where it is required. -/
theorem expectPunct_of_kinds (h : c.kinds = .punct p :: ks) :
    ∃ c', expectPunct p c = .done () c' ∧ c'.kinds = ks ∧ c'.names = c.names := by
  obtain ⟨t, c', ht, hk, hks, hn⟩ := take_of_kinds h rfl rfl
  refine ⟨c', ?_, hks, hn⟩
  rw [expectPunct, bind_of_done ht, if_pos (by simp [hk, TokenKind.isPunct])]
  rfl

/-- The same where no line end may be before it. -/
theorem eatPunctHere_of_kinds {p : Punct} (h : c.kinds = .punct p :: ks) :
    ∃ c', eatPunctHere p c = .done true c' ∧ c'.kinds = ks ∧ c'.names = c.names := by
  obtain ⟨t, c', ht, -, hks, hn⟩ := take_of_kinds h rfl rfl
  have hp : c.current.kind.isPunct p = true := by
    simp [Cursor.current_of_kinds h, TokenKind.isPunct]
  refine ⟨c', ?_, hks, hn⟩
  rw [eatPunctHere, Parser.current, bind_view, if_pos hp, bind_of_done ht]
  rfl

/-! A token that is not looked for is left alone. -/

/-- Punctuation that is not ahead is not taken. -/
theorem eatPunct_of_not (h : c.ahead.kind.isPunct p = false) : eatPunct p c = .done false c := by
  rw [eatPunct, bind_view, if_neg (by simp [h])]
  rfl

/-- The same where no line end may be before it. -/
theorem eatPunctHere_of_not (h : c.current.kind.isPunct p = false) :
    eatPunctHere p c = .done false c := by
  rw [eatPunctHere, Parser.current, bind_view, if_neg (by simp [h])]
  rfl

/-- A keyword that is not ahead is not taken. -/
theorem eatKeyword_of_not (h : c.ahead.kind.isKeyword w = false) :
    eatKeyword w c = .done false c := by
  rw [eatKeyword, bind_view, if_neg (by simp [h])]
  rfl

theorem eatKeywordHere_of_not (h : c.current.kind.isKeyword w = false) :
    eatKeywordHere w c = .done false c := by
  rw [eatKeywordHere, Parser.current, bind_view, if_neg (by simp [h])]
  rfl

/-- A loop ends where its step has nothing to add. -/
theorem iterate_of_none {step : α → Parser (Option α)} {a : α} (ts : List Token)
    (h : step a c = .done none c) : iterate step ts a c = .done a c := by
  cases ts <;> rw [iterate, bind_of_done h] <;> rfl

/-- The same of a loop with as many rounds as there are tokens. -/
theorem chain_of_none {step : α → Parser (Option α)} {a : α} (h : step a c = .done none c) :
    chain step a c = .done a c :=
  iterate_of_none c.rest h

/-- A loop goes on with what its step has added. -/
theorem iterate_of_some {step : α → Parser (Option α)} {a b : α} (t : Token) (ts : List Token)
    (h : step a c = .done (some b) c') : iterate step (t :: ts) a c = iterate step ts b c' := by
  rw [iterate, bind_of_done h]

/-! ### Where an expression ends -/

/-- Whether a token goes on with no expression: it is neither a mark by which methods are called,
elements are taken or values are assigned, nor a word. -/
structure EndsExpr (k : TokenKind) : Prop where
  isLineTerm : k.isLineTerm = false
  isKeyword : ∀ w, k.isKeyword w = false
  dot : k.isPunct .dot = false
  lbracket : k.isPunct .lbracket = false
  assign : k.isPunct .assign = false
  assignOp : ∀ op, k ≠ .punct (.assignOp op)

theorem endsExpr_eof : EndsExpr .eof := ⟨rfl, fun _ => rfl, rfl, rfl, rfl, nofun⟩

/-- No call is chained onto an operand. -/
theorem chained_of_endsExpr (h : c.kinds = k :: ks) (hk : EndsExpr k) :
    chained rules node c = .done node c := by
  have dot : eatPunct .dot c = .done false c :=
    eatPunct_of_not (by rw [Cursor.ahead_of_kinds h hk.isLineTerm, hk.dot])
  have bracket : c.current.kind.isPunct .lbracket = false := by
    rw [Cursor.current_of_kinds h, hk.lbracket]
  refine chain_of_none ?_
  rw [link, bind_of_done dot]
  simp [Action.bind_apply, Action.view, bracket, Action.pure_apply]

/-- A level whose operators do not come next hands an operand on. -/
theorem extend_of_not_mem {level : Level} {operand : Parser Node} (h : c.kinds = k :: ks)
    (hl : ∀ p, k = .punct p → p ∉ level.ops) : level.extend operand node c = .done none c := by
  have none : eatOperator level c = .done none c := by
    rw [eatOperator, Parser.current, bind_view, Cursor.current_of_kinds h]
    split
    · rename_i p
      rw [if_neg (by simp [hl p rfl])]
      rfl
    · rfl
  rw [Level.extend, bind_of_done none]
  rfl

/-- **An operand is handed on** by all levels whose operators do not come next. -/
theorem operation_of_not_mem {tighter : List Level}
    (ho : operation rules tighter c = .done node c') (h : c'.kinds = k :: ks) {ls : List Level}
    (hl : ∀ level ∈ ls, ∀ p, k = .punct p → p ∉ level.ops) :
    operation rules (ls ++ tighter) c = .done node c' := by
  induction ls with
  | nil => exact ho
  | cons level ls ih =>
      have none := @extend_of_not_mem c' k ks node level (operation rules (ls ++ tighter)) h
        (hl level (.head _))
      rw [List.cons_append, operation, bind_of_done (ih fun level h => hl level (.tail _ h))]
      cases level.kind with
      | nonAssoc => exact bind_of_done none
      | leftAssoc | shortOr | shortAnd => exact chain_of_none none

/-- Nothing is assigned to an operand. -/
theorem assignment_of_operation (ho : operation rules levels c = .done node c')
    (h : c'.kinds = k :: ks) (hk : EndsExpr k) : assignment rules c = .done node c' := by
  have here := Cursor.current_of_kinds h
  have sign : eatPunctHere .assign c' = .done false c' :=
    eatPunctHere_of_not (by rw [here, hk.assign])
  have op : eatAssignOp c' = .done none c' := by
    rw [eatAssignOp, Parser.current, bind_view, here]
    split
    · exact (hk.assignOp _ rfl).elim
    · rfl
  rw [assignment, bind_of_done ho, bind_of_done sign]
  exact bind_of_done op

/-- No modifier follows an expression that is not negated by a word. -/
theorem statement_of_assignment (hn : c.ahead.kind.isKeyword .kNot = false)
    (h : assignment rules c = .done node c') (hc' : c'.kinds = k :: ks) (hk : EndsExpr k) :
    statement rules c = .done node c' := by
  have word : ∀ w, eatKeywordHere w c' = .done false c' := fun w =>
    eatKeywordHere_of_not (by rw [Cursor.current_of_kinds hc', hk.isKeyword])
  have expr : expression rules c = .done node c' := (bind_of_done (eatKeyword_of_not hn)).trans h
  rw [statement, bind_of_done expr]
  refine chain_of_none ?_
  rw [modified, bind_of_done (word _)]
  refine (bind_of_done (word _)).trans ?_
  exact bind_of_done (word _)

/-! ### Programs of one expression -/

/-- Whether a token begins a statement that is no negation by a word. -/
structure StartsExpr (k : TokenKind) : Prop where
  isLineTerm : k.isLineTerm = false
  isTerm : k.isTerm = false
  endsStmts : endsStmts k = false
  isKeyword : k.isKeyword .kNot = false

/-- An expression does not start with `not`. -/
theorem StartsExpr.negates (hk : StartsExpr k) (hc : c.kinds = k :: ks) :
    c.ahead.kind.isKeyword .kNot = false := by
  rw [Cursor.ahead_of_kinds hc hk.isLineTerm, hk.isKeyword]

/-- The first of some statements, and then more. -/
theorem statements_of_startsExpr (hr : rules.Move m) (hc : c.kinds = k :: ks) (hk : StartsExpr k) :
    ∃ place, statements rules c = (do
      let node ← statement rules
      let more ← eatTerms
      let (body, _) ← chain (nextStatement rules) ([node], more)
      pure (Node.ofStmts place body.reverse)) c := by
  have begins : eatTerms c = .done false c := by
    rw [eatTerms, if_neg (by simp [Cursor.current_of_kinds hc, hk.isTerm])]
  have goesOn : endsStmts c.ahead.kind = false := by
    rw [Cursor.ahead_of_kinds hc hk.isLineTerm, hk.endsStmts]
  have step : nextStatement rules ([], true) c = (do
      let node ← statement rules
      let more ← eatTerms
      pure (some ([node], more))) c := by
    refine (bind_view _ _ _).trans ?_
    rw [goesOn]
    rfl
  refine ⟨c.current.span, ?_⟩
  rw [statements, bind_of_done begins, Parser.current, bind_view,
    (Loop.statements.shrinks hr).chain_eq, bind_assoc, Action.bind_apply, step]
  simp only [Action.bind_apply]
  cases statement rules c with
  | failed e c₁ | halted c₁ => rfl
  | done node c₁ =>
      dsimp only
      cases eatTerms c₁ <;> rfl

/-- An expression is the only statement, whether or not all of the text has been read. -/
theorem statements_of_assignment (hr : rules.Move m) (hc : c.kinds = k :: ks) (hk : StartsExpr k)
    (h : assignment rules c = .done node c') {k' : TokenKind} {ks' : List TokenKind}
    (hc' : c'.kinds = k' :: ks') (hs : EndsExpr k') (ht : k' = .eof ∨ k'.isTerm = false) :
    ∃ s, statements rules c = .done (.stmts s [node]) c' := by
  obtain ⟨place, first⟩ := statements_of_startsExpr hr hc hk
  have hread := statement_of_assignment (hk.negates hc) h hc' hs
  have here := Cursor.current_of_kinds hc'
  -- Nothing follows, since the text is at its end or the statement has not been ended.
  obtain ⟨more, ended, stop⟩ : ∃ more, eatTerms c' = .done more c' ∧
      nextStatement rules ([node], more) c' = .done none c' := by
    rcases ht with rfl | ht
    · obtain ⟨t, rest, hr, ht, -⟩ := Cursor.rest_of_kinds hc'
      have term : c'.current.kind.isTerm = true := by rw [here]; rfl
      have stays : isSeparator t = false := by simp [isSeparator, ht, TokenKind.isEof]
      refine ⟨true, ?_, ?_⟩
      · rw [eatTerms, if_pos term, hr, List.takeWhile_cons_of_neg (by simp [stays]),
          List.dropWhile_cons_of_neg (by simp [stays]), ← hr]
        rfl
      · refine (bind_view _ _ _).trans ?_
        rw [Cursor.ahead_of_kinds hc' rfl]
        rfl
    · refine ⟨false, ?_, rfl⟩
      rw [eatTerms, if_neg (by simp [here, ht])]
  refine ⟨node.span.merge node.span, ?_⟩
  rw [first, bind_of_done hread, bind_of_done ended, bind_of_done (chain_of_none stop)]
  rfl

/-- **A program of one expression** is that expression, if all of the text has been read. -/
theorem program_of_assignment {n : Nat} (hc : c.kinds = k :: ks) (hk : StartsExpr k)
    (h : assignment (rule n) c = .done node c') (hc' : c'.kinds = [.eof]) :
    ∃ s, program (n + 1) c = .done (.stmts s [node]) c' := by
  obtain ⟨s, hread⟩ := statements_of_assignment (moves_rule n) hc hk h hc' endsExpr_eof (.inl rfl)
  have ended : c'.ahead.kind.isEof = true := by rw [Cursor.ahead_of_kinds hc' rfl]; rfl
  refine ⟨s, ?_⟩
  rw [program, bind_of_done (show rule (n + 1) .stmts c = _ from hread), bind_view, if_pos ended]
  rfl

/-- A program is refused if something is left over. -/
theorem program_of_leftover {n : Nat} (hc : c.kinds = k :: ks) (hk : StartsExpr k)
    (h : assignment (rule n) c = .done node c') {k' : TokenKind} {ks' : List TokenKind}
    (hc' : c'.kinds = k' :: ks') (hs : EndsExpr k') (ht : k'.isTerm = false) :
    ∃ e, program (n + 1) c = .failed e c' := by
  obtain ⟨s, hread⟩ := statements_of_assignment (moves_rule n) hc hk h hc' hs (.inr ht)
  have left : c'.ahead.kind.isEof = false := by
    rw [Cursor.ahead_of_kinds hc' hs.isLineTerm]
    cases k' <;> first | rfl | cases ht
  refine ⟨⟨.unexpectedToken, c'.ahead.span⟩, ?_⟩
  rw [program, bind_of_done (show rule (n + 1) .stmts c = _ from hread), bind_view,
    if_neg (by simp [left])]
  rfl

/-- A program is refused if its first expression is. -/
theorem program_of_failed {n : Nat} (hc : c.kinds = k :: ks) (hk : StartsExpr k) {e : SyntaxError}
    (h : assignment (rule n) c = .failed e c') : program (n + 1) c = .failed e c' := by
  obtain ⟨place, first⟩ := statements_of_startsExpr (moves_rule n) hc hk
  have expr : expression (rule n) c = .failed e c' :=
    (bind_of_done (eatKeyword_of_not (hk.negates hc))).trans h
  have fails : statements (rule n) c = .failed e c' := by
    rw [first]
    simp only [statement, Action.bind_apply, expr]
  rw [program, Action.bind_apply, show rule (n + 1) .stmts c = _ from fails]

end Parser

end MiniRuby
