import MiniRuby.Proofs.Grammar.Continue
import Mathlib.Data.Set.Finite.Basic

/-!
# What is missing can be supplied

Every rule of the grammar goes on when the text does (`Parser.continues_rule`).  Rules for operands
need an operand at the end of the text and leave nothing open; statements may end there.
-/

namespace MiniRuby

namespace Parser

variable {α : Type}

/-- Whether a reader needs an operand at the end of the text. -/
abbrev Operand (p q : Parser α) : Prop :=
  Continues .always [.operand] anyPiece (fun _ => .before) p q

/-- Whether a reader needs nothing after an operand. -/
abbrev Follow (p q : Parser α) : Prop := Continues .before [] anyPiece (fun _ => .before) p q

/-- Whether a reader that starts before the end of the text leaves nothing open. -/
abbrev Inner (p q : Parser α) : Prop := Continues .never [] anyPiece (fun _ => .before) p q

/-- Whether a reader may end at the end of the text, if something closes the body. -/
abbrev Stretch (p q : Parser α) : Prop := Continues .always [] endsBody (fun _ => .always) p q

/-- Whether a reader that starts before the end of the text may end there, if something closes the
body. -/
abbrev Opens (p q : Parser α) : Prop := Continues .never [] endsBody (fun _ => .always) p q

/-- What needs nothing at the end leaves nothing open. -/
theorem Continues.inner {e : Late} {r : List Piece} {x : α → Late} {p q : Parser α}
    (h : Continues e r anyPiece x p q) (hx : ∀ a, x a ≤ .before) : Inner p q :=
  ⟨fun c => (h.goes c).mono (fun _ => id) hx, False.elim, nofun⟩

end Parser

/-- Readers for the rules in a text and in a text that goes on. -/
structure Rules.Continue (rules rules' : Rules) : Prop where
  move : rules.Move 0
  move' : rules'.Move 0
  stmts : Parser.Stretch (rules .stmts) (rules' .stmts)
  expr : Parser.Operand (rules .expr) (rules' .expr)
  arg : Parser.Operand (rules .arg) (rules' .arg)
  signed : Parser.Operand (rules .signed) (rules' .signed)
  unary : Parser.Operand (rules .unary) (rules' .unary)
  branch (place : Span) : Parser.Opens (rules (.branch place)) (rules' (.branch place))

namespace Parser

variable {rules rules' : Rules} (hr : rules.Continue rules')

include hr

/-! ### Calls -/

/-- A list may end when its closing mark has been read. -/
abbrev closedList {β : Type} (o : Option (β × Bool)) : Late :=
  .given (∃ b, o = some (b, false)) .before

omit hr in
/-- A loop whose last round says that there is no further one. -/
theorem inner_chain {β : Type} {step step' : β × Bool → Parser (Option (β × Bool))}
    (ht : Shrinks step) (ht' : Shrinks step')
    (hs : ∀ b more, Continues .never [] anyPiece closedList (step (b, more)) (step' (b, more)))
    (hn : ∀ b, step' (b, false) = pure none) (b : β) :
    Inner (chain step (b, true)) (chain step' (b, true)) := by
  have loop := Continues.chain (F := fun a => a.2 = false) (g := fun b => b = true)
    (x := fun _ => .before) ht ht' (fun a => hs a.1 a.2) (fun a => Late.given_false_le nofun)
    (fun _ _ h => h.2.elim) (fun _ a pos h => ?_) (fun a ha => ?_) (b, true)
  · exact loop.relax id nofun
  · obtain ⟨⟨b, hb⟩, hpos⟩ := h
    cases hb
    exact ⟨rfl, hpos⟩
  · obtain ⟨b, more⟩ := a
    cases ha
    rw [hn b]
    exact .pure fun _ h => ⟨rfl, h⟩

theorem continues_argOrClose {close : Punct} (piece : Piece) (hp : piece.head = .punct close)
    (ht : piece.tail = []) (args : List Node) (more : Bool) :
    Continues .never [] anyPiece closedList (argOrClose rules close (args, more))
      (argOrClose rules' close (args, more)) := by
  cases more with
  | false => exact .pure (Late.never_le _)
  | true =>
      refine ((continues_eatClose hp ht).eat ?_ ?_ (.any _ [])).relax (e := .never) id (fun _ => id)
      · exact .pure ⟨nofun, fun _ h => ⟨⟨args, rfl⟩, h.2⟩⟩
      · refine (hr.arg.bind (fun arg => ?_) (.any _ [piece])).relax (fun _ => trivial) nofun
        refine (continues_eatComma Late.not_before).skip (.pure (Late.never_le _)) ?_
          (.any _ [piece])
        refine (continues_expectPunct hp ht).bind (s := []) (fun _ => .pure ?_) (.any _ [])
        exact ⟨False.elim, fun _ h => ⟨⟨_, rfl⟩, h⟩⟩

/-- **A list without its closing mark** is completed by the mark, or by an operand before it. -/
theorem continues_argsUntil {close : Punct} (piece : Piece) (hp : piece.head = .punct close)
    (ht : piece.tail = []) : Inner (argsUntil rules close) (argsUntil rules' close) :=
  .bind (inner_chain (Loop.shrinks hr.move (.args close)) (Loop.shrinks hr.move' (.args close))
    (continues_argOrClose hr piece hp ht) (fun _ => rfl) []) (fun _ => .pure (Late.le_refl _))
      (.any _ [])

theorem continues_commandArg (args : List Node) (more : Bool) :
    Continues .never [] anyPiece closedList (commandArg rules (args, more))
      (commandArg rules' (args, more)) := by
  cases more with
  | false => exact .pure (Late.never_le _)
  | true =>
      refine (hr.arg.bind (fun arg => ?_) (.any _ [])).relax False.elim (fun _ => id)
      refine (continues_eatPunctHere .comma rfl Late.not_before).bind (fun comma => .pure ?_)
        (.any _ [])
      cases comma with
      | true => exact Late.given_false_le nofun
      | false => exact ⟨fun h => h.2.elim, fun _ h => ⟨⟨_, rfl⟩, h.2⟩⟩

/-- Arguments without brackets are completed by an operand where one is missing. -/
theorem continues_commandArgs : Inner (commandArgs rules) (commandArgs rules') :=
  .bind (inner_chain (Loop.shrinks hr.move .commandArgs) (Loop.shrinks hr.move' .commandArgs)
    (continues_commandArg hr) (fun _ => rfl) []) (fun _ => .pure (Late.le_refl _)) (.any _ [])

omit hr in
/-- A token that is a certain mark ends a line only if the mark does. -/
theorem isTerm_of_isPunct {p : Punct} (hp : (TokenKind.punct p).isTerm = false) {kind : TokenKind}
    (h : kind.isPunct p = true) : kind.isTerm = false := by
  cases hk : kind <;> simp_all [TokenKind.isPunct]

omit hr in
/-- A mark that stands at the cursor without a gap does not end a statement. -/
theorem isTerm_of_joined {p : Punct} (hp : (TokenKind.punct p).isTerm = false) (c : Cursor)
    (h : (c.current.kind.isPunct p && !c.hasGap) = true) : c.current.kind.isTerm = false := by
  rw [Bool.and_eq_true] at h
  exact isTerm_of_isPunct hp h.1

omit hr in
theorem isTerm_of_opensCall (c : Cursor) (h : c.opensCall = true) :
    c.current.kind.isTerm = false := isTerm_of_joined (p := .lparen) rfl c h

omit hr in
theorem isTerm_of_startsCommand (c : Cursor) (h : startsCommand c = true) :
    c.current.kind.isTerm = false := by
  unfold startsCommand at h
  cases hk : c.current.kind with
  | lineTerm | eof => simp [hk] at h
  | punct p => cases p <;> simp_all [TokenKind.isTerm]
  | _ => rfl

omit hr in
theorem startsCommand_prolongs {more : List Token} {c d : Cursor} (h : c.Prolongs more d) :
    startsCommand c = startsCommand d := by
  cases ht : c.current.kind.isTerm with
  | true =>
      have no : ∀ {b : Cursor}, b.current.kind.isTerm = true → startsCommand b = false := by
        intro b hb
        by_contra hyes
        have := isTerm_of_startsCommand b (by simpa using hyes)
        rw [hb] at this
        cases this
      rw [no ht, no (isTerm_alike h.current ▸ ht)]
  | false =>
      have same : c.current = d.current := by
        rcases h.current_cases with ⟨hc, -⟩ | ⟨he, -⟩
        · exact hc
        · simp [he, TokenKind.isTerm] at ht
      simp only [startsCommand, h.hasGap, h.hasGapAfter ht, same]

omit hr in
theorem continues_operatorName (p : Punct) : Inner (operatorName p) (operatorName p) := by
  unfold operatorName
  refine .ite ?_ ?_
  · refine (continues_eatPunctHere .rbracket rfl Late.not_never).skip (s := []) ?_ ?_ (.any _ _)
    · refine .bind (.see fun _ _ _ h => h.hasGap) (fun _ => .ite ?_ (.pure (Late.never_le _)))
        (.any _ [])
      exact (continues_eatPunctHere .assign rfl Late.not_never).skip (.pure (Late.never_le _))
        (.pure (Late.never_le _)) (.any _ [])
    · exact .ofLost (fun _ => rfl) fun _ => id
  · split
    · exact (continues_intern _).inner fun _ => Late.never_le _
    · exact .ofLost (fun _ => rfl) fun _ => id

omit hr in
/-- The name behind a dot may be the piece that stands for an operand. -/
theorem continues_calledName (t : Token) :
    Continues (.given (t.kind = .keyword .kNil) .before) [] anyPiece (fun _ => .before)
      (calledName t) (calledName t) := by
  have named : ∀ name : String, Continues (.given (t.kind = .keyword .kNil) .before) [] anyPiece
      (fun _ => .before) (intern name) (intern name) := fun name =>
    (continues_intern name).mono (Late.le_refl _) (fun _ => id) fun _ => Late.given_le
  unfold calledName
  split
  · exact named _
  · exact named _
  · exact named _
  · rename_i hk
    exact (continues_operatorName _).never (Late.given_false_le (by simp [hk]))
  · rename_i hw _
    exact .failAt nofun fun _ h => hw .kNil h.1

omit hr in
theorem continues_methodName : Operand methodName methodName :=
  .bind (continues_take .operand rfl) (fun t => .bind (continues_calledName t) (fun _ =>
    .bind continues_prevSpan (fun _ => .pure (Late.le_refl _)) (.any _ [])) (.any _ [])) (.any _ [])

theorem continues_callArgs : Follow (callArgs rules) (callArgs rules') := by
  refine continues_ifHere (fun _ _ _ h => h.opensCall) isTerm_of_opensCall Late.not_before
    (fun c hc => goesOn_takeHere hc fun _ => (continues_argsUntil hr .rparen rfl rfl).goes) ?_
  exact continues_ifHere (fun _ _ _ => startsCommand_prolongs) isTerm_of_startsCommand
    Late.not_before (fun c _ => (continues_commandArgs hr).goes c) (.pure (Late.le_refl _))

/-- A call that ends with its dot is completed by a name. -/
theorem continues_methodCall (receiver : Node) :
    Operand (methodCall rules receiver) (methodCall rules' receiver) :=
  .bind continues_methodName (fun _ => .bind (continues_callArgs hr) (fun _ =>
    .bind continues_prevSpan (fun _ => .pure (Late.le_refl _)) (.any _ [])) (.any _ [])) (.any _ [])

/-- What starts with a mark that has been seen at the cursor, and ends with its counterpart. -/
theorem goesOn_list {close : Punct} (piece : Piece) (hp : piece.head = .punct close)
    (ht : piece.tail = []) (f : Token → List Node → Span → Node) {c : Cursor}
    (hc : c.current.kind.isTerm = false) :
    GoesOn anyPiece (fun _ => .before)
      (do let t ← take
          let args ← argsUntil rules close
          pure (f t args (← prevSpan)))
      (do let t ← take
          let args ← argsUntil rules' close
          pure (f t args (← prevSpan))) c :=
  goesOn_takeHere hc fun _ => Continues.goes <| .bind (continues_argsUntil hr piece hp ht)
    (fun _ => .bind continues_prevSpan (fun _ => .pure (Late.le_refl _)) (.any _ [])) (.any _ [])

omit hr in
/-- Whether a mark is joined to the token before it does not depend on how the text goes on. -/
theorem joined_prolongs {more : List Token} {c d : Cursor} (h : c.Prolongs more d) (p : Punct) :
    (c.current.kind.isPunct p && !c.hasGap) = (d.current.kind.isPunct p && !d.hasGap) := by
  rcases h.current_cases with ⟨hc, -⟩ | ⟨he, hd⟩
  · rw [hc, h.hasGap]
  · simp [he, hd, TokenKind.isPunct]

/-- No piece is a further link, so a chain that ends with the text is complete. -/
theorem continues_link (node : Node) : Follow (link rules node) (link rules' node) := by
  have call : Operand (some <$> methodCall rules node) (some <$> methodCall rules' node) :=
    (continues_methodCall hr node).map fun _ => Late.le_refl _
  refine continues_dot.skip (call.inner fun _ => Late.le_refl _) ?_ (.any _ [])
  refine continues_ifHere (fun _ _ _ h => joined_prolongs h .lbracket) (isTerm_of_joined rfl)
    Late.not_before (fun c hc => ?_) (.pure (Late.le_refl _))
  exact Continues.goesOn_map (goesOn_list hr .rbracket rfl rfl (fun t args place =>
    .ofSend (t.span.merge place) (some node) NameId.subscript args) hc) fun _ => Late.le_refl _

omit hr in
/-- Nothing is chained onto an operand that a line break follows. -/
theorem closes_link (node : Node) : Closes Late.before.going [] anyPiece
    (fun o => .given (o = none) .before) (link rules' node) := by
  refine continues_dot.closes.skip (e := .before) (s := []) (closes_ifHere (isTerm_of_joined rfl)
    Late.not_before (.pure fun _ h => ⟨rfl, h⟩)) (.any _ _)

omit hr in
/-- A loop that has nothing to add after an operand. -/
theorem follow_chain {β : Type} {step step' : β → Parser (Option β)} (ht : Shrinks step)
    (ht' : Shrinks step') (hs : ∀ a, Follow (step a) (step' a))
    (hn : ∀ a, Closes Late.before.going [] anyPiece (fun o => .given (o = none) .before) (step' a))
    (a : β) : Follow (chain step a) (chain step' a) := by
  have loop := Continues.chain (F := fun _ => True) (g := fun b => b = true)
    (x := fun _ => .before) ht ht' (fun a => (hs a).inner fun _ => Late.le_refl _)
    (fun a => Late.le_refl _) (fun _ _ => id) (fun _ _ _ h => ⟨trivial, h⟩) (fun a _ => hn a) a
  exact loop.mono ⟨id, fun _ h => ⟨trivial, h⟩⟩ (fun _ => id) fun _ => Late.le_refl _

theorem continues_chained (node : Node) : Follow (chained rules node) (chained rules' node) :=
  follow_chain (Loop.shrinks hr.move .links) (Loop.shrinks hr.move' .links) (continues_link hr)
    closes_link node

theorem goesOn_functionCall (name : NameId) (place : Span) {c : Cursor}
    (hc : c.current.kind.isTerm = false) : GoesOn anyPiece (fun _ => .before)
      (functionCall rules name place) (functionCall rules' name place) c :=
  goesOn_list hr .rparen rfl rfl (fun _ args last => .ofSend (place.merge last) none name args) hc

theorem continues_identifier (text : String) (place : Span) :
    Inner (identifier rules text place) (identifier rules' text place) := by
  refine .bind (continues_intern text) (fun name => ?_) (.any _ [])
  refine continues_ifHere (fun _ _ _ h => h.opensCall) isTerm_of_opensCall Late.not_never
    (fun c hc => goesOn_functionCall hr name place hc) ?_
  refine .bind (.see fun _ _ _ h => ?_) (fun _ => .ite (.pure (Late.never_le _)) ?_) (.any _ [])
  · simp only [Cursor.isLocal, h.bodies]
  have command : Inner (do pure (Node.ofSend place none name (← commandArgs rules)))
      (do pure (Node.ofSend place none name (← commandArgs rules'))) :=
    .bind (continues_commandArgs hr) (fun _ => .pure (Late.le_refl _)) (.any _ [])
  exact continues_ifHere (fun _ _ _ => startsCommand_prolongs) isTerm_of_startsCommand
    Late.not_never (fun c _ => command.goes c) (.pure (Late.never_le _))

theorem continues_constant (text : String) (place : Span) :
    Inner (constant rules text place) (constant rules' text place) :=
  .bind (continues_intern text) (fun name => continues_ifHere (fun _ _ _ h => h.opensCall)
    isTerm_of_opensCall Late.not_never (fun _ hc => goesOn_functionCall hr name place hc)
    (.pure (Late.never_le _))) (.any _ [])

/-! ### Blocks -/

omit hr in
theorem continues_opening (w : Keyword) (h : w ≠ .kNil) (h' : w ≠ .kEnd) :
    Continues .before [] endsBody (fun _ => .always) (opening w) (opening w) := by
  refine continues_ifTerms Late.not_before ?_ fun c hc => ?_
  · exact .bind (continues_eatKeyword w h h') (fun _ => .pure (Late.le_always _)) (.any _ [])
  · refine goesOn_takeHere hc fun t c' => ?_
    split
    · exact .inl ⟨(), c', rfl, fun _ _ _ hd => ⟨rfl, hd⟩⟩
    · exact .lost rfl

/-- A branch may end with the text, if something closes it. -/
theorem continues_elseBranch : Stretch (elseBranch rules) (elseBranch rules') := by
  refine (continues_eatKeyword .kElse nofun nofun).skip (hr.stmts.relax False.elim fun _ => id) ?_
    (.any _ [])
  exact continues_byCurrent fun t t' h => .before (h.span ▸ .pure (Late.le_always _))

theorem continues_otherBranch : Stretch (otherBranch rules) (otherBranch rules') :=
  (continues_eatKeyword .kElsif nofun nofun).skip (.bind continues_prevSpan
    (fun place => hr.branch place) (.any _ [])) (continues_elseBranch hr) (.any _ [])

/-- **A condition** may end in any of its branches, if something closes it. -/
theorem continues_branches (place : Span) :
    Opens (branches rules place) (branches rules' place) := by
  refine .relax (.bind hr.expr (fun test => .bind (continues_opening .kThen nofun nofun) (fun _ =>
    .bind hr.stmts (fun yes => .bind (continues_otherBranch hr) (fun no => .pure (Late.le_refl _))
      fun _ => id) fun _ => id) fun _ => id) (.any _ [])) False.elim fun _ => id

theorem continues_unlessBlock (place : Span) :
    Inner (unlessBlock rules place) (unlessBlock rules' place) := by
  refine .relax (.bind hr.expr (fun test => .bind (continues_opening .kThen nofun nofun) (fun _ =>
    .bind hr.stmts (fun no => .bind (continues_elseBranch hr) (fun yes =>
      .bind continues_expectEnd (fun _ => .pure (Late.le_refl _)) (.any _ [])) trivial) trivial)
    trivial) (.any _ _)) False.elim fun _ => id

theorem continues_whileBlock (place : Span) :
    Inner (whileBlock rules place) (whileBlock rules' place) := by
  refine .relax (.bind hr.expr (fun test => .bind (continues_opening .kDo nofun nofun) (fun _ =>
    .bind hr.stmts (fun body => .bind continues_expectEnd (fun _ => .bind continues_prevSpan
      (fun _ => .pure (Late.le_refl _)) (.any _ [])) (.any _ [])) trivial) trivial) (.any _ _))
    False.elim fun _ => id

theorem continues_jumpValue (place : Span) :
    Inner (jumpValue rules place) (jumpValue rules' place) := by
  refine continues_byCurrent fun t t' h => .before ?_
  rcases h with rfl | ⟨he, hl, -⟩
  · exact .ite (.pure ⟨False.elim, fun _ h => h.1.elim⟩) (hr.arg.relax False.elim fun _ h => h.1)
  · simp only [he, hl]
    exact .pure ⟨False.elim, fun _ h => h.1.elim⟩

theorem continues_rescueClasses : Inner (rescueClasses rules) (rescueClasses rules') := by
  refine continues_byCurrent fun t t' h => .before ?_
  rcases h with rfl | ⟨he, hl, -⟩
  · exact .ite (.pure ⟨False.elim, fun _ h => h.1.elim⟩)
      ((continues_commandArgs hr).never ⟨False.elim, fun _ h => h.1⟩)
  · simp only [he, hl]
    exact (continues_commandArgs hr).never ⟨False.elim, fun _ h => h.1⟩

omit hr in
theorem continues_rescueBinder : Follow rescueBinder rescueBinder := by
  refine (continues_eatPunctHere .arrow rfl Late.not_before).skip (.relax (e := .never)
    (r := [.binder]) ?_ id fun _ => id) (.pure (Late.le_refl _)) (.any _ [])
  exact .bind (continues_expectIdent .binder rfl ⟨_, rfl⟩) (fun name =>
    .bind (continues_declare name) (fun _ => .pure (Late.le_refl _)) (.any _ [])) (.any _ [])

/-- A clause may end in its body, if something closes it. -/
theorem continues_rescueClause : Opens (rescueClause rules) (rescueClause rules') := by
  refine continues_ifTerms Late.not_never ?_ fun c hc => ?_
  · exact .bind hr.stmts (fun _ => .pure (Late.le_always _)) fun _ => id
  · refine (?_ : Opens _ _).goes c
    exact .bind (continues_rescueClasses hr) (fun classes => .bind continues_rescueBinder
      (fun binder? => .bind (continues_opening .kThen nofun nofun) (fun _ =>
        .bind hr.stmts (fun body => .pure (Late.le_refl _)) fun _ => id) fun _ => id) (.any _ []))
      (.any _ [])

omit hr in
/-- A loop that may end where a body does. -/
theorem stretch_chain {β : Type} {step step' : β → Parser (Option β)} (ht : Shrinks step)
    (ht' : Shrinks step') (hs : ∀ a, Stretch (step a) (step' a))
    (hn : ∀ a, Closes Late.always.going [] endsBody (fun o => .given (o = none) .always) (step' a))
    (a : β) : Stretch (chain step a) (chain step' a) := by
  have round : ∀ a, Continues ⟨True, fun _ => False⟩ [] endsBody (fun _ => .always) (step a)
      (step' a) := fun a => (hs a).relax id fun _ => id
  have loop := Continues.chain (F := fun _ => True) (g := fun _ => True) (x := fun _ => .always)
    ht ht' round (fun a => Late.le_refl _) (fun _ _ => id) (fun _ _ _ h => ⟨trivial, h⟩)
    (fun a _ => hn a) a
  exact loop.mono ⟨id, fun _ h => ⟨trivial, h⟩⟩ (fun _ => id) fun _ => Late.le_refl _

theorem continues_nextRescue (clauses : List (RescueClause Node)) :
    Stretch (nextRescue rules clauses) (nextRescue rules' clauses) :=
  (continues_eatKeyword .kRescue nofun nofun).skip (.bind (continues_rescueClause hr)
    (fun _ => .pure (Late.le_refl _)) fun _ => id) (.pure (Late.le_refl _)) (.any _ [])

omit hr in
/-- No piece is a further clause. -/
theorem closes_nextRescue (clauses : List (RescueClause Node)) :
    Closes Late.always.going [] endsBody (fun o => .given (o = none) .always)
      (nextRescue rules' clauses) :=
  (continues_eatKeyword .kRescue nofun nofun).closes.skip (.pure fun _ h => ⟨rfl, h⟩) (.any _ [])

theorem continues_rescueClauses : Stretch (rescueClauses rules) (rescueClauses rules') :=
  stretch_chain (Loop.shrinks hr.move .rescues) (Loop.shrinks hr.move' .rescues)
    (continues_nextRescue hr) closes_nextRescue []

theorem continues_otherwiseClause (rescued : Bool) :
    Stretch (otherwiseClause rules rescued) (otherwiseClause rules' rescued) := by
  refine (continues_eatKeyword .kElse nofun nofun).skip (.ite ?_ ?_) (.pure (Late.le_refl _))
    (.any _ [])
  · exact .relax (hr.stmts.map fun _ => Late.le_refl _) False.elim fun _ => id
  · exact .ofLost (fun _ => rfl) fun _ => id

theorem continues_ensureClause : Stretch (ensureClause rules) (ensureClause rules') :=
  (continues_eatKeyword .kEnsure nofun nofun).skip
    (.relax (hr.stmts.map fun _ => Late.le_refl _) False.elim fun _ => id)
    (.pure (Late.le_refl _)) (.any _ [])

/-- **A body with its clauses** may end in any of them, if something closes it. -/
theorem continues_guardedBody : Stretch (guardedBody rules) (guardedBody rules') := by
  refine .bind hr.stmts (fun body => .bind (continues_rescueClauses hr) (fun rescues =>
    .bind (continues_otherwiseClause hr _) (fun otherwise => .bind (continues_ensureClause hr)
      (fun cleanup => .ite (.pure (Late.le_refl _)) ?_) fun _ => id) fun _ => id) fun _ => id)
    fun _ => id
  exact .bind continues_prevSpan (fun _ => .pure (Late.le_refl _)) fun _ => id

theorem continues_beginBlock (place : Span) :
    Inner (beginBlock rules place) (beginBlock rules' place) := by
  refine .relax (.bind (continues_guardedBody hr) (fun node => .bind continues_expectEnd
    (fun _ => ?_) (.any _ [])) trivial) False.elim fun _ => id
  split
  · exact .pure (Late.le_refl _)
  · exact .bind continues_prevSpan (fun _ => .pure (Late.le_refl _)) (.any _ [])

/-! ### Definitions -/

omit hr in
theorem continues_setterName (text : String) : Follow (setterName text) (setterName text) := by
  let marked := text.endsWith "?" || text.endsWith "!"
  change Follow (Action.view (fun c => !marked && (c.current.kind.isPunct .assign && !c.hasGap)) >>=
      fun b => if b then take >>= fun _ => intern (text ++ "=") else intern text)
    (Action.view (fun c => !marked && (c.current.kind.isPunct .assign && !c.hasGap)) >>=
      fun b => if b then take >>= fun _ => intern (text ++ "=") else intern text)
  refine continues_ifHere (fun _ _ _ h => ?_) (fun c h => ?_) Late.not_before (fun c hc => ?_)
    (continues_intern text)
  · rw [joined_prolongs h]
  · rw [Bool.and_eq_true] at h
    exact isTerm_of_joined (p := .assign) rfl c h.2
  · exact goesOn_takeHere hc fun _ => (continues_intern _).goes

omit hr in
theorem continues_definedName (t : Token) :
    Continues (.given (t.kind = .keyword .kNil) .before) [] anyPiece (fun _ => .before)
      (definedName t) (definedName t) := by
  have named : ∀ name : String, Continues (.given (t.kind = .keyword .kNil) .before) [] anyPiece
      (fun _ => .before) (setterName name) (setterName name) := fun name =>
    (continues_setterName name).mono Late.given_le (fun _ => id) fun _ => Late.le_refl _
  unfold definedName
  split
  · exact named _
  · exact named _
  · exact named _
  · rename_i hk
    exact (continues_operatorName _).never (Late.given_false_le (by simp [hk]))
  · rename_i hw _
    exact .failAt nofun fun _ h => hw .kNil h.1

omit hr in
/-- There is a name for a parameter that is not in a table yet. -/
theorem exists_fresh (names : NameTable) : ∃ n, names.find? (Piece.name n) = none := by
  have inj : Function.Injective Piece.name := by
    intro m n h
    simpa [Piece.name] using congrArg (fun s => s.toList.length) h
  obtain ⟨_, ⟨n, rfl⟩, hn⟩ :=
    (Set.infinite_range_of_injective inj).exists_notMem_finset names.entries.toList.toFinset
  refine ⟨n, Option.map_eq_none_iff.mpr (Array.idxOf?_eq_none_iff.mpr ?_)⟩
  simpa using hn

/-- Whether parameters have names that are in the table. -/
def Named (params : List (Param Node)) (c : Cursor) : Prop :=
  ∀ p ∈ params, p.name.index < c.names.entries.size

/-- A parameter after its name. -/
def paramNamed (rules : Rules) (params : List (Param Node)) (place : Span) (name : NameId) :
    Parser (Param Node) := do
  if params.any fun p => p.name = name then failAt .duplicateParameter place
  else
    declare name
    if ← eatPunctHere .assign then
      let value ← rules .arg
      pure ⟨name, some value⟩
    else if params.any fun p => p.default?.isSome then failAt .requiredAfterOptional place
    else pure ⟨name, none⟩

omit hr in
/-- A parameter is its name and what may follow it. -/
theorem param_apply (params : List (Param Node)) (c : Cursor) : param rules params c =
    (expectIdent >>= paramNamed rules params c.current.span) c := rfl

/-- A default that is missing is an operand that is missing. -/
theorem continues_default (name : NameId) :
    Operand (do pure (Param.mk name (some (← rules .arg))))
      (do pure (Param.mk name (some (← rules' .arg)))) :=
  .bind hr.arg (fun _ => .pure (Late.le_refl _)) (.any _ [])

/-- A parameter whose name has been read is complete, or lacks its default. -/
theorem continues_paramNamed (params : List (Param Node)) (place : Span) (name : NameId) :
    Inner (paramNamed rules params place name) (paramNamed rules' params place name) := by
  refine .ite (.ofLost (fun _ => rfl) fun _ => id) (.bind (continues_declare name) (fun _ => ?_)
    (.any _ []))
  exact (continues_eatPunctHere .assign rfl Late.not_never).skip
    ((continues_default hr name).inner fun _ => Late.le_refl _)
    (.ite (.ofLost (fun _ => rfl) fun _ => id) (.pure (Late.never_le _))) (.any _ [])

omit hr in
theorem paramNamed_done (hr : rules.Move 0) {params : List (Param Node)} {place : Span}
    {name : NameId} {p : Param Node} {c c' : Cursor}
    (h : paramNamed rules params place name c = .done p c') :
    p.name = name ∧ c.names.Grows c'.names := by
  have moves : MovesBy 0 (fun _ => False) unnamed (paramNamed rules params place name) := by
    refine .ite .failAt ((moves_declare name).andThen fun _ =>
      .eat (fun _ => moves_eatPunctHere .assign) (hr.arg.any.andThen fun _ => .pure rfl nofun)
        (.ite .failAt (.pure rfl nofun)))
  refine ⟨?_, ?_⟩
  · unfold paramNamed at h
    split at h
    · cases h
    · obtain ⟨_, c₁, -, h⟩ := Action.bind_eq_done.mp h
      obtain ⟨b, c₂, -, h⟩ := Action.bind_eq_done.mp h
      split at h
      · obtain ⟨value, c₃, -, h⟩ := Action.bind_eq_done.mp h
        cases h
        rfl
      · split at h
        · cases h
        · cases h
          rfl
  · have went := moves c
    rw [h] at went
    exact went.1.names

omit hr in
/-- The name of a parameter is in the table. -/
theorem named_of_param (hr : rules.Move 0) {params : List (Param Node)} {p : Param Node}
    {c c' : Cursor} (hn : Named params c) (h : param rules params c = .done p c') :
    Named (params ++ [p]) c' := by
  have grows : c.names.Grows c'.names := by
    have went := moves_param hr params (N := fun _ => False) c
    rw [h] at went
    exact went.1.names
  rw [param_apply] at h
  obtain ⟨name, c₁, hi, h⟩ := Action.bind_eq_done.mp h
  obtain ⟨t, c₀, -, hi⟩ := Action.bind_eq_done.mp hi
  have known : name.index < c₁.names.entries.size := by
    cases hk : t.kind with
    | ident text =>
        simp only [hk] at hi
        cases hi
        exact (NameTable.text_intern _ _).1
    | _ =>
        simp only [hk] at hi
        cases hi
  obtain ⟨rfl, later⟩ := paramNamed_done hr h
  intro p' hp
  rcases List.mem_append.mp hp with hp | hp
  · exact (hn p' hp).trans_le grows.toExtends.size_le
  · obtain rfl := List.mem_singleton.mp hp
    exact known.trans_le later.toExtends.size_le

omit hr in
/-- A parameter with a name of its own and a default value. -/
theorem paramNamed_default {params : List (Param Node)} {place : Span} {name : NameId} {d : Cursor}
    {t : Token} {rest : List Token} (hn : ∀ p ∈ params, p.name ≠ name) (hd : d.rest = t :: rest)
    (ht : t.kind = .punct .assign) : ∃ d' : Cursor, d'.rest = rest ∧
      paramNamed rules params place name d =
        (do pure (Param.mk name (some (← rules .arg)))) d' := by
  have new : (params.any fun p => p.name = name) = false := by simpa using hn
  have keeps : (d.declare name).rest = t :: rest := by
    rw [← hd]
    unfold Cursor.declare
    split
    · rfl
    · split <;> rfl
  have seen : (d.declare name).current.kind = .punct .assign := by simp [Cursor.current, keeps, ht]
  obtain ⟨rest', hrest, htake, -⟩ := take_eq_advance (c := d.declare name) (by rw [seen]; rfl)
  refine ⟨{ d.declare name with rest := rest', prev := (d.declare name).current.span }, ?_, ?_⟩
  · exact (List.cons.inj (hrest.symm.trans keeps)).2
  have eaten : eatPunctHere .assign (d.declare name) = .done true
      { d.declare name with rest := rest', prev := (d.declare name).current.span } := by
    have yes : (d.declare name).current.kind.isPunct .assign = true := by rw [seen]; rfl
    simp only [eatPunctHere, current, Action.bind_apply, Action.view, yes, if_true, htake]
    rfl
  have declared : declare name d = .done () (d.declare name) := rfl
  rw [paramNamed, new, if_neg Bool.false_ne_true, Action.bind_apply, declared]
  change (eatPunctHere .assign >>= _) _ = _
  rw [Action.bind_apply, eaten]
  rfl

/-- A parameter that is missing is written in the text that goes on, under a new name. -/
theorem goesOn_param {params : List (Param Node)} {c : Cursor} (hn : Named params c) :
    GoesOn anyPiece (fun _ => .before) (param rules params) (param rules' params) c := by
  by_cases hat : AtEnd c.rest
  · obtain ⟨n, hfresh⟩ := exists_fresh c.names
    refine .inr (.inl ⟨fun p c' h => ?_, [.param n], fun k ts d hk hts hd => ?_⟩)
    · obtain ⟨name, c₁, h, -⟩ := Action.bind_eq_done.mp (param_apply params c ▸ h)
      obtain ⟨t, c₂, h, -⟩ := Action.bind_eq_done.mp h
      exact (take_of_atEnd hat h).elim
    · have stands := hd.tokens.stands hat
      have line := hk.append (.any anyPiece [.param n]) hts
      obtain ⟨next, u, rest, -, -, htail, hsig⟩ := Cursor.significant_of_stands line stands
      obtain ⟨brk, ts, rfl, -, hts⟩ := List.map_eq_cons_iff.mp hts
      obtain ⟨_, ts, rfl, ht, hts⟩ := List.map_eq_cons_iff.mp hts
      obtain ⟨eq, ts, rfl, heq, hvalue⟩ := List.map_eq_cons_iff.mp hts
      cases htail
      have fresh : d.names.find? (Piece.name n) = none := hd.names ▸ hfresh
      obtain ⟨d₁, hd₁, read⟩ : ∃ d₁ : Cursor, d₁.rest = eq :: (ts ++ k) ∧
          expectIdent d = .done ⟨d.names.entries.size⟩ d₁ := by
        have taken : take d = .done u { d with rest := eq :: (ts ++ k), prev := u.span } := by
          simp [take, hsig, ht, Piece.head, TokenKind.isEof]
        simp only [expectIdent, Action.bind_apply, taken, ht, Piece.head, intern,
          Action.transform, NameTable.intern_of_find?_eq_none fresh]
        exact ⟨_, rfl, rfl⟩
      have new : ∀ p ∈ params, p.name ≠ ⟨d.names.entries.size⟩ := by
        intro p hp hname
        have := hn p hp
        simp [hname, hd.names] at this
      rw [param_apply, Action.bind_apply, read]
      obtain ⟨d', hd', run⟩ := paramNamed_default new hd₁ heq
      change Yields _ (paramNamed rules' params _ _ d₁)
      rw [run]
      exact (continues_default hr _).closes true trivial k ts d' hk hvalue (hd' ▸ .refl true _)
  · have named : GoesOn anyPiece (fun _ => .before)
        (expectIdent >>= paramNamed rules params c.current.span)
        (expectIdent >>= paramNamed rules' params c.current.span) c := by
      unfold expectIdent
      simp only [bind_assoc]
      refine (exact_take hat).andThen fun t c' => ?_
      cases t.kind with
      | ident text =>
          exact (Continues.bind (continues_intern text) (fun name => continues_paramNamed hr params
            c.current.span name) (.any _ [])).goes c'
      | _ => exact .lost rfl
    refine named.congr rfl fun more d hd => ?_
    rw [param_apply, hd.current.span]

/-- A list of parameters may end where no comma follows; this is also known at the end of the
text. -/
abbrev endedList {β : Type} (o : Option (β × Bool)) : Late :=
  ⟨o = none ∨ ∃ b, o = some (b, false), fun pos => (∃ b, o = some (b, false)) ∧ pos = true⟩

/-- **Parameters** that end with a comma go on with a name that none of them has. -/
theorem goesOn_nextParam {params : List (Param Node)} {more : Bool} {c : Cursor}
    (hn : Named params c) :
    GoesOn anyPiece endedList (nextParam rules (params, more))
      (nextParam rules' (params, more)) c := by
  cases more with
  | false => exact .inl ⟨none, c, rfl, fun _ _ _ hd => ⟨rfl, hd⟩⟩
  | true =>
      have comma : ∀ p, Continues .before [] anyPiece endedList
          (do pure (some (params ++ [p], ← eatPunct .comma)))
          (do pure (some (params ++ [p], ← eatPunct .comma))) := by
        refine fun p => .bind (continues_eatComma Late.not_before) (fun b => .pure ?_) (.any _ [])
        cases b with
        | true => exact Late.given_false_le nofun
        | false => exact ⟨fun _ => .inr ⟨_, rfl⟩, fun _ h => ⟨⟨_, rfl⟩, h.2⟩⟩
      exact (goesOn_param hr hn).bind (fun p c' _ => (comma p).goes c') (fun p => (comma p).lingers)
        (fun p => (comma p).closes) (.any _ [])

omit hr in
theorem nextParam_of_atEnd {params : List (Param Node)} {more : Bool} {c c' : Cursor}
    {o : Option (List (Param Node) × Bool)} (hat : AtEnd c.rest)
    (h : nextParam rules (params, more) c = .done o c') : o = none ∧ c' = c := by
  cases more with
  | false =>
      cases h
      exact ⟨rfl, rfl⟩
  | true =>
      obtain ⟨p, c₁, h, -⟩ := Action.bind_eq_done.mp h
      obtain ⟨name, c₂, h, -⟩ := Action.bind_eq_done.mp (param_apply params c ▸ h)
      obtain ⟨t, c₃, h, -⟩ := Action.bind_eq_done.mp h
      exact (take_of_atEnd hat h).elim

omit hr in
/-- The names of the parameters stay in the table. -/
theorem named_of_nextParam (hr : rules.Move 0) {a b : List (Param Node) × Bool} {c c' : Cursor}
    (hn : Named a.1 c) (h : nextParam rules a c = .done (some b) c') : Named b.1 c' := by
  obtain ⟨params, more⟩ := a
  cases more with
  | false => cases h
  | true =>
      obtain ⟨p, c₁, hp, h⟩ := Action.bind_eq_done.mp h
      obtain ⟨comma, c₂, hc, h⟩ := Action.bind_eq_done.mp h
      cases h
      have went := moves_eatPunct .comma (n := 0) (N := fun _ => False) c₁
      rw [hc] at went
      exact fun p' hp' => (named_of_param hr hn hp p' hp').trans_le went.1.names.toExtends.size_le

theorem continues_someParams :
    Continues ⟨True, fun _ => False⟩ [] anyPiece (fun _ => .here) (someParams rules)
      (someParams rules') := by
  have ht := Loop.shrinks hr.move .params
  have ht' := Loop.shrinks hr.move' .params
  have lingers : ∀ a : List (Param Node) × Bool, True → ∀ c, AtEnd c.rest → ∀ o c',
      nextParam rules a c = .done o c' → (endedList o).ending ∧ AtEnd c'.rest := by
    intro a _ c hat o c' h
    obtain ⟨rfl, rfl⟩ := nextParam_of_atEnd hat h
    exact ⟨.inl rfl, hat⟩
  have loop : Continues ⟨True, fun _ => False⟩ [] anyPiece (fun _ => .here)
      (chain (nextParam rules) ([], true)) (chain (nextParam rules') ([], true)) := by
    refine ⟨fun c => ?_, fun _ c => ?_, fun _ => False.elim⟩
    · refine Continues.goesOn_chain (z := fun _ => endedList) (F := fun a => a.2 = false)
        (g := fun b => b = true) (I := fun a => Named a.1) ht ht'
        (fun _ _ _ _ hn h => named_of_nextParam hr.move hn h) (fun _ _ hn => goesOn_nextParam hr hn)
        lingers (fun _ => ⟨fun _ => trivial, fun _ h => h.2⟩) (fun _ _ _ => trivial)
        (fun _ b pos h => ?_) (fun a ha => ?_) _ c nofun
      · obtain ⟨⟨b, hb⟩, hpos⟩ := h
        cases hb
        exact ⟨rfl, hpos⟩
      · obtain ⟨params, more⟩ := a
        cases ha
        exact .pure fun _ h => ⟨rfl, h⟩
    · exact Continues.lingers_chain (z := fun _ => endedList) ht lingers
        (fun _ => ⟨fun _ => trivial, fun _ h => h.2⟩) (fun _ _ _ => trivial) _ c trivial
  exact .bind loop (fun _ => .pure (Late.le_refl _)) (.any _ [])

theorem continues_anyParams :
    Continues .never [] anyPiece (fun _ => .here) (anyParams rules) (anyParams rules') := by
  refine (continues_eatPunctHere .lparen rfl Late.not_never).skip ?_ ?_ (.any _ [])
  · have close : ∀ params : List (Param Node), Continues .here [.rparen] anyPiece
        (fun _ => .here) (do expectPunct .rparen; pure params)
        (do expectPunct .rparen; pure params) :=
      fun params => .bind (continues_expectPunct rfl rfl)
        (fun _ => .pure ⟨False.elim, fun _ => id⟩) (.any _ [])
    have listed : Continues ⟨True, fun _ => False⟩ [.rparen] anyPiece (fun _ => .here)
        (do let params ← someParams rules
            expectPunct .rparen
            pure params)
        (do let params ← someParams rules'
            expectPunct .rparen
            pure params) :=
      .bind (continues_someParams hr) close trivial
    refine ((continues_eatClose (show Piece.rparen.head = .punct .rparen from rfl) rfl).eat ?_ ?_
      (.any _ [])).relax (e := .never) id (fun _ => id)
    · exact .pure ⟨fun _ => trivial, fun _ h => h.2⟩
    · exact listed.relax (fun _ => trivial) fun _ h => nomatch h.1
  · refine continues_byCurrent fun t t' h => .before ?_
    rcases h with rfl | ⟨he, hl, -⟩
    · split
      · exact (continues_someParams hr).relax False.elim fun _ h => h.1
      · exact .pure ⟨False.elim, fun _ h => h.1.elim⟩
    · simp only [he, hl]
      exact .pure ⟨False.elim, fun _ h => h.1.elim⟩

theorem continues_paramList :
    Continues .before [] endsBody (fun _ => .always) (paramList rules) (paramList rules') := by
  refine continues_ifTerms Late.not_before (.pure (Late.le_refl _)) fun c _ => ?_
  have terms : ∀ params : List (Param Node), Continues .here [] endsBody (fun _ => .always)
      (eatTerms >>= fun _ => pure params) (eatTerms >>= fun _ => pure params) := fun params =>
    .bind continues_eatTerms (fun _ => .pure (Late.le_always _)) (.any _ [])
  exact ((continues_anyParams hr).goes c).bind (fun params c' _ => (terms params).goes c')
    (fun params => (terms params).lingers) (fun params => (terms params).closes) (.any _ [])

omit hr in
theorem continues_definitionTarget (t : Token) :
    Continues (.given (t.kind = .keyword .kNil) .before) [] anyPiece
      (fun o => .given (o = none) (.given (t.kind = .keyword .kNil) .before))
      (definitionTarget t) (definitionTarget t) := by
  refine continues_byCurrent fun u u' h => .before ?_
  have same : u.kind.isPunct .dot = u'.kind.isPunct .dot := by
    rcases h with rfl | ⟨he, hl, -⟩
    · rfl
    · rw [he, hl]; rfl
  rw [← same]
  refine Continues.mono (e := .given (t.kind = .keyword .kNil) .before) ?_ ⟨id, fun _ => And.left⟩
    (fun _ => id) fun _ => Late.le_refl _
  split
  · rename_i hk
    exact .pure (Late.given_false_le (by simp [hk]))
  · rename_i hk
    refine .ite (.bind (continues_intern _) (fun _ => .pure (Late.given_false_le (by simp [hk])))
      (.any _ [])) (.pure (Late.given_false_le (by simp [hk])))
  · exact .pure ⟨fun h => ⟨rfl, h⟩, fun _ h => ⟨rfl, h⟩⟩

omit hr in
theorem continues_definitionName (t : Token) (target? : Option Node) :
    Continues (.given (target? = none) (.given (t.kind = .keyword .kNil) .before)) [] anyPiece
      (fun _ => .before) (definitionName t target?) (definitionName t target?) := by
  cases target? with
  | none =>
      exact (continues_definedName t).mono Late.given_le (fun _ => id) fun _ => Late.le_refl _
  | some target =>
      have dotted : Continues .always [.operand, .operand] anyPiece (fun _ => .before)
          (do let _ ← take
              definedName (← take))
          (do let _ ← take
              definedName (← take)) :=
        .bind (continues_take .operand rfl) (fun _ => .bind (continues_take .operand rfl)
          continues_definedName (.any _ [])) (.any _ [.operand])
      exact (dotted.inner fun _ => Late.le_refl _).never (Late.given_false_le nofun)

theorem continues_methodParts :
    Continues .before [] endsBody (fun _ => .always) (methodParts rules) (methodParts rules') :=
  .bind (continues_paramList hr) (fun _ => .bind (continues_guardedBody hr)
    (fun _ => .pure (Late.le_refl _)) fun _ => id) fun _ => id

/-- **A definition** is completed by a name, a parameter or its `end`, whichever it lacks. -/
theorem continues_methodDefinition (place : Span) :
    Inner (methodDefinition rules place) (methodDefinition rules' place) := by
  refine .relax (.bind (continues_take .operand rfl) (fun t => .bind (continues_definitionTarget t)
    (fun target? => .bind (continues_definitionName t target?) (fun name =>
      .bind (.within .methodBody (continues_methodParts hr)) (fun parts =>
        .bind continues_expectEnd (fun _ => .bind continues_prevSpan (fun last => ?_) (.any _ []))
          (.any _ [])) trivial) (.any _ _)) (.any _ _)) (.any _ _)) (e := .never) id fun _ => id
  cases target? with
  | some target => exact .pure (Late.le_refl _)
  | none => exact .pure (Late.le_refl _)

omit hr in
theorem continues_className (t : Token) :
    Continues (.given (t.kind = Piece.const.head) .before) [] anyPiece (fun _ => .before)
      (className t) (className t) := by
  unfold className
  split
  · exact (continues_intern _).mono (Late.le_refl _) (fun _ => id) fun _ => Late.given_le
  · rename_i hk
    exact .failAt nofun fun _ h => hk _ h.1

theorem continues_classParent : Follow (classParent rules) (classParent rules') := by
  have parent : Operand (some <$> rules .expr) (some <$> rules' .expr) :=
    hr.expr.map fun _ => Late.le_refl _
  exact (continues_eatPunctHere .less rfl Late.not_before).skip
    (parent.inner fun _ => Late.le_refl _) (.pure (Late.le_refl _)) (.any _ [])

/-- A class is completed by a constant or its `end`. -/
theorem continues_classDefinition (place : Span) :
    Inner (classDefinition rules place) (classDefinition rules' place) := by
  refine .relax (.bind (continues_take .const rfl) (fun t => .bind (continues_className t)
    (fun name => .bind (continues_classParent hr) (fun parent? => .bind (continues_eatTerms.mono
      (Late.le_refl _) (fun _ => id) fun _ => Late.le_always _) (fun _ =>
        .bind (.within .classBody (continues_guardedBody hr)) (fun body =>
          .bind continues_expectEnd (fun _ => .bind continues_prevSpan
            (fun last => .pure (Late.le_refl _)) (.any _ [])) (.any _ [])) trivial) (.any _ _))
      (.any _ _)) (.any _ _)) (.any _ _)) (e := .never) id fun _ => id

/-! ### Operands -/

/-- **A primary** that is missing is an operand, and one that is begun is completed. -/
theorem continues_primary : Operand (primary rules) (primary rules') := by
  refine .bind (continues_take .operand rfl) (fun t => ?_) (.any _ [])
  obtain ⟨kind, place⟩ := t
  -- Only the word that stands for nil is written in place of an operand.
  have away {p q : Parser Node} (h : kind.isKeyword .kNil = false) (hp : Inner p q) :
      Continues (.given (kind = .keyword .kNil) .before) [] anyPiece (fun _ => .before) p q := by
    refine hp.never (Late.given_false_le ?_)
    rintro rfl
    cases h
  have plain (node : Node) : Inner (pure node) (pure node) := .pure (Late.never_le _)
  have named (f : NameId → Node) (text : String) :
      Inner (f <$> intern text) (f <$> intern text) :=
    (continues_intern text).map fun _ => Late.never_le _
  have jump (f : Node → Node) :
      Inner (f <$> jumpValue rules place) (f <$> jumpValue rules' place) :=
    (continues_jumpValue hr place).map fun _ => Late.le_refl _
  have lost {e : SyntaxCause} (he : e ≠ .unexpectedEnd) :
      Inner (failAt e place : Parser Node) (failAt e place) := .failAt he fun _ => id
  cases kind with
  | ident text => exact away rfl (continues_identifier hr text place)
  | instanceVar text => exact away rfl (named _ text)
  | const text => exact away rfl (continues_constant hr text place)
  | num n => exact away rfl (.ite (plain _) (lost (by simp)))
  | float x => exact away rfl (plain _)
  | str s => exact away rfl (plain _)
  | symbol text => exact away rfl (named _ text)
  | eof => exact away rfl (lost (by simp))
  | lineTerm => exact away rfl (lost (by simp))
  | punct p =>
      cases p with
      | lparen =>
          have inside : Continues .always [.rparen] anyPiece (fun _ => .before)
              (do let node ← rules .stmts
                  expectPunct .rparen
                  pure node)
              (do let node ← rules' .stmts
                  expectPunct .rparen
                  pure node) :=
            .bind hr.stmts (fun node => .bind (continues_expectPunct rfl rfl)
              (fun _ => .pure (Late.le_refl _)) (.any _ [])) trivial
          exact away rfl (inside.inner fun _ => Late.le_refl _)
      | lbracket =>
          exact away rfl (.bind (continues_argsUntil hr .rbracket rfl rfl) (fun _ =>
            .bind continues_prevSpan (fun _ => .pure (Late.le_refl _)) (.any _ [])) (.any _ []))
      | _ => exact away rfl (lost (by simp))
  | keyword w =>
      cases w with
      | kNil => exact .pure Late.given_le
      | kTrue => exact away rfl (plain _)
      | kFalse => exact away rfl (plain _)
      | kSelf => exact away rfl (plain _)
      | kIf =>
          have closed : Inner (do let node ← branches rules place
                                  expectKeyword .kEnd
                                  pure node)
              (do let node ← branches rules' place
                  expectKeyword .kEnd
                  pure node) :=
            .relax (.bind (continues_branches hr place) (fun node => .bind continues_expectEnd
              (fun _ => .pure (Late.le_refl _)) (.any _ [])) trivial) id fun _ => id
          exact away rfl closed
      | kUnless => exact away rfl (continues_unlessBlock hr place)
      | kWhile => exact away rfl (continues_whileBlock hr place)
      | kDef => exact away rfl (continues_methodDefinition hr place)
      | kClass =>
          refine away rfl (.bind (.see fun _ _ _ h => ?_) (fun _ => .ite (lost (by simp))
            (continues_classDefinition hr place)) (.any _ []))
          simp only [Cursor.inMethod, h.bodies]
      | kBegin => exact away rfl (continues_beginBlock hr place)
      | kReturn => exact away rfl (jump _)
      | kBreak => exact away rfl (jump _)
      | kNext => exact away rfl (jump _)
      | _ => exact away rfl (lost (by simp))

omit hr in
/-- What a mark or word in front negates. -/
theorem continues_negated {p q : Parser Node} (hp : Operand p q) :
    Inner (do let place ← prevSpan
              Node.ofNot place <$> p)
      (do let place ← prevSpan
          Node.ofNot place <$> q) :=
  .inner (.bind (e := .always) continues_prevSpan (fun _ => hp.map fun _ => Late.le_refl _)
    (.any _ _)) fun _ => Late.le_refl _

theorem continues_unary : Operand (unary rules) (unary rules') :=
  (continues_eatPunct .bang nofun nofun).skip (continues_negated hr.unary)
    (.bind (continues_primary hr) (continues_chained hr) (.any _ [])) (.any _ _)

omit hr in
theorem continues_infixCall {e : Late} {H : Option Piece → Prop} (p : Punct) (left right : Node) :
    Continues e [] H (fun _ => e) (infixCall p left right) (infixCall p left right) :=
  .bind (continues_intern _) (fun _ => .pure (Late.le_refl _)) fun _ => id

theorem continues_power : Operand (power rules) (power rules') := by
  refine .bind (continues_unary hr) (fun left => ?_) (.any _ [])
  have raised : Operand (do infixCall .power left (← rules .signed))
      (do infixCall .power left (← rules' .signed)) :=
    .bind hr.signed (fun right => continues_infixCall .power left right) (.any _ [])
  exact (continues_eatPunctHere .power rfl Late.not_before).skip
    (raised.inner fun _ => Late.le_refl _) (.pure (Late.le_refl _)) (.any _ [])

omit hr in
/-- Whether a sign is joined to a number is seen before the end of the text. -/
theorem continues_signedNumber (place : Span) :
    Continues .never [] anyPiece (fun _ => .never) (signedNumber? place) (signedNumber? place) := by
  refine continues_byCurrent fun t t' h => ?_
  rcases h with rfl | ⟨he, hl, -⟩
  · split
    · rename_i hk
      split
      · exact .advance id rfl (by simp [hk, TokenKind.isTerm]) (.pure (Late.le_refl _))
      · exact .before (.failAt (by simp) fun _ => And.left)
    · rename_i hk
      exact .advance id rfl (by simp [hk, TokenKind.isTerm]) (.pure (Late.le_refl _))
    · exact .before (.pure ⟨id, fun _ => And.left⟩)
  · simp only [he, hl]
    exact .before (.pure ⟨id, fun _ => And.left⟩)

omit hr in
/-- At the end of a line there is no number. -/
theorem signedLiteral_of_isTerm (place : Span) {c : Cursor} (h : c.current.kind.isTerm = true) :
    signedLiteral? place c = .done none c := by
  have number : signedNumber? place c = .done none c := by
    simp only [signedNumber?, current, Action.bind_apply, Action.view]
    cases hk : c.current.kind with
    | num | float => simp [hk, TokenKind.isTerm] at h
    | _ => rfl
  simp only [signedLiteral?, Action.bind_apply, Action.view]
  split
  · rfl
  · exact number

omit hr in
theorem goesOn_signedLiteral (place : Span) (c : Cursor) :
    GoesOn anyPiece (fun _ => .never) (signedLiteral? place) (signedLiteral? place) c := by
  cases hc : c.current.kind.isTerm with
  | true =>
      refine .inl ⟨none, c, signedLiteral_of_isTerm place hc, fun more d _ hd => ?_⟩
      rw [signedLiteral_of_isTerm place (isTerm_alike hd.current ▸ hc)]
      exact ⟨rfl, hd⟩
  | false =>
      cases hs : c.isSecond .power with
      | true =>
          refine .inl ⟨none, c, ?_, fun more d _ hd => ?_⟩
          · simp only [signedLiteral?, Action.bind_apply, Action.view, hs]
            rfl
          · simp only [signedLiteral?, Action.bind_apply, Action.view, ← hd.isSecond hc, hs]
            exact ⟨rfl, hd⟩
      | false =>
          refine ((continues_signedNumber place).goes c).congr ?_ fun more d hd => ?_
          · simp only [signedLiteral?, Action.bind_apply, Action.view, hs]
            rfl
          · simp only [signedLiteral?, Action.bind_apply, Action.view, ← hd.isSecond hc, hs]
            rfl

theorem continues_signed : Operand (signed rules) (signed rules') := by
  refine (continues_eatPunct .minus nofun nofun).skip (s := [.operand]) ?_ (continues_power hr)
    (.any _ _)
  refine .bind continues_prevSpan (fun place => ?_) (.any _ [])
  have literal : Continues .never [] anyPiece (fun _ => .never) (signedLiteral? place)
      (signedLiteral? place) := ⟨goesOn_signedLiteral place, False.elim, nofun⟩
  refine .bind literal (fun o => ?_) (.any _ [])
  cases o with
  | some number => exact (continues_chained hr number).inner fun _ => Late.le_refl _
  | none =>
      have operand : Operand
          (do let operand ← rules .signed
              pure (Node.ofSend (place.merge operand.span) (some operand) NameId.minus []))
          (do let operand ← rules' .signed
              pure (Node.ofSend (place.merge operand.span) (some operand) NameId.minus [])) :=
        .bind hr.signed (fun _ => .pure (Late.le_refl _)) (.any _ [])
      exact operand.inner fun _ => Late.le_refl _

/-! ### Operators -/

omit hr in
theorem continues_eatOperator {e : Late} {H : Option Piece → Prop} (level : Level)
    (hl : ∀ p ∈ level.ops, (TokenKind.punct p).isTerm = false) (hg : ¬e.going false) :
    Continues e [] H (fun o => .given (o = none) e) (eatOperator level) (eatOperator level) := by
  refine continues_byCurrent fun t t' h => ?_
  rcases h with rfl | ⟨he, hb, -⟩
  · split
    · rename_i p hk
      split
      · rename_i hp
        refine .take hg rfl ?_ (.pure (Late.never_le _))
        rw [hk]
        exact hl p (by simpa using hp)
      · exact .before (.pure ⟨fun h => ⟨rfl, h⟩, fun _ h => ⟨rfl, h.1⟩⟩)
    · exact .before (.pure ⟨fun h => ⟨rfl, h⟩, fun _ h => ⟨rfl, h.1⟩⟩)
  · simp only [he, hb]
    exact .before (.pure ⟨fun h => ⟨rfl, h⟩, fun _ h => ⟨rfl, h.1⟩⟩)

omit hr in
theorem continues_join {e : Late} {H : Option Piece → Prop} (level : Level) (p : Punct)
    (left right : Node) :
    Continues e [] H (fun _ => e) (level.join p left right) (level.join p left right) := by
  unfold Level.join
  split
  · exact .pure (Late.le_refl _)
  · exact .pure (Late.le_refl _)
  · exact continues_infixCall p left right

omit hr in
theorem continues_extend {level : Level} (hl : ∀ p ∈ level.ops, (TokenKind.punct p).isTerm = false)
    {operand operand' : Parser Node} (ho : Operand operand operand') (left : Node) :
    Follow (level.extend operand left) (level.extend operand' left) := by
  refine .bind (continues_eatOperator level hl Late.not_before) (fun o => ?_) (.any _ [])
  cases o with
  | none => exact .pure Late.given_le
  | some p =>
      have right : Operand (do some <$> level.join p left (← operand))
          (do some <$> level.join p left (← operand')) :=
        .bind ho (fun right => (continues_join level p left right).map fun _ => Late.le_refl _)
          (.any _ [])
      exact (right.inner fun _ => Late.le_refl _).never (Late.given_false_le nofun)

omit hr in
theorem closes_extend {level : Level} (hl : ∀ p ∈ level.ops, (TokenKind.punct p).isTerm = false)
    (operand : Parser Node) (left : Node) :
    Closes Late.before.going [] anyPiece (fun o => .given (o = none) .before)
      (level.extend operand left) := by
  refine Closes.bind (continues_eatOperator level hl Late.not_before).closes (fun o => ?_)
    (.any _ [])
  cases o with
  | none => exact .pure fun _ h => ⟨rfl, h.2⟩
  | some p => exact fun _ h => nomatch h.1

/-- **An operator** at the end of a text lacks its right side, which is an operand. -/
theorem continues_operation (levels : List Level)
    (hl : ∀ level ∈ levels, ∀ p ∈ level.ops, (TokenKind.punct p).isTerm = false) :
    Operand (operation rules levels) (operation rules' levels) := by
  induction levels with
  | nil => exact continues_signed hr
  | cons level tighter ih =>
      have operand := ih fun l h => hl l (.tail _ h)
      have extend := continues_extend (hl level (.head _)) operand
      refine .bind operand (fun left => ?_) (.any _ [])
      have chained : Follow (chain (level.extend (operation rules tighter)) left)
          (chain (level.extend (operation rules' tighter)) left) :=
        follow_chain (Loop.shrinks hr.move (.operators level tighter))
          (Loop.shrinks hr.move' (.operators level tighter)) extend
          (closes_extend (hl level (.head _)) _) left
      split
      · refine .bind (extend left) (fun o => ?_) (.any _ [])
        cases o with
        | some node => exact .pure (Late.le_refl _)
        | none => exact .pure (Late.le_refl _)
      · exact chained

omit hr in
/-- A target is checked without reading on. -/
theorem continues_checkTarget (target : Node) :
    Continues .never [] anyPiece (fun _ => .never) (checkTarget target) (checkTarget target) := by
  unfold checkTarget
  split
  · exact continues_declare _
  · exact .pure (Late.le_refl _)
  · refine .bind (.see fun _ _ _ h => ?_) (fun _ => .ite (.failAt (by simp) fun _ => id)
      (.pure (Late.le_refl _))) (.any _ [])
    simp only [Cursor.inMethod, h.bodies]
  · exact .ite (.pure (Late.le_refl _)) (.failAt (by simp) fun _ => id)
  · exact .failAt (by simp) fun _ => id

/-- **An assignment** that ends with its mark lacks an operand. -/
theorem continues_assignment : Operand (assignment rules) (assignment rules') := by
  refine .bind (continues_operation hr levels (by decide)) (fun left => ?_) (.any _ [])
  refine (continues_eatPunctHere .assign rfl Late.not_before).skip ?_ ?_ (.any _ [])
  · have right : Operand (do pure (Node.ofAssign left (← rules .arg)))
        (do pure (Node.ofAssign left (← rules' .arg))) :=
      .bind hr.arg (fun _ => .pure (Late.le_refl _)) (.any _ [])
    exact .bind (continues_checkTarget left) (fun _ => right.inner fun _ => Late.le_refl _)
      (.any _ _)
  · refine .bind (continues_eatAssignOp Late.not_before) (fun o => ?_) (.any _ [])
    cases o with
    | none => exact .pure Late.given_le
    | some op =>
        have right : Operand
            (do let right ← rules .arg
                let name ← intern op.method
                pure (Node.ofAssign left (.ofInfix name left right)))
            (do let right ← rules' .arg
                let name ← intern op.method
                pure (Node.ofAssign left (.ofInfix name left right))) :=
          .bind hr.arg (fun _ => .bind (continues_intern _) (fun _ => .pure (Late.le_refl _))
            (.any _ [])) (.any _ [])
        refine .never (.bind (continues_checkTarget left)
          (fun _ => right.inner fun _ => Late.le_refl _) (.any _ _)) (Late.given_false_le nofun)

/-! ### Statements -/

theorem continues_expression : Operand (expression rules) (expression rules') :=
  (continues_eatKeyword .kNot nofun nofun).skip (continues_negated hr.expr)
    (continues_assignment hr) (.any _ _)

/-- A modifier after its word. -/
theorem continues_modifier (f : Span → Node → Node) :
    Inner (do let place ← prevSpan
              pure (some (f place (← rules .expr))))
      (do let place ← prevSpan
          pure (some (f place (← rules' .expr)))) :=
  .inner (.bind (e := .always) continues_prevSpan (fun _ => .bind hr.expr
    (fun _ => .pure (Late.le_refl _)) (.any _ [])) (.any _ _)) fun _ => Late.le_refl _

theorem continues_modified (node : Node) : Follow (modified rules node) (modified rules' node) := by
  refine (continues_eatKeywordHere .kIf Late.not_before).skip
    (continues_modifier hr fun place test => .ofCond place test node (.nop place)) ?_ (.any _ [])
  refine (continues_eatKeywordHere .kUnless Late.not_before).skip
    (continues_modifier hr fun place test => .ofCond place test (.nop place) node) ?_ (.any _ [])
  exact (continues_eatKeywordHere .kWhile Late.not_before).skip
    (continues_modifier hr fun place test => .ofLoop place test node) (.pure (Late.le_refl _))
    (.any _ [])

omit hr in
theorem closes_modified (node : Node) : Closes Late.before.going [] anyPiece
    (fun o => .given (o = none) .before) (modified rules' node) := by
  refine (continues_eatKeywordHere .kIf Late.not_before).closes.skip (s := []) ?_ (.any _ _)
  refine (continues_eatKeywordHere .kUnless Late.not_before).closes.skip (s := []) ?_ (.any _ _)
  exact (continues_eatKeywordHere .kWhile Late.not_before).closes.skip (s := [])
    (.pure fun _ h => ⟨rfl, h⟩) (.any _ _)

theorem continues_statement : Operand (statement rules) (statement rules') :=
  .bind (continues_expression hr) (follow_chain (Loop.shrinks hr.move .modifiers)
    (Loop.shrinks hr.move' .modifiers) (continues_modified hr) closes_modified) (.any _ [])

omit hr in
/-- What closes a body ends the statements in it. -/
theorem endsStmts_first {next : Option Piece} (h : endsBody next) :
    endsStmts (Piece.first next) = true := by
  cases next with
  | none => rfl
  | some piece => cases piece <;> first | rfl | exact h.elim

omit hr in
/-- A round of statements stops at what ends them, or reads one more. -/
theorem nextStatement_apply (body : List Node) (c : Cursor) :
    nextStatement rules (body, true) c =
      if endsStmts c.ahead.kind then .done none c
      else (do
        let node ← statement rules
        let more ← eatTerms
        pure (some (node :: body, more))) c := by
  change (if endsStmts c.ahead.kind then pure none else _ : Parser _) c = _
  split <;> rfl

omit hr in
/-- Statements end where a body is closed. -/
theorem closes_nextStatement (body : List Node × Bool) :
    Closes Late.always.going [] endsBody (fun o => .given (o = none) .always)
      (nextStatement rules' body) := by
  obtain ⟨body, more⟩ := body
  cases more with
  | false => exact .pure fun _ _ => ⟨rfl, trivial⟩
  | true =>
      intro b _ k ts d hk hts hd
      obtain rfl : ts = [] := by simpa using hts
      obtain ⟨next, t, rest, hn, ht, -, hsig⟩ := Cursor.significant_of_stands hk hd
      have ends : endsStmts d.ahead.kind = true := by
        simp [Cursor.ahead, hsig, ht, endsStmts_first hn]
      rw [nextStatement_apply, if_pos ends]
      exact ⟨b, ⟨rfl, trivial⟩, hd⟩

/-- One more statement, with its end. -/
theorem continues_ended (body : List Node) :
    Continues .always [.operand] anyPiece (fun _ => .always)
      (do let node ← statement rules
          let more ← eatTerms
          pure (some (node :: body, more)))
      (do let node ← statement rules'
          let more ← eatTerms
          pure (some (node :: body, more))) :=
  .bind (continues_statement hr) (fun _ => .bind continues_eatTerms
    (fun _ => .pure (Late.le_always _)) (.any _ [])) (.any _ _)

theorem continues_nextStatement (body : List Node × Bool) :
    Stretch (nextStatement rules body) (nextStatement rules' body) := by
  obtain ⟨body, more⟩ := body
  cases more with
  | false => exact .pure (Late.le_refl _)
  | true =>
      have ends : ∀ {c : Cursor}, AtEnd c.rest →
          nextStatement rules (body, true) c = .done none c := by
        rintro c ⟨last, hl, hc⟩
        have ahead : c.ahead.kind = .eof := by simp [Cursor.ahead, Cursor.significant, hc, hl]
        rw [nextStatement_apply, ahead]
        rfl
      have closes : Closes Late.always.going [] endsBody (fun _ => .always)
          (nextStatement rules' (body, true)) :=
        (closes_nextStatement (body, true)).mono (fun _ => id) (fun _ => id) fun _ _ _ => trivial
      refine ⟨fun c => ?_, fun _ c hc o c' h => ?_, closes⟩
      · by_cases hat : AtEnd c.rest
        · refine .of_closes hat (fun o c' h => ?_) (closes.mono (fun _ _ => trivial) (fun _ => id)
            fun _ _ => id)
          rw [ends hat] at h
          cases h
          exact ⟨trivial, hat⟩
        · cases he : endsStmts c.ahead.kind with
          | true =>
              refine .inl ⟨none, c, by rw [nextStatement_apply, if_pos he], fun more d _ hd => ?_⟩
              rw [nextStatement_apply, ← hd.ahead hat, if_pos he]
              exact ⟨rfl, hd⟩
          | false =>
              have ended := ((continues_ended hr body).goes c).mono (G := endsBody)
                (fun _ _ => trivial) fun _ => Late.le_refl _
              refine ended.congr ?_ fun more d hd => ?_
              · rw [nextStatement_apply, if_neg (by simp [he])]
              · rw [nextStatement_apply, ← hd.ahead hat, if_neg (by simp [he])]
      · rw [ends hc] at h
        cases h
        exact ⟨trivial, hc⟩

/-- **Statements** may end with the text, if something closes their body. -/
theorem continues_statements : Stretch (statements rules) (statements rules') := by
  refine .bind (continues_eatTerms.mono (Late.le_refl _) (fun _ => id) fun _ => Late.le_always _)
    (fun _ => continues_byCurrent fun t t' h => .before (h.span ▸ ?_)) fun _ => id
  refine .mono (.bind (stretch_chain (Loop.shrinks hr.move .statements)
    (Loop.shrinks hr.move' .statements) (continues_nextStatement hr) closes_nextStatement
      ([], true))
    (fun _ => .pure (Late.le_refl _)) fun _ => id) (Late.le_always _) (fun _ => id)
    fun _ => Late.le_refl _

/-- **All rules** continue if their parts do. -/
theorem continues_ofRule (hm : Rules.Move 0 (ofRule rules))
    (hm' : Rules.Move 0 (ofRule rules')) :
    Rules.Continue (ofRule rules) (ofRule rules') where
  move := hm
  move' := hm'
  stmts := continues_statements hr
  expr := continues_expression hr
  arg := continues_assignment hr
  signed := continues_signed hr
  unary := continues_unary hr
  branch place := continues_branches hr place

omit hr in
/-- **Every rule goes on when the text does**, whatever fuel there is. -/
theorem continues_rule (n m : Nat) : Rules.Continue (rule n) (rule m) := by
  have same : ∀ n, Rules.Continue (rule n) (rule n) := by
    intro n
    induction n with
    | zero => exact ⟨moves_rule 0, moves_rule 0, .exhaust, .exhaust, .exhaust, .exhaust, .exhaust,
        fun _ => .exhaust⟩
    | succ n ih => exact continues_ofRule ih (moves_rule (n + 1)).any (moves_rule (n + 1)).any
  induction n generalizing m with
  | zero =>
      have h := same m
      exact ⟨moves_rule 0, h.move, .ofHalt h.stmts.closes, .ofHalt h.expr.closes,
        .ofHalt h.arg.closes, .ofHalt h.signed.closes, .ofHalt h.unary.closes,
        fun place => .ofHalt (h.branch place).closes⟩
  | succ n ih =>
      cases m with
      | zero =>
          have h := same (n + 1)
          exact ⟨h.move, moves_rule 0, h.stmts.halt, h.expr.halt, h.arg.halt, h.signed.halt,
            h.unary.halt, fun place => (h.branch place).halt⟩
      | succ m => exact continues_ofRule (ih m) (moves_rule (n + 1)).any (moves_rule (m + 1)).any

end Parser

end MiniRuby
