import MiniRuby.Proofs.Grammar.Precedence

/-!
# Reading chains of operators

Each rank of operators is read by a rule of its own, which reads its operands by the rule of the
next rank.  A rule stops before an operator of a looser rank, and before an equality operator if
there has been one (`InfixTree.Stops`).  Up to there it reads any tree that follows the table.

* `InfixTree.Ordered.read_begins`: the rule of each rank reads a tree that follows the table.
* `infix_chains`: which chains of integers and infix operators can be read, and as what.
-/

namespace MiniRuby

open MiniRuby.Parser MiniRuby.Action

/-! ### Operators -/

namespace Parser

variable {c c' : Cursor} {k : TokenKind} {ks ks' : List TokenKind} {rules : Rules} {op : InfixOp}
  {rank : Nat}

/-- Whether a rule reads an expression, up to certain tokens. -/
def ReadsExpr (p : Parser Node) (c : Cursor) (e : Expr) (ks : List TokenKind) : Prop :=
  ∃ node c', p c = .done node c' ∧ c'.kinds = ks ∧ c.names.Extends c'.names ∧
    node.Denotes c'.names e

/-- The operators of a level are those of its rank. -/
theorem mem_ops_iff (op : InfixOp) (h : rank < levels.length) :
    op.mark ∈ levels[rank].ops ↔ op.rank = rank := by
  have all : ∀ r, op.mark ∈ (levels.get r).ops ↔ op.rank = r := by
    clear h
    cases op <;> decide
  exact all ⟨rank, h⟩

theorem kind_eq_nonAssoc_iff (h : rank < levels.length) :
    levels[rank].kind = .nonAssoc ↔ rank = 2 := by
  have all : ∀ r, (levels.get r).kind = .nonAssoc ↔ r.val = 2 := by decide
  exact all ⟨rank, h⟩

theorem eatOperator_of_mem {level : Level} (h : c.kinds = .punct op.mark :: ks)
    (hm : op.mark ∈ level.ops) :
    ∃ c', eatOperator level c = .done (some op.mark) c' ∧ c'.kinds = ks ∧ c'.names = c.names := by
  obtain ⟨t, c', ht, -, hks, hn⟩ := take_of_kinds h rfl rfl
  refine ⟨c', ?_, hks, hn⟩
  rw [eatOperator, Parser.current, bind_view, Cursor.current_of_kinds h]
  simp only [List.contains_iff_mem, hm, if_true]
  exact bind_of_done ht

/-- What an operator makes of its operands. -/
theorem join_of_denotes (h : op.rank < levels.length) {left right : Node} {l r : Expr}
    (hl : left.Denotes c.names l) (hr : right.Denotes c.names r) :
    ReadsExpr (levels[op.rank].join op.mark left right) c (op.expr l r) c.kinds := by
  have called (hop : op.mark.method? = some op.text) :
      ReadsExpr (infixCall op.mark left right) c (.binary l op.text r) c.kinds :=
    infixCall_of_denotes hop hl hr
  cases op with
  | or => exact ⟨_, c, rfl, rfl, .refl _, .or _ hl hr⟩
  | and => exact ⟨_, c, rfl, rfl, .refl _, .and _ hl hr⟩
  | power => exact absurd h (by decide)
  | _ => exact called rfl

/-- An operator is taken with its right operand. -/
theorem extend_of_rank (h : op.rank < levels.length) {operand : Parser Node} {left : Node}
    {l r : Expr} (hc : c.kinds = .punct op.mark :: ks) (hl : left.Denotes c.names l)
    (hr : ∀ c, c.kinds = ks → ReadsExpr operand c r ks') :
    ∃ node c', levels[op.rank].extend operand left c = .done (some node) c' ∧ c'.kinds = ks' ∧
      c.names.Extends c'.names ∧ node.Denotes c'.names (op.expr l r) := by
  obtain ⟨c₁, heat, hk₁, hn₁⟩ := eatOperator_of_mem hc ((mem_ops_iff op h).mpr rfl)
  obtain ⟨right, c₂, hread, hk₂, hn₂, hd₂⟩ := hr c₁ hk₁
  rw [hn₁] at hn₂
  obtain ⟨node, c', hjoin, hk', hn', hd'⟩ := join_of_denotes h (hl.extend hn₂) hd₂
  refine ⟨node, c', ?_, hk'.trans hk₂, hn₂.trans hn', hd'⟩
  rw [Level.extend, bind_of_done heat]
  exact (bind_of_done hread).trans (bind_of_done hjoin)

/-- The rule of a level that can be repeated. -/
theorem operation_of_chain (h : rank < levels.length) (hr : rank ≠ 2) :
    operation rules (levels.drop rank) = operation rules (levels.drop (rank + 1)) >>=
      chain (levels[rank].extend (operation rules (levels.drop (rank + 1)))) := by
  have kind : levels[rank].kind ≠ .nonAssoc := fun e => hr ((kind_eq_nonAssoc_iff h).mp e)
  rw [List.drop_eq_getElem_cons h, operation]
  cases e : levels[rank].kind with
  | nonAssoc => exact (kind e).elim
  | _ => rfl

/-- An integer is an operand. -/
theorem unary_of_literal (n : IntLiteral) (hc : c.kinds = n.token :: k :: ks) (hk : EndsOperand k) :
    ReadsExpr (unary rules) c n.expr (k :: ks) := by
  obtain ⟨s, c', hprim, hk', hn⟩ : ∃ s c', primary rules c = .done (.int s _) c' ∧ _ :=
    primary_of_num hc n.fits
  refine ⟨_, c', (unary_of_primary hc hprim).trans ?_, hk', ?_, .int s _⟩
  · exact chained_of_endsExpr hk' hk.endsExpr
  · rw [hn]
    exact .refl _

end Parser

namespace InfixTree

variable {t left right : InfixTree} {op : InfixOp} {rank : Nat} {k : TokenKind}

/-! ### Trees -/

/-- The tokens of a tree. -/
def kinds : InfixTree → List TokenKind
  | literal n => [n.token]
  | node left op right => left.kinds ++ .punct op.mark :: right.kinds

/-- The tokens of some links of a chain. -/
def linkKinds (links : List (InfixOp × IntLiteral)) : List TokenKind :=
  links.flatMap fun (op, n) => [.punct op.mark, n.token]

theorem kinds_eq (t : InfixTree) : t.kinds = t.first.token :: linkKinds t.links := by
  induction t with
  | literal n => rfl
  | node left op right ihl ihr => simp [kinds, first, links, linkKinds, ihl, ihr]

/-- The tokens of both operands and of the operator between them. -/
theorem kinds_node {n : Nat} {ts ks : List TokenKind}
    (hn : (node left op right).kinds.length ≤ n) (ht : ts = (node left op right).kinds ++ k :: ks) :
    ts = left.kinds ++ .punct op.mark :: (right.kinds ++ k :: ks) ∧ left.kinds.length ≤ n ∧
      right.kinds.length ≤ n := by
  have length : left.kinds.length + (right.kinds.length + 1) ≤ n := by simpa [kinds] using hn
  exact ⟨by simpa [kinds] using ht, by omega, by omega⟩

/-- Whether the rule of some rank stops before a token, once it has read a tree. -/
def Stops (t : InfixTree) (rank : Nat) (k : TokenKind) : Prop :=
  k = .eof ∨ ∃ op : InfixOp, k = .punct op.mark ∧ (op.rank < rank ∨ op.rank = 2 ∧ t.Full)

theorem Stops.endsOperand (h : t.Stops rank k) : EndsOperand k :=
  h.imp_right fun ⟨op, hk, _⟩ => ⟨op, hk⟩

theorem Stops.mono (h : t.Stops rank k) {rank' : Nat} (hr : rank ≤ rank') : t.Stops rank' k :=
  h.imp_right fun ⟨op, hk, h⟩ => ⟨op, hk, h.imp_left fun h => Nat.lt_of_lt_of_le h hr⟩

theorem stops_of_op (h : op.rank < rank) : t.Stops rank (.punct op.mark) := .inr ⟨op, rfl, .inl h⟩

theorem Stops.not_power (h : t.Stops 9 k) : k.isPunct .power = false := by
  rcases h with rfl | ⟨op, rfl, h⟩
  · rfl
  · have : op.rank ≠ 9 := by
      rcases h with lt | ⟨two, -⟩ <;> omega
    cases op with
    | power => exact (this rfl).elim
    | _ => rfl

/-- What a tree stops before, its right operand stops before. -/
theorem stops_right (h : (node left op right).Stops rank k) (hr : op.rank = 2 → 2 < rank) :
    right.Stops rank k := by
  refine h.imp_right fun ⟨op', hk, h⟩ => ⟨op', hk, ?_⟩
  rcases h with lt | ⟨two, eq | ⟨-, full⟩⟩
  · exact .inl lt
  · exact .inl (two ▸ hr eq)
  · exact .inr ⟨two, full⟩

/-- An operator that a rule stops before is none of a tighter rank, up to that of the tree. -/
theorem Stops.not_mem (h : t.Stops rank k) {rank' : Nat} (hr : rank ≤ rank')
    (ht : rank' < t.rank ∨ rank' ≠ 2) (hl : rank' < levels.length) (hk : k = .punct op.mark) :
    op.mark ∉ levels[rank'].ops := by
  rcases h with rfl | ⟨op', rfl, h⟩
  · cases hk
  · rw [← TokenKind.punct.inj hk, mem_ops_iff op' hl]
    rintro rfl
    rcases h with lt | ⟨two, full⟩
    · omega
    · have := full.rank_le
      omega

/-- Whether the rule of each rank reads a tree. -/
def Read (t : InfixTree) : Prop :=
  ∀ ⦃n : Nat⦄ ⦃c : Cursor⦄ ⦃k : TokenKind⦄ ⦃ks : List TokenKind⦄ ⦃rank : Nat⦄,
    t.kinds.length ≤ n → c.kinds = t.kinds ++ k :: ks → t.Stops rank k → rank ≤ t.rank → rank ≤ 9 →
    ReadsExpr (operation (rule n) (levels.drop rank)) c t.expr (k :: ks)

/-- Whether the rule of some rank, which can be repeated, reads a tree and goes on after it. -/
def Begins (t : InfixTree) {rank : Nat} (h : rank < levels.length) : Prop :=
  ∀ ⦃n : Nat⦄ ⦃c : Cursor⦄ ⦃k : TokenKind⦄ ⦃ks : List TokenKind⦄,
    t.kinds.length ≤ n → c.kinds = t.kinds ++ k :: ks → t.Stops (rank + 1) k →
    ∃ node c', operation (rule n) (levels.drop rank) c =
        Parser.chain (levels[rank].extend (operation (rule n) (levels.drop (rank + 1)))) node c' ∧
      c'.kinds = k :: ks ∧ c.names.Extends c'.names ∧ node.Denotes c'.names t.expr

/-- The rules of looser ranks hand a tree on, so it is enough that it is read by its own. -/
theorem read_of_own (hr : rank = min t.rank 9)
    (h : ∀ ⦃n : Nat⦄ ⦃c : Cursor⦄ ⦃k : TokenKind⦄ ⦃ks : List TokenKind⦄,
      t.kinds.length ≤ n → c.kinds = t.kinds ++ k :: ks → t.Stops rank k →
      ReadsExpr (operation (rule n) (levels.drop rank)) c t.expr (k :: ks)) : t.Read := by
  intro n c k ks rank' hn hc hs ht h9
  obtain ⟨node, c', ho, hk, rest⟩ := h hn hc (hs.mono (by omega))
  refine ⟨node, c', ?_, hk, rest⟩
  have split : levels.drop rank' = (levels.drop rank').take (rank - rank') ++ levels.drop rank := by
    conv_lhs => rw [← List.take_append_drop (rank - rank') (levels.drop rank')]
    rw [List.drop_drop, Nat.add_sub_cancel' (by omega)]
  rw [split]
  refine operation_of_not_mem ho hk fun level hl => hs.endsOperand.not_mem fun op hop => ?_
  obtain ⟨i, hi, rfl⟩ := List.mem_take_iff_getElem.mp hl
  rw [List.getElem_drop]
  exact hs.not_mem (by omega) (.inl (by omega)) _ hop

theorem read_literal (n : IntLiteral) : (literal n).Read := by
  refine @read_of_own _ 9 rfl ?_
  intro m c k ks _ hc hs
  have operand : ReadsExpr (unary (rule m)) c n.expr (k :: ks) :=
    unary_of_literal n hc hs.endsOperand
  obtain ⟨node, c', hu, hk, rest⟩ := operand
  exact ⟨node, c', (signed_of_power hc rfl rfl).trans (power_of_ends hu hk hs.not_power), hk, rest⟩

/-- A tree of a tighter rank is the first operand of a rule that can be repeated. -/
theorem Read.begins (ht : t.Read) (h : rank < levels.length) (hr : rank ≠ 2) (hlt : rank < t.rank) :
    t.Begins h := by
  intro n c k ks hn hc hs
  obtain ⟨node, c', ho, rest⟩ := ht hn hc hs hlt h
  refine ⟨node, c', ?_, rest⟩
  rw [operation_of_chain h hr, bind_of_done ho]

/-- **One more operand** of an operator that associates to the left. -/
theorem Begins.node {h : op.rank < levels.length} (hl : left.Begins h) (hr : right.Read)
    (onRight : op.rank < right.rank) (hne : op.rank ≠ 2) :
    (InfixTree.node left op right).Begins h := by
  intro n c k ks hn hc hs
  obtain ⟨tokens, enough, enough'⟩ := kinds_node hn hc
  obtain ⟨node₁, c₁, hbegin, hk₁, hn₁, hd₁⟩ :=
    hl enough tokens (stops_of_op (Nat.lt_succ_self _))
  have stops := stops_right hs fun two => (hne two).elim
  obtain ⟨node, c', hext, hk', hn', hd'⟩ := extend_of_rank h hk₁ hd₁ fun c₂ hc₂ =>
    hr enough' hc₂ stops onRight h
  have more := (Loop.operators levels[op.rank] (levels.drop (op.rank + 1))).shrinks (moves_rule n)
  exact ⟨node, c', hbegin.trans (more.chain_some hext), hk', hn₁.trans hn', hd'⟩

/-- A rule that can be repeated is not repeated where it stops. -/
theorem Begins.read {h : op.rank < levels.length} (hb : (InfixTree.node left op right).Begins h)
    (hne : op.rank ≠ 2) : (InfixTree.node left op right).Read := by
  have own : op.rank = min (InfixTree.node left op right).rank 9 := by
    have := op.rank_le
    simp only [rank]
    omega
  refine read_of_own own ?_
  intro n c k ks hn hc hs
  obtain ⟨node, c', hbegin, hk, rest⟩ := hb hn hc (hs.mono (Nat.le_succ _))
  refine ⟨node, c', hbegin.trans (chain_of_none ?_), hk, rest⟩
  exact extend_of_not_mem hk <| hs.endsOperand.not_mem fun op' =>
    hs.not_mem (Nat.le_refl _) (.inr hne) h

/-- An operator that does not associate is read once. -/
theorem read_of_equality (hl : left.Read) (hr : right.Read) (onLeft : op.rank < left.rank)
    (onRight : op.rank < right.rank) (hop : op.rank = 2) : (node left op right).Read := by
  have h : op.rank < levels.length := by rw [hop]; decide
  have own : op.rank = min (node left op right).rank 9 := by
    simp only [rank]
    omega
  refine read_of_own own ?_
  intro n c k ks hn hc hs
  obtain ⟨tokens, enough, enough'⟩ := kinds_node hn hc
  obtain ⟨node₁, c₁, hread, hk₁, hn₁, hd₁⟩ :=
    hl enough tokens (stops_of_op (Nat.lt_succ_self _)) onLeft h
  have stops := stops_right (hs.mono (Nat.le_succ _)) fun two => by omega
  obtain ⟨node, c', hext, hk', hn', hd'⟩ := extend_of_rank h hk₁ hd₁ fun c₂ hc₂ =>
    hr enough' hc₂ stops onRight h
  refine ⟨node, c', ?_, hk', hn₁.trans hn', hd'⟩
  rw [List.drop_eq_getElem_cons h, operation, bind_of_done hread,
    (kind_eq_nonAssoc_iff h).mpr hop]
  exact bind_of_done hext

/-- The exponent of a power is read as all of the text after it. -/
theorem read_of_power (n : IntLiteral) (hr : right.Read) (onRight : 9 ≤ right.rank) :
    (node (literal n) .power right).Read := by
  refine @read_of_own _ 9 rfl ?_
  intro m c k ks hm hc hs
  obtain ⟨m, rfl⟩ := Nat.exists_eq_add_one.mpr (Nat.zero_lt_of_lt hm)
  have tokens : c.kinds = n.token :: .punct .power :: (right.kinds ++ k :: ks) := hc
  have length : right.kinds.length + 1 ≤ m := by simpa [kinds] using hm
  have enough : right.kinds.length ≤ m := by omega
  obtain ⟨base, c₁, hbase, hk₁, hn₁, hd₁⟩ : ReadsExpr (unary (rule (m + 1))) c n.expr _ :=
    unary_of_literal n tokens (.inr ⟨.power, rfl⟩)
  obtain ⟨c₂, hmark, hk₂, hn₂⟩ := eatPunctHere_of_kinds hk₁
  obtain ⟨exponent, c₃, hexponent, hk₃, hn₃, hd₃⟩ := hr enough hk₂ (stops_right hs nofun) onRight
    (Nat.le_refl 9)
  rw [hn₂] at hn₃
  obtain ⟨node, c', hcall, hk', hn', hd'⟩ := @infixCall_of_denotes c₃ .power rfl _ _ _ _
    (hd₁.extend hn₃) hd₃
  refine ⟨node, c', ?_, hk'.trans hk₃, (hn₁.trans hn₃).trans hn', hd'⟩
  refine (signed_of_power hc rfl rfl).trans ?_
  rw [power, bind_of_done hbase, bind_of_done hmark, if_pos rfl]
  exact (bind_of_done hexponent).trans hcall

/-- **The rule of each rank reads a tree that follows the table.** -/
theorem Ordered.read_begins (ht : t.Ordered) :
    t.Read ∧ ∀ h : t.rank < levels.length, t.rank ≠ 2 → t.Begins h := by
  induction ht with
  | literal n => exact ⟨read_literal n, fun h => absurd (show 10 < 9 from h) (by decide)⟩
  | @node left right op hl hr onLeft onRight ihl ihr =>
      cases hop : op.assoc with
      | left =>
          have low : op.rank ≠ 9 := fun e => by simp [InfixOp.assoc_right_iff.mpr e] at hop
          have hne : op.rank ≠ 2 := fun e => by simp [InfixOp.assoc_none_iff.mpr e] at hop
          have h : op.rank < levels.length := Nat.lt_of_le_of_ne op.rank_le low
          have tight : op.rank < right.rank :=
            onRight.resolve_right fun e => by simp [hop] at e
          have begun : left.Begins h := by
            rcases onLeft with lt | ⟨eq, -⟩
            · exact ihl.1.begins h hne lt
            · have own := ihl.2
              rw [← eq] at own
              exact own h hne
          have begins := begun.node ihr.1 tight hne
          exact ⟨begins.read hne, fun _ _ => begins⟩
      | none =>
          have two := InfixOp.assoc_none_iff.mp hop
          refine ⟨read_of_equality ihl.1 ihr.1 (onLeft.resolve_right fun e => ?_)
            (onRight.resolve_right fun e => ?_) two, fun _ hne => (hne two).elim⟩ <;>
          simp [hop] at e
      | right =>
          have nine := InfixOp.assoc_right_iff.mp hop
          obtain rfl := InfixOp.rank_power_iff.mp nine
          have top : 9 < left.rank := onLeft.resolve_right fun e => by simp [hop] at e
          cases left with
          | literal n =>
              refine ⟨read_of_power n ihr.1 onRight.le, fun h => ?_⟩
              exact absurd (show 9 < 9 from h) (by decide)
          | node left' op' right' =>
              have := op'.rank_le
              exact (Nat.not_lt.mpr this top).elim

/-- A tree is read to the end of the text, or to an equality operator if one has been opened. -/
theorem Ordered.assignment (ht : t.Ordered) {n : Nat} {c : Cursor} {ks : List TokenKind}
    (hn : t.kinds.length ≤ n) (hc : c.kinds = t.kinds ++ k :: ks) (hs : t.Stops 0 k) :
    ReadsExpr (Parser.assignment (rule n)) c t.expr (k :: ks) := by
  obtain ⟨node, c', ho, hk, rest⟩ := ht.read_begins.1 hn hc hs (Nat.zero_le _) (Nat.zero_le _)
  exact ⟨node, c', assignment_of_operation ho hk hs.endsOperand.endsExpr, hk, rest⟩

end InfixTree

/-! ### Texts -/

namespace InfixChain

open InfixTree (linkKinds)

theorem ends_links (links : List (InfixOp × IntLiteral)) :
    Lexer.Ends (links.flatMap linkChars) := by
  cases links with
  | nil => exact .inl rfl
  | cons link links => exact .inr (.inl ⟨_, rfl⟩)

theorem splits_literal (n : IntLiteral) {rest : List Char} (hr : Lexer.Ends rest) :
    Lexer.Splits (n.chars ++ rest) [n.token] rest := by
  refine Lexer.splits_numeral n.toNumeral ?_ hr
  have := n.fits
  unfold Parser.maxInteger at this
  unfold Lexer.maxNumber
  omega

theorem splits_links (links : List (InfixOp × IntLiteral)) :
    Lexer.Splits (links.flatMap linkChars) (linkKinds links) [] := by
  induction links with
  | nil => exact .refl []
  | cons link links ih =>
      obtain ⟨op, n⟩ := link
      have operand := splits_literal n (ends_links links)
      have whole : ((op, n) :: links).flatMap linkChars =
          ' ' :: (op.text.toList ++ ' ' :: (n.chars ++ links.flatMap linkChars)) := by
        simp [linkChars]
      rw [whole]
      exact (Lexer.splits_gap rfl).trans ((op.splits_text _).trans
        ((Lexer.splits_gap rfl).trans (operand.trans ih)))

/-- **The tokens of a chain.** -/
theorem splits_text (chain : InfixChain) :
    Lexer.Splits chain.text.toList (chain.first.token :: linkKinds chain.links) [] := by
  rw [text, String.toList_ofList]
  exact (splits_literal chain.first (ends_links chain.links)).trans (splits_links chain.links)

end InfixChain

/-- **Chains of infix operators.**  A chain of integers is read as the only tree that follows the
table and is written as that chain, if no two equality operators stand in a stretch of it without
short-circuit operators; and else it cannot be read. -/
theorem infix_chains (chain : InfixChain) (path : String) (m : Machine) :
    (InfixChain.IsClear chain.ops →
      ∃ t : InfixTree, (∀ t' : InfixTree, t'.Ordered ∧ t'.chain = chain ↔ t' = t) ∧
        Session.Gives path chain.text m fun names node => node.Denotes names t.expr) ∧
    (¬ InfixChain.IsClear chain.ops → Session.Refuses path chain.text m) := by
  obtain ⟨first, links⟩ := chain
  have split := InfixChain.splits_text ⟨first, links⟩
  have starts : startsOperand first.token = true := rfl
  obtain ⟨clear, stuck⟩ := InfixTree.exists_of_links first links
  refine ⟨fun h => ?_, fun h => ?_⟩
  · obtain ⟨t, ht, rfl, rfl⟩ := clear h
    refine ⟨t, fun t' => ⟨fun ⟨ht', he⟩ => ?_, ?_⟩, ?_⟩
    · obtain ⟨hf, hl⟩ := InfixChain.mk.inj he
      exact ht'.eq_of_links ht hf hl
    · rintro rfl
      exact ⟨ht, rfl⟩
    · refine Session.parse_of_assignment m split starts fun n c hn hc => ?_
      rw [← t.kinds_eq] at hc
      have enough : t.kinds.length ≤ n := by
        rw [t.kinds_eq]
        exact hn
      obtain ⟨node, c', hread, hk, -, hd⟩ := ht.assignment enough hc (.inl rfl)
      exact ⟨node, c', hread, hk, hd⟩
  · obtain ⟨t, op, n', more, ht, rfl, full, equal, rfl⟩ := stuck h
    refine Session.parse_of_leftover m split starts fun n c hn hc => .inr ?_
    have tokens : c.kinds = t.kinds ++ .punct op.mark ::
        (n'.token :: InfixTree.linkKinds more ++ [.eof]) := by
      simpa [t.kinds_eq, InfixTree.linkKinds] using hc
    have enough : t.kinds.length ≤ n := by
      simp [InfixTree.linkKinds] at hn
      simp [t.kinds_eq, InfixTree.linkKinds]
      omega
    obtain ⟨node, c', hread, hk, -, -⟩ :=
      ht.assignment enough tokens (.inr ⟨op, rfl, .inr ⟨equal, full⟩⟩)
    exact ⟨node, c', op, _, hread, hk⟩

end MiniRuby
