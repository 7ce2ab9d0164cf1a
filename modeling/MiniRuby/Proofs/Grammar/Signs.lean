import MiniRuby.Proofs.Grammar.Operand

/-!
# Signed operands

A minus sign right before a number belongs to the number, unless the number is the base of a power.
Then the power is negated, and the number has to fit without the sign.  The rule that gives the sign
to a number does not come back to the rule for powers, so nothing but calls can follow: a power of
such a number, with calls on it, is refused.  And the rule for an exclamation mark does not come
back to the one for signs, so no minus sign can follow an exclamation mark.

* `signed_operands`: which operands can be negated by an exclamation mark, and which can be raised
  to a power.
-/

namespace MiniRuby

/-- A number, perhaps with a minus sign, with calls without arguments on it. -/
structure SignedOperand where
  negative : Bool
  literal : Numeral
  calls : List Word
  /-- With its sign, the number fits. -/
  inRange : (literal.value : Int) ≤ if negative then -Parser.minInteger else Parser.maxInteger

namespace SignedOperand

variable (u : SignedOperand)

/-- The number with its sign. -/
def value : Int := if u.negative then -u.literal.value else u.literal.value

def chars : List Char :=
  (if u.negative then ['-'] else []) ++ u.literal.chars ++ u.calls.flatMap fun w => '.' :: w.chars

def text : String := String.ofList u.chars

/-- The tokens of the number and of the calls on it. -/
def kinds : List TokenKind := .num u.literal.value :: Parser.callKinds u.calls

/-- What an operand is. -/
def expr : Expr := (Expr.int (Int64.ofInt u.value)).calls u.calls

/-! ### Tokens -/

theorem ends_calls (calls : List Word) {rest : List Char} (hr : Lexer.Ends rest) :
    Lexer.Ends ((calls.flatMap fun w => '.' :: w.chars) ++ rest) := by
  cases calls with
  | nil => exact hr
  | cons w calls =>
      rw [List.flatMap_cons, List.append_assoc]
      exact Lexer.ends_called w

theorem splits_calls (calls : List Word) {rest : List Char} (hr : Lexer.Ends rest) :
    Lexer.Splits ((calls.flatMap fun w => '.' :: w.chars) ++ rest) (Parser.callKinds calls)
      rest := by
  induction calls with
  | nil => exact .refl rest
  | cons w calls ih =>
      rw [List.flatMap_cons, List.append_assoc]
      exact (Lexer.splits_called w (ends_calls calls hr)).trans ih

theorem splits_unsigned {rest : List Char} (hr : Lexer.Ends rest) :
    Lexer.Splits (u.literal.chars ++ ((u.calls.flatMap fun w => '.' :: w.chars) ++ rest)) u.kinds
      rest := by
  have fits : u.literal.value ≤ Lexer.maxNumber := by
    have := u.inRange
    unfold Parser.minInteger Parser.maxInteger at this
    unfold Lexer.maxNumber
    split at this <;> omega
  exact (Lexer.splits_numeral u.literal fits (ends_calls u.calls hr)).trans
    (splits_calls u.calls hr)

/-- **The tokens of an operand.** -/
theorem splits_chars {rest : List Char} (hr : Lexer.Ends rest) :
    Lexer.Splits (u.chars ++ rest)
      ((if u.negative then [.punct .minus] else []) ++ u.kinds) rest := by
  rw [chars, List.append_assoc, List.append_assoc]
  cases u.negative with
  | false => exact u.splits_unsigned hr
  | true =>
      refine (Lexer.splits_minus fun c hc => ?_).trans (u.splits_unsigned hr)
      cases hc
      exact u.literal.isDigit_first

end SignedOperand

/-! ### Reading -/

namespace Parser

open MiniRuby.Action (bind_of_done bind_of_failed bind_view)

variable {c : Cursor} {ks : List TokenKind} {m n v : Nat} {calls : List Word} {k : TokenKind}
  {rules : Rules}

/-- The square of an operand. -/
theorem power_of_square (hr : rules.Move m) (hs : rules .signed = signed (rule n))
    (hc : c.kinds = .num v :: (callKinds calls ++ [.punct .power, .num 2, .eof]))
    (hv : (v : Int) ≤ maxInteger) :
    ∃ node c', power rules c = .done node c' ∧ c'.kinds = [.eof] ∧ c.names.Extends c'.names ∧
      node.Denotes c'.names
        (.binary ((Expr.int (Int64.ofInt v)).calls calls) "**" (.int 2)) := by
  obtain ⟨base, c₁, hbase, hk₁, hn₁, hd₁⟩ := unary_of_num hr hc (.inr rfl) hv
  obtain ⟨c₂, hmark, hk₂, hn₂⟩ := eatPunctHere_of_kinds hk₁
  have two : c₂.kinds = .num 2 :: (callKinds [] ++ [.eof]) := hk₂
  obtain ⟨exponent, c₃, htwo, hk₃, hn₃, hd₃⟩ :=
    unary_of_num (moves_rule n) two (.inl rfl) (by decide)
  have exponent_read : signed (rule n) c₂ = .done exponent c₃ :=
    (signed_of_power hk₂ rfl rfl).trans (power_of_ends htwo hk₃ rfl)
  obtain ⟨node, c', hcall, hk', hn', hd⟩ := @infixCall_of_denotes c₃ .power rfl _ _ _ _
    (hd₁.extend (hn₂ ▸ hn₃)) hd₃
  refine ⟨node, c', ?_, hk'.trans hk₃, (hn₁.trans (hn₂ ▸ hn₃)).trans hn', hd⟩
  rw [power, bind_of_done hbase, bind_of_done hmark, if_pos rfl, hs, bind_of_done exponent_read]
  exact hcall

/-- A number is too big for a power without its sign. -/
theorem unary_of_big (h : c.kinds = .num v :: ks) (hv : ¬ (v : Int) ≤ maxInteger) :
    ∃ e c', unary rules c = .failed e c' := by
  obtain ⟨e, c', hprim⟩ : ∃ e c', primary rules c = .failed e c' := primary_of_big h hv
  have plain : eatPunct .bang c = .done false c :=
    eatPunct_of_not (by rw [Cursor.ahead_of_kinds h rfl]; rfl)
  exact ⟨e, c', (bind_of_done plain).trans (bind_of_failed hprim)⟩

/-- A minus sign before a number is part of the literal, unless that is the base of a power. -/
theorem signedLiteral_of_num (h : c.kinds = .num v :: k :: ks) (hk : k.isPunct .power = false)
    (hv : minInteger ≤ -(v : Int)) (place : Span) :
    ∃ s c', signedLiteral? place c = .done (some (.int s (Int64.ofInt (-v)))) c' ∧
      c'.kinds = k :: ks ∧ c'.names = c.names := by
  obtain ⟨t, rest, hr, ht, hrest⟩ := Cursor.rest_of_kinds h
  have second : c.isSecond .power = false := by
    obtain ⟨u, rest', rfl, rfl, -⟩ := List.map_eq_cons_iff.mp hrest
    rw [Cursor.isSecond, hr]
    exact hk
  have here : c.current = t := by
    rw [Cursor.current, hr]
    rfl
  let c' : Cursor := { c with rest := rest, prev := t.span }
  have past : advance c = .done () c' := by
    simp only [advance, hr, ht]
    rfl
  refine ⟨place.merge t.span, c', ?_, hrest, rfl⟩
  rw [signedLiteral?, bind_view, second]
  change signedNumber? place c = _
  rw [signedNumber?, Parser.current, bind_view, here]
  simp only [ht]
  rw [if_pos hv, bind_of_done past]
  rfl

/-- The base of a power has no sign of its own. -/
theorem signedLiteral_of_base (h : c.kinds = k :: .punct .power :: ks) (place : Span) :
    signedLiteral? place c = .done none c := by
  obtain ⟨t, rest, hr, -, hrest⟩ := Cursor.rest_of_kinds h
  have second : c.isSecond .power = true := by
    obtain ⟨u, rest', rfl, hu, -⟩ := List.map_eq_cons_iff.mp hrest
    rw [Cursor.isSecond, hr]
    simp [hu, TokenKind.isPunct]
  rw [signedLiteral?, bind_view, second]
  rfl

/-- An assignment that is an operand before the end of the text. -/
theorem assignment_of_signed {node : Node} {c' : Cursor} (hs : signed rules c = .done node c')
    (hc' : c'.kinds = k :: ks) (hk : k = .eof ∨ k = .punct .power) :
    assignment rules c = .done node c' := by
  have ends : EndsOperand k := hk.imp_right fun h => ⟨.power, h⟩
  refine assignment_of_operation (@operation_of_not_mem _ _ _ _ _ _ [] hs hc' levels ?_) hc'
    ends.endsExpr
  refine fun level hl => ends.not_mem ?_
  rintro op rfl
  obtain hk | hk := hk
  · cases hk
  · rw [TokenKind.punct.inj hk]
    revert level
    decide

/-- An exclamation mark before an operand without a sign. -/
theorem assignment_of_bang (hn : 0 < n)
    (hc : c.kinds = .punct .bang :: .num v :: (callKinds calls ++ [.eof]))
    (hv : (v : Int) ≤ maxInteger) :
    ∃ s node c', assignment (rule n) c = .done (.not s node) c' ∧ c'.kinds = [.eof] ∧
      node.Denotes c'.names ((Expr.int (Int64.ofInt v)).calls calls) := by
  obtain ⟨n', again⟩ := rule_succ hn .unary
  obtain ⟨c₁, hbang, hk₁, -⟩ := eatPunct_of_kinds hc
  obtain ⟨node, c', hread, hk', -, hd⟩ := unary_of_num (moves_rule n') hk₁ (.inl rfl) hv
  have negated : unary (rule n) c = .done (.ofNot c₁.prev node) c' := by
    rw [unary, bind_of_done hbang, if_pos rfl, prevSpan, bind_view, again]
    exact bind_of_done hread
  have whole := (signed_of_power hc rfl rfl).trans (power_of_ends negated hk' rfl)
  exact ⟨_, node, c', assignment_of_signed whole hk' (.inl rfl), hk', hd⟩

/-- An exclamation mark before a minus sign. -/
theorem assignment_of_bang_minus (hn : 0 < n) (hc : c.kinds = .punct .bang :: .punct .minus :: ks) :
    ∃ e c', assignment (rule n) c = .failed e c' := by
  obtain ⟨n', again⟩ := rule_succ hn .unary
  obtain ⟨c₁, hbang, hk₁, -⟩ := eatPunct_of_kinds hc
  obtain ⟨t, c₂, ht, htk, -, -⟩ := take_of_kinds hk₁ rfl rfl
  have plain : eatPunct .bang c₁ = .done false c₁ :=
    eatPunct_of_not (by rw [Cursor.ahead_of_kinds hk₁ rfl]; rfl)
  have operand : primary (rule n') c₁ = .failed ⟨.unexpectedToken, t.span⟩ c₂ := by
    rw [primary, bind_of_done ht]
    simp only [htk]
    rfl
  have refused : unary (rule n') c₁ = .failed ⟨.unexpectedToken, t.span⟩ c₂ := by
    exact (bind_of_done plain).trans (bind_of_failed operand)
  have negated : unary (rule n) c = .failed ⟨.unexpectedToken, t.span⟩ c₂ := by
    rw [unary, bind_of_done hbang, if_pos rfl, prevSpan, bind_view, again]
    exact bind_of_failed refused
  have whole := (signed_of_power hc rfl rfl).trans (bind_of_failed negated)
  exact ⟨⟨.unexpectedToken, t.span⟩, c₂, assignment_of_failed whole⟩

/-- The square of an operand without a sign. -/
theorem assignment_of_square (hn : 0 < n)
    (hc : c.kinds = .num v :: (callKinds calls ++ [.punct .power, .num 2, .eof]))
    (hv : (v : Int) ≤ maxInteger) :
    ∃ node c', assignment (rule n) c = .done node c' ∧ c'.kinds = [.eof] ∧
      node.Denotes c'.names
        (.binary ((Expr.int (Int64.ofInt v)).calls calls) "**" (.int 2)) := by
  obtain ⟨n', again⟩ := rule_succ hn .signed
  obtain ⟨node, c', hread, hk', -, hd⟩ := power_of_square (moves_rule n) again hc hv
  have whole := (signed_of_power hc rfl rfl).trans hread
  exact ⟨node, c', assignment_of_signed whole hk' (.inl rfl), hk', hd⟩

/-- What follows a minus sign that does not belong to a number. -/
theorem signed_of_minus_base (hn : 1 < n)
    (hc : c.kinds = .punct .minus :: k :: .punct .power :: ks) :
    ∃ (n' : Nat) (c₁ : Cursor), 0 < n' ∧ c₁.kinds = k :: .punct .power :: ks ∧
      signed (rule n) c = (do
        let operand ← signed (rule n')
        pure (Node.ofSend (c₁.prev.merge operand.span) (some operand) NameId.minus [])) c₁ := by
  obtain ⟨n', rfl⟩ := Nat.exists_eq_add_one.mpr (Nat.lt_of_succ_lt hn)
  obtain ⟨c₁, hminus, hk₁, -⟩ := eatPunct_of_kinds hc
  refine ⟨n', c₁, by omega, hk₁, ?_⟩
  rw [signed, bind_of_done hminus, if_pos rfl, prevSpan, bind_view,
    bind_of_done (signedLiteral_of_base hk₁ _)]
  rfl

/-- The square of a number that a minus sign stands before is negated. -/
theorem assignment_of_minus_square (hn : 1 < n)
    (hc : c.kinds = .punct .minus :: .num v :: [.punct .power, .num 2, .eof])
    (hv : (v : Int) ≤ maxInteger) :
    ∃ s node c', assignment (rule n) c = .done (.send s (some node) NameId.minus []) c' ∧
      c'.kinds = [.eof] ∧
      node.Denotes c'.names (.binary (.int (Int64.ofInt v)) "**" (.int 2)) := by
  obtain ⟨n', c₁, hn', hk₁, hread⟩ := signed_of_minus_base hn hc
  obtain ⟨n'', again⟩ := rule_succ hn' .signed
  have base : c₁.kinds = .num v :: (callKinds [] ++ [.punct .power, .num 2, .eof]) := hk₁
  obtain ⟨node, c', hpower, hk', -, hd⟩ := power_of_square (moves_rule n') again base hv
  rw [bind_of_done ((signed_of_power hk₁ rfl rfl).trans hpower)] at hread
  exact ⟨_, node, c', assignment_of_signed hread hk' (.inl rfl), hk', hd⟩

/-- It is refused if the number is too big without the sign. -/
theorem assignment_of_minus_big (hn : 1 < n)
    (hc : c.kinds = .punct .minus :: .num v :: .punct .power :: ks)
    (hv : ¬ (v : Int) ≤ maxInteger) : ∃ e c', assignment (rule n) c = .failed e c' := by
  obtain ⟨n', c₁, hn', hk₁, hread⟩ := signed_of_minus_base hn hc
  obtain ⟨e, c', hunary⟩ : ∃ e c', unary (rule n') c₁ = .failed e c' := unary_of_big hk₁ hv
  have operand : signed (rule n') c₁ = .failed e c' := by
    rw [signed_of_power hk₁ rfl rfl]
    exact bind_of_failed hunary
  exact ⟨e, c', assignment_of_failed (hread.trans (bind_of_failed operand))⟩

/-- After a number with a sign and the calls on it, an operator is left over. -/
theorem assignment_of_minus_calls {w : Word}
    (hc : c.kinds = .punct .minus :: .num v :: (callKinds (w :: calls) ++ .punct .power :: ks))
    (hv : minInteger ≤ -(v : Int)) :
    ∃ node c', assignment (rule n) c = .done node c' ∧ c'.kinds = .punct .power :: ks := by
  obtain ⟨c₁, hminus, hk₁, -⟩ := eatPunct_of_kinds hc
  obtain ⟨s, c₂, hliteral, hk₂, -⟩ := signedLiteral_of_num hk₁ rfl hv c₁.prev
  have called : c₂.kinds = callKinds (w :: calls) ++ .punct .power :: ks := hk₂
  obtain ⟨node, c', hchain, hk', -, -⟩ :=
    chained_of_calls (moves_rule n) called (.inr rfl) (.int s _)
  have whole : signed (rule n) c = .done node c' := by
    rw [signed, bind_of_done hminus, if_pos rfl, prevSpan, bind_view, bind_of_done hliteral]
    exact hchain
  exact ⟨node, c', assignment_of_signed whole hk' (.inr rfl), hk'⟩

end Parser

/-! ### Texts -/

theorem Lexer.splits_bang {rest : List Char} (h : ∀ c ∈ rest.head?, c ≠ '=') :
    Splits ('!' :: rest) [.punct .bang] rest := by
  refine splits_mark (by decide) fun pos => ?_
  cases rest with
  | nil => rfl
  | cons c rest =>
      have mark : punct? '!' (c :: rest) = some (.bang, 0) := by simp [punct?, h c rfl]
      simp only [scan, mark]
      rfl

namespace SignedOperand

variable (u : SignedOperand)

theorem splits_not : Lexer.Splits ("!" ++ u.text).toList
    (.punct .bang :: ((if u.negative then [.punct .minus] else []) ++ u.kinds)) [] := by
  have first : ∀ c ∈ (u.chars ++ []).head?, c ≠ '=' := by
    intro c hc
    have digit := u.literal.isDigit_first
    rw [chars, Numeral.chars] at hc
    cases h : u.negative <;> simp [h] at hc <;> subst hc
    · intro sign
      rw [sign] at digit
      cases digit
    · decide
  have whole : ("!" ++ u.text).toList = '!' :: (u.chars ++ []) := by simp [text]
  rw [whole]
  exact (Lexer.splits_bang first).trans (u.splits_chars (.inl rfl))

theorem splits_square : Lexer.Splits (u.text ++ " ** 2").toList
    ((if u.negative then [.punct .minus] else []) ++ u.kinds ++ [.punct .power, .num 2]) [] := by
  have whole : (u.text ++ " ** 2").toList = u.chars ++ ' ' :: ("**".toList ++ [' ', '2']) := by
    simp [text]
  have two : Lexer.Splits ['2'] [.num 2] [] :=
    @Lexer.splits_token [] '2' [] _ (by decide) fun pos => rfl
  rw [whole]
  refine (u.splits_chars (.inr (.inl ⟨_, rfl⟩))).trans ?_
  exact (Lexer.splits_gap rfl).trans ((InfixOp.power.splits_text ['2']).trans
    ((Lexer.splits_gap rfl).trans two))

end SignedOperand

/-- **Signed operands** under an exclamation mark, and as the base of a power.  An operand with a
minus sign cannot follow an exclamation mark.  It can be raised to a power only if there are no
calls on it and its number fits without the sign; what is negated is then the power. -/
theorem signed_operands (u : SignedOperand) (path : String) (m : Machine) :
    (u.negative = false → Session.Gives path ("!" ++ u.text) m fun names node =>
      ∃ s operand, node = .not s operand ∧ operand.Denotes names u.expr) ∧
    (u.negative = true → Session.Refuses path ("!" ++ u.text) m) ∧
    (u.negative = false → Session.Gives path (u.text ++ " ** 2") m fun names node =>
      node.Denotes names (.binary u.expr "**" (.int 2))) ∧
    (u.negative = true → u.calls = [] → (u.literal.value : Int) ≤ Parser.maxInteger →
      Session.Gives path (u.text ++ " ** 2") m fun names node =>
        ∃ s power, node = .send s (some power) NameId.minus [] ∧
          power.Denotes names (.binary (.int (Int64.ofInt u.literal.value)) "**" (.int 2))) ∧
    (u.negative = true → u.calls ≠ [] ∨ Parser.maxInteger < u.literal.value →
      Session.Refuses path (u.text ++ " ** 2") m) := by
  have fits := u.inRange
  have unsigned : u.negative = false →
      (u.literal.value : Int) ≤ Parser.maxInteger ∧
        u.expr = (Expr.int (Int64.ofInt u.literal.value)).calls u.calls := by
    intro h
    rw [h] at fits
    exact ⟨fits, by rw [SignedOperand.expr, SignedOperand.value, h]; rfl⟩
  have negated := u.splits_not
  have squared := u.splits_square
  refine ⟨fun h => ?_, fun h => ?_, fun h => ?_, fun h bare small => ?_, fun h refused => ?_⟩
  · obtain ⟨fits, expr⟩ := unsigned h
    rw [h] at negated
    rw [expr]
    refine Session.parse_of_assignment m negated rfl fun n c hn hc => ?_
    obtain ⟨s, node, c', hread, hk, hd⟩ := Parser.assignment_of_bang (Nat.zero_lt_of_lt hn)
      (by simpa [SignedOperand.kinds] using hc) fits
    exact ⟨_, c', hread, hk, s, node, rfl, hd⟩
  · rw [h] at negated
    refine Session.parse_of_leftover m negated rfl fun n c hn hc => .inl ?_
    exact Parser.assignment_of_bang_minus (Nat.zero_lt_of_lt hn) hc
  · obtain ⟨fits, expr⟩ := unsigned h
    rw [h] at squared
    rw [expr]
    refine Session.parse_of_assignment m squared rfl fun n c hn hc => ?_
    exact Parser.assignment_of_square (Nat.zero_lt_of_lt hn)
      (by simpa [SignedOperand.kinds] using hc) fits
  · rw [h] at squared
    refine Session.parse_of_assignment m squared rfl fun n c hn hc => ?_
    have deep : 1 < n := Nat.lt_of_le_of_lt (by simp) hn
    obtain ⟨s, power, c', hread, hk, hd⟩ := Parser.assignment_of_minus_square deep
      (by simpa [SignedOperand.kinds, bare, Parser.callKinds] using hc) small
    exact ⟨_, c', hread, hk, s, power, rfl, hd⟩
  · rw [h] at squared fits
    refine Session.parse_of_leftover m squared rfl fun n c hn hc => ?_
    have deep : 1 < n := Nat.lt_of_le_of_lt (by simp) hn
    cases e : u.calls with
    | nil =>
        obtain called | big := refused
        · exact (called e).elim
        · exact .inl (Parser.assignment_of_minus_big deep
            (by simpa [SignedOperand.kinds, e, Parser.callKinds] using hc) (by omega))
    | cons w calls =>
        have low : Parser.minInteger ≤ -(u.literal.value : Int) := by
          have : (u.literal.value : Int) ≤ -Parser.minInteger := fits
          omega
        obtain ⟨node, c', hread, hk⟩ := @Parser.assignment_of_minus_calls c [.num 2, .eof] n _
          calls w (by simpa [SignedOperand.kinds, e] using hc) low
        exact .inr ⟨node, c', .power, _, hread, hk⟩

end MiniRuby
