import MiniRuby.Proofs.Grammar.Single
import MiniRuby.Proofs.Syntax.Expr
import MiniRuby.Proofs.Token.Numeral
import MiniRuby.Session

/-!
# Reading operands

How a text that starts with a number is read: the number, the methods called on it, and what comes
of the program, given how its only expression is read.

* `Parser.chained_of_calls`: calls without arguments are chained onto an operand.
* `Session.parse_of_assignment`, `Session.parse_of_leftover`: a text of one expression can be read
  if the rule of assignments reads all of it, and else it cannot.
-/

namespace MiniRuby

/-! ### Infix operators -/

/-- The infix operators. -/
inductive InfixOp where
  | or | and
  | equal | caseEqual | unequal
  | greaterEqual | greater | lessEqual | less | compare
  | bitOr | bitAnd | shiftLeft
  | plus | minus
  | star | slash | percent
  | power
deriving DecidableEq

namespace InfixOp

/-- How an operator is spelled. -/
def text : InfixOp → String
  | or => "||"
  | and => "&&"
  | equal => "=="
  | caseEqual => "==="
  | unequal => "!="
  | greaterEqual => ">="
  | greater => ">"
  | lessEqual => "<="
  | less => "<"
  | compare => "<=>"
  | bitOr => "|"
  | bitAnd => "&"
  | shiftLeft => "<<"
  | plus => "+"
  | minus => "-"
  | star => "*"
  | slash => "/"
  | percent => "%"
  | power => "**"

/-- The punctuation mark of an operator. -/
def mark : InfixOp → Punct
  | or => .logicalOr
  | and => .logicalAnd
  | equal => .equal
  | caseEqual => .caseEqual
  | unequal => .unequal
  | greaterEqual => .greaterEqual
  | greater => .greater
  | lessEqual => .lessEqual
  | less => .less
  | compare => .compare
  | bitOr => .bitOr
  | bitAnd => .bitAnd
  | shiftLeft => .shiftLeft
  | plus => .plus
  | minus => .minus
  | star => .star
  | slash => .slash
  | percent => .percent
  | power => .power

/-- **The token of an operator**, before a blank. -/
theorem splits_text (op : InfixOp) (rest : List Char) :
    Lexer.Splits (op.text.toList ++ ' ' :: rest) [.punct op.mark] (' ' :: rest) := by
  cases op <;> exact Lexer.splits_token (by decide) fun pos => rfl

end InfixOp

/-- An operand with calls without arguments on it. -/
def Expr.calls (e : Expr) (calls : List Word) : Expr := calls.foldl (fun e w => .call e w.text) e

namespace Parser

open MiniRuby.Action (bind_of_done bind_view)

variable {c c' : Cursor} {k : TokenKind} {ks : List TokenKind} {rules : Rules} {node : Node}
  {m n : Nat}

/-! ### The next token -/

/-- Whether a token marks the end of the text or is an infix operator. -/
def EndsOperand (k : TokenKind) : Prop := k = .eof ∨ ∃ op : InfixOp, k = .punct op.mark

theorem EndsOperand.endsExpr (h : EndsOperand k) : EndsExpr k := by
  rcases h with rfl | ⟨op, rfl⟩
  · exact endsExpr_eof
  · cases op <;> exact ⟨rfl, fun _ => rfl, rfl, rfl, rfl, nofun⟩

/-- A level has no operator that comes next if it has none of the infix operators. -/
theorem EndsOperand.not_mem (h : EndsOperand k) {ps : List Punct}
    (hp : ∀ op : InfixOp, k = .punct op.mark → op.mark ∉ ps) : ∀ p, k = .punct p → p ∉ ps := by
  rcases h with rfl | ⟨op, rfl⟩
  · exact nofun
  · rintro _ ⟨⟩
    exact hp op rfl

/-- The first token of an operand. -/
def startsOperand : TokenKind → Bool
  | .num _ | .punct .minus | .punct .bang => true
  | _ => false

theorem startsOperand_cases (h : startsOperand k = true) :
    (∃ n, k = .num n) ∨ k = .punct .minus ∨ k = .punct .bang := by
  unfold startsOperand at h
  split at h <;> simp_all

theorem startsExpr_of_operand (h : startsOperand k = true) : StartsExpr k := by
  rcases startsOperand_cases h with ⟨n, rfl⟩ | rfl | rfl <;> exact ⟨rfl, rfl, rfl, rfl⟩

theorem operation_of_failed {e : SyntaxError} (hs : signed rules c = .failed e c')
    (ls : List Level) : operation rules ls c = .failed e c' := by
  induction ls with
  | nil => exact hs
  | cons level ls ih => rw [operation, Action.bind_apply, ih]

theorem assignment_of_failed {e : SyntaxError} (hs : signed rules c = .failed e c') :
    assignment rules c = .failed e c' := by
  rw [assignment, Action.bind_apply, operation_of_failed hs]

/-! ### Numbers and calls -/

/-- A number that fits is an operand. -/
theorem primary_of_num (h : c.kinds = .num n :: ks) (hn : (n : Int) ≤ maxInteger) :
    ∃ s c', primary rules c = .done (.int s (Int64.ofInt n)) c' ∧ c'.kinds = ks ∧
      c'.names = c.names := by
  obtain ⟨t, c', ht, hk, hks, hnames⟩ := take_of_kinds h rfl rfl
  refine ⟨t.span, c', ?_, hks, hnames⟩
  rw [primary, bind_of_done ht]
  simp only [hk]
  rw [if_pos hn]
  rfl

/-- A number that is too big is refused. -/
theorem primary_of_big (h : c.kinds = .num n :: ks) (hn : ¬ (n : Int) ≤ maxInteger) :
    ∃ e c', primary rules c = .failed e c' := by
  obtain ⟨t, c', ht, hk, -, -⟩ := take_of_kinds h rfl rfl
  refine ⟨⟨.integerTooBig, t.span⟩, c', ?_⟩
  rw [primary, bind_of_done ht]
  simp only [hk]
  rw [if_neg hn]
  rfl

/-- The tokens of calls without arguments. -/
def callKinds (calls : List Word) : List TokenKind :=
  calls.flatMap fun w => [.punct .dot, w.token]

/-- A token before which a call has no arguments. -/
def EndsCall (k : TokenKind) : Prop := k = .eof ∨ k = .punct .power ∨ k = .punct .dot

theorem callArgs_of_ends (h : c.kinds = k :: ks) (hk : EndsCall k) :
    callArgs rules c = .done [] c := by
  have here := Cursor.current_of_kinds h
  have opens : c.opensCall = false := by
    rw [Cursor.opensCall, here]
    rcases hk with rfl | rfl | rfl <;> rfl
  have command : startsCommand c = false := by
    rw [startsCommand, here]
    rcases hk with rfl | rfl | rfl <;> split <;> rfl
  rw [callArgs, bind_view, if_neg (by simp [opens]), bind_view, if_neg (by simp [command])]
  rfl

theorem word_isLineTerm (w : Word) : w.token.isLineTerm = false ∧ w.token.isEof = false := by
  rcases w.token_cases with ⟨k, hk, -⟩ | hk | hk <;> rw [hk] <;> exact ⟨rfl, rfl⟩

/-- A call without arguments. -/
theorem link_of_call {w : Word} (h : c.kinds = .punct .dot :: w.token :: k :: ks)
    (hk : EndsCall k) : ∃ s id c', link rules node c = .done (some (.send s (some node) id [])) c' ∧
      c'.kinds = k :: ks ∧ c.names.Extends c'.names ∧ c'.names.Has id ∧
      c'.names.text id = w.text := by
  obtain ⟨c₁, hdot, hk₁, hn₁⟩ := eatPunct_of_kinds h
  obtain ⟨t, c₂, ht, htk, hk₂, hn₂⟩ := take_of_kinds hk₁ (word_isLineTerm w).1 (word_isLineTerm w).2
  obtain ⟨known, spelled⟩ := c₂.names.text_intern w.text
  let c' : Cursor := { c₂ with names := (c₂.names.intern w.text).2 }
  have name : methodName c₁ = .done ((c₂.names.intern w.text).1, t.span.merge c'.prev) c' := by
    rw [methodName, bind_of_done ht, calledName_of_word htk]
    rfl
  have args : callArgs rules c' = .done [] c' := callArgs_of_ends (c := c') hk₂ hk
  have call : methodCall rules node c₁ =
      .done (.ofSend ((t.span.merge c'.prev).merge c'.prev) (some node)
        (c₂.names.intern w.text).1 []) c' := by
    exact (bind_of_done name).trans (bind_of_done args)
  refine ⟨((t.span.merge c'.prev).merge c'.prev).merge node.span, _, c', ?_, hk₂,
    hn₁ ▸ hn₂ ▸ c₂.names.extends_intern w.text, known, spelled⟩
  rw [link, bind_of_done hdot, if_pos rfl]
  exact bind_of_done call

/-- **Calls without arguments** are chained onto an operand, one after the other. -/
theorem chained_of_calls (hr : rules.Move m) {calls : List Word} {e : Expr}
    (hc : c.kinds = callKinds calls ++ k :: ks) (hk : k = .eof ∨ k = .punct .power)
    (hn : node.Denotes c.names e) :
    ∃ node' c', chained rules node c = .done node' c' ∧ c'.kinds = k :: ks ∧
      c.names.Extends c'.names ∧ node'.Denotes c'.names (e.calls calls) := by
  induction calls generalizing node c e with
  | nil =>
      have ends : EndsOperand k := hk.imp_right fun h => ⟨.power, h⟩
      exact ⟨node, c, chained_of_endsExpr hc ends.endsExpr, hc, .refl _, hn⟩
  | cons w calls ih =>
      obtain ⟨k', ks', hmore, hk'⟩ :
          ∃ k' ks', callKinds calls ++ k :: ks = k' :: ks' ∧ EndsCall k' := by
        cases calls with
        | nil => exact ⟨k, ks, rfl, hk.imp_right .inl⟩
        | cons w' calls => exact ⟨_, _, rfl, .inr (.inr rfl)⟩
      have here : c.kinds = .punct .dot :: w.token :: k' :: ks' := by rw [hc, ← hmore]; rfl
      obtain ⟨s, id, c₁, hlink, hk₁, hn₁, known, spelled⟩ := link_of_call here hk'
      have denotes : (Node.send s (some node) id []).Denotes c₁.names (.call e w.text) :=
        spelled ▸ .call s known (hn.extend hn₁)
      obtain ⟨node', c', hmore', hks', hn', hd'⟩ := ih (hk₁.trans hmore.symm) denotes
      refine ⟨node', c', ?_, hks', hn₁.trans hn', hd'⟩
      exact ((Loop.links.shrinks hr).chain_some hlink).trans hmore'

theorem unary_of_primary (hc : c.kinds = .num n :: ks) (h : primary rules c = .done node c') :
    unary rules c = chained rules node c' := by
  have plain : eatPunct .bang c = .done false c :=
    eatPunct_of_not (by rw [Cursor.ahead_of_kinds hc rfl]; rfl)
  rw [unary, bind_of_done plain]
  exact bind_of_done h

/-- A number with calls without arguments on it. -/
theorem unary_of_num (hr : rules.Move m) {calls : List Word}
    (hc : c.kinds = .num n :: (callKinds calls ++ k :: ks)) (hk : k = .eof ∨ k = .punct .power)
    (hn : (n : Int) ≤ maxInteger) :
    ∃ node c', unary rules c = .done node c' ∧ c'.kinds = k :: ks ∧ c.names.Extends c'.names ∧
      node.Denotes c'.names ((Expr.int (Int64.ofInt n)).calls calls) := by
  obtain ⟨s, c₁, hprim, hk₁, hn₁⟩ : ∃ s c₁, primary rules c = .done (.int s _) c₁ ∧ _ :=
    primary_of_num hc hn
  obtain ⟨node, c', hchain, hk', hn', hd⟩ := chained_of_calls hr hk₁ hk (.int s _)
  exact ⟨node, c', (unary_of_primary hc hprim).trans hchain, hk', hn₁ ▸ hn', hd⟩

/-- What is not marked with a minus sign is a power, or the base of none. -/
theorem signed_of_power (h : c.kinds = k :: ks) (hk : k.isLineTerm = false)
    (hm : k.isPunct .minus = false) : signed rules c = power rules c :=
  bind_of_done (eatPunct_of_not (by rw [Cursor.ahead_of_kinds h hk, hm]))

/-- What no mark of a power follows is no base. -/
theorem power_of_ends (hu : unary rules c = .done node c') (h : c'.kinds = k :: ks)
    (hk : k.isPunct .power = false) : power rules c = .done node c' := by
  have none : eatPunctHere .power c' = .done false c' :=
    eatPunctHere_of_not (by rw [Cursor.current_of_kinds h, hk])
  rw [power, bind_of_done hu, bind_of_done none]
  rfl

/-! ### Operators -/

/-- The call of an operator's method. -/
theorem infixCall_of_denotes {op : InfixOp} (hop : op.mark.method? = some op.text)
    {left right : Node} {e e' : Expr} (hl : left.Denotes c.names e)
    (hr : right.Denotes c.names e') :
    ∃ node c', infixCall op.mark left right c = .done node c' ∧ c'.kinds = c.kinds ∧
      c.names.Extends c'.names ∧ node.Denotes c'.names (.binary e op.text e') := by
  obtain ⟨known, spelled⟩ := c.names.text_intern op.text
  have grown := c.names.extends_intern op.text
  refine ⟨.ofInfix (c.names.intern op.text).1 left right,
    { c with names := (c.names.intern op.text).2 }, ?_, rfl, grown, ?_⟩
  · rw [infixCall, hop]
    rfl
  · have hd := Node.Denotes.binary (left.span.merge right.span |>.merge left.span) known
      (hl.extend grown) (hr.extend grown)
    rw [spelled] at hd
    exact hd

theorem rule_succ (hn : 0 < n) (r : Rule) : ∃ n', rule n r = ofRule (rule n') r := by
  obtain ⟨n', rfl⟩ := Nat.exists_eq_add_one.mpr hn
  exact ⟨n', rfl⟩

end Parser

/-! ### Texts -/

section Texts

open MiniRuby.Parser

variable {path text : String} {kinds : List TokenKind} {k : TokenKind}

/-- The tokens of a text that is split into tokens of certain kinds. -/
theorem Session.exists_tokens (h : Lexer.Splits text.toList kinds []) :
    ∃ toks, tokenize text.toList = .ok toks ∧ toks.map Token.kind = kinds ++ [.eof] := by
  obtain ⟨pos, toks, hk, hs⟩ := h 0
  rw [Lexer.tokensFrom] at hs
  exact ⟨_, hs, by simp [hk]⟩

/-- Whether a text is read as a program of one expression, of a kind that may depend on the names
that are known in the end. -/
def Session.Gives (path text : String) (m : Machine) (good : NameTable → Node → Prop) : Prop :=
  ∃ s node m', Session.parse path text m = .done (.stmts s [node]) m' ∧ good m'.names node

/-- Whether a text cannot be read. -/
def Session.Refuses (path text : String) (m : Machine) : Prop :=
  ∃ e m', Session.parse path text m = .failed e m'

/-- **A text of one expression can be read** if the rule of assignments reads all of it. -/
theorem Session.parse_of_assignment {good : NameTable → Node → Prop} (m : Machine)
    (hs : Lexer.Splits text.toList (k :: kinds) []) (hk : startsOperand k = true)
    (h : ∀ n c, kinds.length < n → c.kinds = k :: kinds ++ [.eof] →
      ∃ node c', assignment (rule n) c = .done node c' ∧ c'.kinds = [.eof] ∧ good c'.names node) :
    Session.Gives path text m good := by
  obtain ⟨toks, htoks, hkinds⟩ := Session.exists_tokens hs
  have enough : kinds.length < toks.length := by
    have := congrArg List.length hkinds
    simp at this
    omega
  let c := Cursor.start toks m.names (m.frames.names .top)
  obtain ⟨node, c', hread, hend, hgood⟩ := h toks.length c enough hkinds
  obtain ⟨s, hprogram⟩ :=
    program_of_assignment (c := c) hkinds (startsExpr_of_operand hk) hread hend
  refine ⟨s, node, { m with names := c'.names, source? := some (Source.ofText path text) }, ?_,
    hgood⟩
  simp only [Session.parse, htoks, parseTokens]
  rw [show program (toks.length + 1) ⟨toks, ⟨0, 0⟩, m.names, [⟨.top, m.frames.names .top⟩]⟩ = _
    from hprogram]

/-- A text cannot be read if the rule of assignments fails or stops before an operator. -/
theorem Session.parse_of_leftover (m : Machine) (hs : Lexer.Splits text.toList (k :: kinds) [])
    (hk : startsOperand k = true)
    (h : ∀ n c, kinds.length < n → c.kinds = k :: kinds ++ [.eof] →
      (∃ e c', assignment (rule n) c = .failed e c') ∨
        ∃ node c', ∃ op : InfixOp, ∃ ks, assignment (rule n) c = .done node c' ∧
          c'.kinds = .punct op.mark :: ks) :
    Session.Refuses path text m := by
  obtain ⟨toks, htoks, hkinds⟩ := Session.exists_tokens hs
  have enough : kinds.length < toks.length := by
    have := congrArg List.length hkinds
    simp at this
    omega
  let c := Cursor.start toks m.names (m.frames.names .top)
  obtain ⟨e, c', hprogram⟩ : ∃ e c', program (toks.length + 1) c = .failed e c' := by
    rcases h toks.length c enough hkinds with ⟨e, c', hread⟩ | ⟨node, c', op, ks, hread, hleft⟩
    · exact ⟨e, c', program_of_failed (c := c) hkinds (startsExpr_of_operand hk) hread⟩
    · have ends : EndsOperand (.punct op.mark) := .inr ⟨op, rfl⟩
      obtain ⟨e, hprogram⟩ := program_of_leftover (c := c) hkinds (startsExpr_of_operand hk)
        hread hleft ends.endsExpr (by cases op <;> rfl)
      exact ⟨e, c', hprogram⟩
  refine ⟨.unreadable e,
    { m with names := c'.names, source? := some (Source.ofText path text) }, ?_⟩
  simp only [Session.parse, htoks, parseTokens]
  rw [show program (toks.length + 1) ⟨toks, ⟨0, 0⟩, m.names, [⟨.top, m.frames.names .top⟩]⟩ = _
    from hprogram]

end Texts

end MiniRuby
