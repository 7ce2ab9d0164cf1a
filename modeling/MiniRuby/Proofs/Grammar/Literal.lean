import MiniRuby.Proofs.Evaluator.Program
import MiniRuby.Proofs.Grammar.Single
import MiniRuby.Proofs.Token.Spelling

/-!
# Reading literals

The tokens of a datum are read as a literal that writes it down (`Node.Writes`).  A datum is
followed by a comma, a bracket, or the end of the text, and none of these goes on with an operand,
so every level of the grammar hands the literal on as it is.

* `Parser.assignment_of_primary`: an operand that nothing goes on with is read by all levels.
* `Parser.reads_datum`: a datum is read, by induction on the fuel.
* `parseTokens_datum`: a program that consists of a datum is read.
-/

namespace MiniRuby

/-! ### Literals -/

/-- Whether a node is a literal that writes a datum down, with its names in a table. -/
inductive Node.Writes (names : NameTable) : Node → Datum → Prop where
  | nil (s : Span) : Writes names (.nil s) .nil
  | bool (s : Span) (b : Bool) : Writes names (.bool s b) (.bool b)
  | int (s : Span) (i : Int64) : Writes names (.int s i) (.int i)
  | sym (s : Span) {id : NameId} {name : String} (hi : id.index < names.entries.size)
      (hn : names.text id = name) (h : Lexer.IsSymbolName name) :
      Writes names (.symbol s id) (.sym name h)
  | str (s : Span) {text : String} (h : Text.IsPlain text) :
      Writes names (.str s text) (.str text h)
  | arr (s : Span) {nodes : List Node} {ds : List Datum}
      (hs : List.Forall₂ (Writes names) nodes ds) : Writes names (.array s nodes) (.arr ds)

/-- A literal writes the same down when more names are known. -/
theorem Node.Writes.extend {names names' : NameTable} {node : Node} {d : Datum}
    (h : node.Writes names d) (he : names.Extends names') : node.Writes names' d := by
  induction d generalizing node with
  | nil | bool | int | str =>
      cases h
      constructor
  | sym name hn =>
      cases h with
      | sym s hi ht =>
        exact .sym s (hi.trans_le he.size_le) ((he.text_eq _ hi).trans ht) hn
  | arr ds ih =>
      cases h with
      | arr s hs =>
        exact .arr s ((forall₂_and_right hs ih).imp fun node d h => h.2 h.1)

namespace Parser

open MiniRuby.Action (bind_of_done bind_view)

variable {c c' : Cursor} {p : Punct} {w : Keyword} {k : TokenKind} {ks : List TokenKind}
  {rules : Rules} {node : Node} {α : Type}

/-! ### Where an operand ends -/

/-- The tokens that can follow an element of an array, or all of a text. -/
def endsDatum : TokenKind → Bool
  | .punct .comma | .punct .rbracket | .eof => true
  | _ => false

/-- Whether the next token follows a datum. -/
def Closing : List TokenKind → Prop
  | k :: _ => endsDatum k = true
  | [] => False

/-- A datum ends at a comma, at a bracket or at the end of the text. -/
theorem endsDatum_cases (h : endsDatum k = true) :
    k = .punct .comma ∨ k = .punct .rbracket ∨ k = .eof := by
  unfold endsDatum at h
  split at h <;> simp_all

/-- There is always a token that a datum ends at. -/
theorem Closing.exists_cons (h : Closing ks) : ∃ k more, ks = k :: more ∧ endsDatum k = true := by
  cases ks with
  | nil => exact h.elim
  | cons k more => exact ⟨k, more, rfl, h⟩

/-- It is no other punctuation. -/
theorem isPunct_of_ends (h : endsDatum k = true) (hc : p ≠ .comma) (hr : p ≠ .rbracket) :
    k.isPunct p = false := by
  rcases endsDatum_cases h with rfl | rfl | rfl <;> simp [TokenKind.isPunct, hc.symm, hr.symm]

/-- An expression ends there, too. -/
theorem endsExpr_of_ends (h : endsDatum k = true) : EndsExpr k := by
  rcases endsDatum_cases h with rfl | rfl | rfl <;>
    exact ⟨rfl, fun _ => rfl, rfl, rfl, rfl, nofun⟩

/-- An operand that ends is read by all levels of operators, and nothing is assigned to it. -/
theorem assignment_of_closes (hs : signed rules c = .done node c') (h : Closing c'.kinds) :
    assignment rules c = .done node c' := by
  obtain ⟨k, ks, hk, he⟩ := h.exists_cons
  refine assignment_of_operation (@operation_of_not_mem _ _ _ _ _ _ [] hs hk levels ?_) hk
    (endsExpr_of_ends he)
  rcases endsDatum_cases he with rfl | rfl | rfl
  · rintro level hl p ⟨⟩
    revert level
    decide
  · rintro level hl p ⟨⟩
    revert level
    decide
  · exact nofun

/-- **A primary** that a datum ends behind is the whole operand. -/
theorem signed_of_primary (hm : c.ahead.kind.isPunct .minus = false)
    (hb : c.ahead.kind.isPunct .bang = false) (hp : primary rules c = .done node c')
    (h : Closing c'.kinds) : signed rules c = .done node c' := by
  obtain ⟨k, ks, hk, he⟩ := h.exists_cons
  have power : eatPunctHere .power c' = .done false c' := by
    refine eatPunctHere_of_not ?_
    rw [Cursor.current_of_kinds hk]
    exact isPunct_of_ends he (by decide) (by decide)
  have unary : unary rules c = .done node c' := by
    rw [unary, bind_of_done (eatPunct_of_not hb)]
    exact (bind_of_done hp).trans (chained_of_endsExpr hk (endsExpr_of_ends he))
  rw [signed, bind_of_done (eatPunct_of_not hm)]
  change Parser.power rules c = _
  rw [Parser.power, bind_of_done unary, bind_of_done power]
  rfl

/-! ### Data -/

/-- What reading a datum comes to: its tokens are taken, and a literal that writes it down is
answered. -/
structure IsRead (c : Cursor) (ks : List TokenKind) (d : Datum) (node : Node) (c' : Cursor) :
    Prop where
  kinds : c'.kinds = ks
  names : c.names.Extends c'.names
  writes : node.Writes c'.names d

/-- Whether a reader reads a datum, after which tokens of the kinds `ks` are left. -/
def Reads (p : Parser Node) (c : Cursor) (ks : List TokenKind) (d : Datum) : Prop :=
  ∃ node c', p c = .done node c' ∧ IsRead c ks d node c'

/-- The first token of a datum. -/
def startsDatum : TokenKind → Bool
  | .keyword .kNil | .keyword .kTrue | .keyword .kFalse | .num _ | .punct .minus | .symbol _
  | .str _ | .punct .lbracket => true
  | _ => false

/-- The tokens of a datum start with one that starts data. -/
theorem startsDatum_tokens (d : Datum) : ∃ k ks, d.tokens = k :: ks ∧ startsDatum k = true := by
  cases d with
  | int i =>
      rw [Datum.tokens]
      split <;> exact ⟨_, _, rfl, rfl⟩
  | bool b => cases b <;> (rw [Datum.tokens]; exact ⟨_, _, rfl, rfl⟩)
  | nil | sym | str | arr =>
      rw [Datum.tokens]
      exact ⟨_, _, rfl, rfl⟩

/-- An expression starts with it, too. -/
theorem startsExpr_of_starts (h : startsDatum k = true) : StartsExpr k := by
  unfold startsDatum at h
  split at h <;> first | exact ⟨rfl, rfl, rfl, rfl⟩ | cases h

theorem isEof_of_starts (h : startsDatum k = true) : k.isEof = false := by
  unfold startsDatum at h
  split at h <;> first | rfl | cases h

theorem isPunct_of_starts (h : startsDatum k = true) (hm : p ≠ .minus) (hb : p ≠ .lbracket) :
    k.isPunct p = false := by
  unfold startsDatum at h
  split at h <;> simp_all [TokenKind.isPunct, eq_comm]

/-- A cursor before a datum is at such a token. -/
theorem exists_kinds_of_tokens {d : Datum} (hc : c.kinds = d.tokens ++ ks) :
    ∃ k more, c.kinds = k :: more ∧ startsDatum k = true := by
  obtain ⟨k, more, hd, hk⟩ := startsDatum_tokens d
  exact ⟨k, more ++ ks, by rw [hc, hd]; rfl, hk⟩

/-- A minus sign before a number is part of the literal. -/
theorem signed_of_minus {n : Nat} (h : c.kinds = .punct .minus :: .num n :: ks)
    (hn : minInteger ≤ -(n : Int)) (hk : Closing ks) :
    ∃ s c', signed rules c = .done (.int s (Int64.ofInt (-(n : Int)))) c' ∧ c'.kinds = ks ∧
      c'.names = c.names := by
  obtain ⟨c₁, h₁, hk₁, hn₁⟩ := eatPunct_of_kinds h
  obtain ⟨t, rest, hr, ht, hrest⟩ := Cursor.rest_of_kinds hk₁
  obtain ⟨k, more, rfl, he⟩ := hk.exists_cons
  have second : c₁.isSecond .power = false := by
    obtain ⟨u, rest', rfl, rfl, -⟩ := List.map_eq_cons_iff.mp hrest
    rw [Cursor.isSecond, hr]
    exact isPunct_of_ends he (by decide) (by decide)
  let c' : Cursor := { c₁ with rest := rest, prev := t.span }
  have here : c₁.current = t := by
    rw [Cursor.current, hr]
    rfl
  have past : advance c₁ = .done () c' := by
    simp only [advance, hr, ht]
    rfl
  have number : signedNumber? c₁.prev c₁ =
      .done (some (.int (c₁.prev.merge t.span) (Int64.ofInt (-(n : Int))))) c' := by
    rw [signedNumber?, Parser.current, bind_view, here]
    simp only [ht]
    rw [if_pos hn, bind_of_done past]
    rfl
  have literal : signedLiteral? c₁.prev c₁ =
      .done (some (.int (c₁.prev.merge t.span) (Int64.ofInt (-(n : Int))))) c' := by
    rw [signedLiteral?, bind_view, second]
    exact number
  refine ⟨c₁.prev.merge t.span, c', ?_, hrest, hn₁⟩
  rw [signed, bind_of_done h₁, if_pos rfl, prevSpan, bind_view, bind_of_done literal]
  exact chained_of_endsExpr (c := c') hrest (endsExpr_of_ends he)

/-! ### Arrays -/

/-- Whether a rule reads certain data as arguments. -/
def ReadsArgs (rules : Rules) (ds : List Datum) : Prop :=
  ∀ d ∈ ds, ∀ c ks, c.kinds = d.tokens ++ ks → Closing ks →
    Reads (rules .arg) c ks d

/-- What a round of reading the elements of an array does: it takes one of them and the mark after
it, which tells whether there is another round, or the bracket if there are no elements. -/
structure Rounds (step : List Node × Bool → Parser (Option (List Node × Bool)))
    (ds : List Datum) : Prop where
  stop : ∀ args c, step (args, false) c = .done none c
  close : ∀ args c ks, c.kinds = .punct .rbracket :: ks →
    ∃ c', step (args, true) c = .done (some (args, false)) c' ∧ c'.kinds = ks ∧ c'.names = c.names
  next : ∀ d ∈ ds, ∀ args c ks, c.kinds = d.tokens ++ .punct .comma :: ks →
    ∃ node c', step (args, true) c = .done (some (node :: args, true)) c' ∧ IsRead c ks d node c'
  last : ∀ d ∈ ds, ∀ args c ks, c.kinds = d.tokens ++ .punct .rbracket :: ks →
    ∃ node c', step (args, true) c = .done (some (node :: args, false)) c' ∧ IsRead c ks d node c'

/-- A datum does not start with the bracket that ends an array. -/
theorem eatPunct_of_tokens {d : Datum} (hc : c.kinds = d.tokens ++ ks) :
    eatPunct .rbracket c = .done false c := by
  obtain ⟨k, more, hc, hk⟩ := exists_kinds_of_tokens hc
  refine eatPunct_of_not ?_
  rw [Cursor.ahead_of_kinds hc (startsExpr_of_starts hk).isLineTerm]
  exact isPunct_of_starts hk (by decide) (by decide)

/-- Arguments are read in such rounds. -/
theorem argsUntil_rounds {ds : List Datum} (hs : ReadsArgs rules ds) :
    ∃ step, Rounds step ds ∧ ∀ c, argsUntil rules .rbracket c =
      (chain step ([], true) >>= fun r => pure r.1.reverse) c := by
  refine ⟨_, ⟨?_, ?_, ?_, ?_⟩, fun c => rfl⟩
  · exact fun args c => rfl
  · intro args c ks hc
    obtain ⟨c', hclose, hks, hn⟩ := eatPunct_of_kinds hc
    exact ⟨c', bind_of_done hclose, hks, hn⟩
  · intro d hd args c ks hc
    obtain ⟨node, c₁, harg, hr⟩ := hs d hd c _ hc rfl
    obtain ⟨c', hcomma, hks, hn⟩ := eatPunct_of_kinds hr.kinds
    refine ⟨node, c', ?_, hks, hn ▸ hr.names, hn ▸ hr.writes⟩
    exact (bind_of_done (eatPunct_of_tokens hc)).trans
      ((bind_of_done harg).trans (bind_of_done hcomma))
  · intro d hd args c ks hc
    obtain ⟨node, c₁, harg, hr⟩ := hs d hd c _ hc rfl
    obtain ⟨c', hclose, hks, hn⟩ := expectPunct_of_kinds hr.kinds
    have comma : eatPunct .comma c₁ = .done false c₁ :=
      eatPunct_of_not (by rw [Cursor.ahead_of_kinds hr.kinds rfl]; rfl)
    refine ⟨node, c', ?_, hks, hn ▸ hr.names, hn ▸ hr.writes⟩
    exact (bind_of_done (eatPunct_of_tokens hc)).trans
      ((bind_of_done harg).trans ((bind_of_done comma).trans (bind_of_done hclose)))

/-- The rounds of an array that is not empty, of which there is one for each element. -/
theorem iterate_rounds {step : List Node × Bool → Parser (Option (List Node × Bool))} {d : Datum}
    {ds : List Datum} (hs : Rounds step (d :: ds)) {args : List Node} {ts : List Token}
    (ht : ds.length < ts.length)
    (hc : c.kinds = [.punct .comma].intercalate ((d :: ds).map Datum.tokens) ++
      .punct .rbracket :: ks) :
    ∃ nodes c', iterate step ts (args, true) c = .done (nodes.reverse ++ args, false) c' ∧
      c'.kinds = ks ∧ c.names.Extends c'.names ∧
      List.Forall₂ (Node.Writes c'.names) nodes (d :: ds) := by
  induction ds generalizing d args ts c with
  | nil =>
      obtain ⟨t, ts, rfl⟩ := List.exists_cons_of_length_pos ht
      obtain ⟨node, c', hstep, hr⟩ := hs.last d (.head _) args c ks (by simpa using hc)
      refine ⟨[node], c', ?_, hr.kinds, hr.names, .cons hr.writes .nil⟩
      rw [iterate_of_some t ts hstep, iterate_of_none ts (hs.stop _ _)]
      rfl
  | cons d' ds ih =>
      obtain ⟨t, ts, rfl⟩ := List.exists_cons_of_length_pos (Nat.zero_lt_of_lt ht)
      simp only [List.map_cons, List.intercalate_cons_cons, List.append_assoc] at hc ih
      obtain ⟨node, c₁, hstep, hr⟩ := hs.next d (.head _) args c _ hc
      have rest : Rounds step (d' :: ds) :=
        ⟨hs.stop, hs.close, fun d h => hs.next d (.tail _ h), fun d h => hs.last d (.tail _ h)⟩
      obtain ⟨nodes, c', hmore, hks, hn, hw⟩ := ih rest (Nat.lt_of_succ_lt_succ ht) hr.kinds
      refine ⟨node :: nodes, c', ?_, hks, hr.names.trans hn, .cons (hr.writes.extend hn) hw⟩
      rw [iterate_of_some t ts hstep, hmore]
      simp

/-- There are at least as many tokens as there are commas. -/
theorem length_le_intercalate (sep : α) (l : List α) (ls : List (List α)) :
    ls.length ≤ ([sep].intercalate (l :: ls)).length := by
  induction ls generalizing l with
  | nil => exact Nat.zero_le _
  | cons l' ls ih =>
      have := ih l'
      rw [List.intercalate_cons_cons]
      simp only [List.length_append, List.length_cons]
      omega

/-- The elements of an array are read up to its bracket. -/
theorem argsUntil_of_data {ds : List Datum} (hs : ReadsArgs rules ds)
    (hc : c.kinds = [.punct .comma].intercalate (ds.map Datum.tokens) ++ .punct .rbracket :: ks) :
    ∃ nodes c', argsUntil rules .rbracket c = .done nodes c' ∧ c'.kinds = ks ∧
      c.names.Extends c'.names ∧ List.Forall₂ (Node.Writes c'.names) nodes ds := by
  obtain ⟨step, rounds, read⟩ := argsUntil_rounds hs
  have length : c.rest.length = c.kinds.length := (List.length_map _).symm
  cases ds with
  | nil =>
      obtain ⟨c', hstep, hks, hn⟩ := rounds.close [] c ks hc
      obtain ⟨t, rest, hrest, -, -⟩ := Cursor.rest_of_kinds hc
      have chained : chain step ([], true) c = .done ([], false) c' := by
        change iterate step c.rest _ c = _
        rw [hrest, iterate_of_some t rest hstep, iterate_of_none rest (rounds.stop _ _)]
      refine ⟨[], c', ?_, hks, hn ▸ .refl _, .nil⟩
      rw [read, bind_of_done chained]
      rfl
  | cons d ds =>
      have enough : ds.length < c.rest.length := by
        have := length_le_intercalate (.punct .comma) d.tokens (ds.map Datum.tokens)
        rw [length, hc]
        simp only [List.length_map, List.length_append, List.map_cons, List.length_cons] at this ⊢
        omega
      obtain ⟨nodes, c', hchain, hks, hn, hw⟩ := iterate_rounds rounds enough hc
      refine ⟨nodes, c', ?_, hks, hn, hw⟩
      rw [read, bind_of_done (show chain step ([], true) c = _ from hchain)]
      simp [Action.pure_apply]

/-- A list is no longer than those that it is put between. -/
theorem length_le_intercalate_of_mem {sep l : List α} {ls : List (List α)} (h : l ∈ ls) :
    l.length ≤ (sep.intercalate ls).length := by
  induction ls with
  | nil => cases h
  | cons l' ls ih =>
      cases ls with
      | nil =>
          obtain rfl := List.mem_singleton.mp h
          simp
      | cons l'' ls =>
          rw [List.intercalate_cons_cons]
          simp only [List.length_append]
          rcases List.mem_cons.mp h with rfl | h
          · omega
          · have := ih h
            omega

/-! ### Data -/

/-- An operand that starts and ends like a datum, and has no sign, is read by all levels. -/
theorem assignment_of_primary (hk : startsDatum c.ahead.kind = true)
    (hm : c.ahead.kind.isPunct .minus = false) (hp : primary rules c = .done node c')
    (h : Closing c'.kinds) : assignment rules c = .done node c' :=
  assignment_of_closes
    (signed_of_primary hm (isPunct_of_starts hk (by decide) (by decide)) hp h) h

/-- What is left to show of a datum that has no sign: how an operand goes on after its first
token. -/
theorem reads_operand {d : Datum} {more : List TokenKind} (hk : startsDatum k = true)
    (hm : k.isPunct .minus = false) (hc : c.kinds = k :: more) (hks : Closing ks)
    (hp : ∀ t c₁, take c = .done t c₁ → t.kind = k → c₁.kinds = more → c₁.names = c.names →
      Reads (primary rules) c ks d) :
    Reads (assignment rules) c ks d := by
  have hl := (startsExpr_of_starts hk).isLineTerm
  have ahead := Cursor.ahead_of_kinds hc hl
  obtain ⟨t, c₁, ht, htk, hk₁, hn₁⟩ := take_of_kinds hc hl (isEof_of_starts hk)
  obtain ⟨node, c', hprim, hr⟩ := hp t c₁ ht htk hk₁ hn₁
  refine ⟨node, c', assignment_of_primary ?_ ?_ hprim (hr.kinds ▸ hks), hr⟩
  · rwa [ahead]
  · rwa [ahead]

/-- A datum of a single token, which is read as a literal without a further look at the text. -/
theorem reads_token {d : Datum} {literal : Span → Node} (hk : startsDatum k = true)
    (hm : k.isPunct .minus = false) (hc : c.kinds = k :: ks) (hks : Closing ks)
    (hp : ∀ t c₁, take c = .done t c₁ → t.kind = k →
      primary rules c = .done (literal t.span) c₁)
    (hw : ∀ s, (literal s).Writes c.names d) :
    Reads (assignment rules) c ks d :=
  reads_operand hk hm hc hks fun t c₁ ht htk hk₁ hn₁ =>
    ⟨literal t.span, c₁, hp t c₁ ht htk, hk₁, hn₁ ▸ .refl _, hn₁ ▸ hw _⟩

/-- `nil` is read as `nil`. -/
theorem reads_nil (hc : c.kinds = Datum.nil.tokens ++ ks) (hks : Closing ks) :
    Reads (assignment rules) c ks .nil := by
  rw [Datum.tokens] at hc
  refine @reads_token _ _ _ _ _ Node.nil rfl rfl hc hks (fun t c₁ ht htk => ?_) .nil
  rw [primary, bind_of_done ht]
  simp only [htk]
  rfl

theorem reads_bool {b : Bool} (hc : c.kinds = (Datum.bool b).tokens ++ ks) (hks : Closing ks) :
    Reads (assignment rules) c ks (.bool b) := by
  cases b <;> rw [Datum.tokens] at hc <;>
    refine @reads_token _ _ _ _ _ (Node.bool · _) rfl rfl hc hks (fun t c₁ ht htk => ?_)
      (Node.Writes.bool · _) <;>
    (rw [primary, bind_of_done ht]; simp only [htk]; rfl)

/-- **A string** is read as its text. -/
theorem reads_string {text : String} {h : Text.IsPlain text}
    (hc : c.kinds = (Datum.str text h).tokens ++ ks) (hks : Closing ks) :
    Reads (assignment rules) c ks (.str text h) := by
  rw [Datum.tokens] at hc
  refine @reads_token _ _ _ _ _ (Node.str · text) rfl rfl hc hks (fun t c₁ ht htk => ?_)
    (Node.Writes.str · h)
  rw [primary, bind_of_done ht]
  simp only [htk]
  rfl

/-- **An integer** is read as its value, and the least one as a sign and a number. -/
theorem reads_integer {i : Int64} (hc : c.kinds = (Datum.int i).tokens ++ ks)
    (hks : Closing ks) :
    Reads (assignment rules) c ks (.int i) := by
  have low := i.le_toInt
  have high := i.toInt_lt
  rw [Datum.tokens] at hc
  split at hc
  · rename_i h
    have value : ((i.toInt.toNat : Nat) : Int) = i.toInt := Int.toNat_of_nonneg h
    refine @reads_token _ _ _ _ _ (fun s => .int s i) rfl rfl hc hks (fun t c₁ ht htk => ?_)
      fun s => .int s i
    rw [primary, bind_of_done ht]
    simp only [htk, value]
    rw [if_pos (by unfold maxInteger; omega), Int64.ofInt_toInt]
    rfl
  · rename_i h
    have value : -(((-i.toInt).toNat : Nat) : Int) = i.toInt := by omega
    obtain ⟨s, c', hsigned, hk', hn'⟩ :=
      @signed_of_minus c ks rules _ hc (by unfold minInteger; omega) hks
    rw [value, Int64.ofInt_toInt] at hsigned
    exact ⟨.int s i, c', assignment_of_closes hsigned (hk' ▸ hks), hk', hn' ▸ .refl _, .int s i⟩

/-- A symbol is read as its name. -/
theorem reads_symbol {name : String} {h : Lexer.IsSymbolName name}
    (hc : c.kinds = (Datum.sym name h).tokens ++ ks) (hks : Closing ks) :
    Reads (assignment rules) c ks (.sym name h) := by
  rw [Datum.tokens] at hc
  refine reads_operand rfl rfl hc hks fun t c₁ ht htk hk₁ hn₁ => ?_
  have interned := c₁.names.text_intern name
  refine ⟨.symbol t.span (c₁.names.intern name).1,
    { c₁ with names := (c₁.names.intern name).2 }, ?_, hk₁, ?_, .sym _ interned.1 interned.2 h⟩
  · rw [primary, bind_of_done ht]
    simp only [htk]
    rfl
  · exact hn₁ ▸ c₁.names.extends_intern name

/-- **An array** is read as its elements, if each of them is read. -/
theorem reads_array {ds : List Datum} (hs : ReadsArgs rules ds)
    (hc : c.kinds = (Datum.arr ds).tokens ++ ks) (hks : Closing ks) :
    Reads (assignment rules) c ks (.arr ds) := by
  rw [Datum.tokens, List.cons_append, List.append_assoc, List.singleton_append] at hc
  refine reads_operand rfl rfl hc hks fun t c₁ ht htk hk₁ hn₁ => ?_
  obtain ⟨nodes, c', hargs, hk', hn', hw⟩ := argsUntil_of_data hs hk₁
  refine ⟨.array (t.span.merge c'.prev) nodes, c', ?_, hk', hn₁ ▸ hn', .arr _ hw⟩
  rw [primary, bind_of_done ht]
  simp only [htk]
  exact bind_of_done hargs

/-- **A datum is read**, given fuel for its tokens. -/
theorem reads_datum (n : Nat) {d : Datum} (hn : d.tokens.length ≤ n)
    (hc : c.kinds = d.tokens ++ ks) (hks : Closing ks) :
    Reads (assignment (rule n)) c ks d := by
  induction n generalizing d c ks with
  | zero =>
      obtain ⟨k, more, hd, -⟩ := startsDatum_tokens d
      simp [hd] at hn
  | succ n ih =>
      cases d with
      | nil => exact reads_nil hc hks
      | bool b => exact reads_bool hc hks
      | int i => exact reads_integer hc hks
      | sym name h => exact reads_symbol hc hks
      | str text h => exact reads_string hc hks
      | arr ds =>
          refine reads_array (fun d hd c ks hc hks => ih ?_ hc hks) hc hks
          have := @length_le_intercalate_of_mem _ [TokenKind.punct .comma] _ _
            (List.mem_map_of_mem (f := Datum.tokens) hd)
          rw [Datum.tokens, List.length_cons, List.length_append] at hn
          omega

end Parser

/-- **A text that consists of a datum** is read as a literal that writes it down. -/
theorem parseTokens_datum {toks : List Token} {d : Datum} (names : NameTable)
    (locals : List NameId) (h : toks.map Token.kind = d.tokens ++ [.eof]) :
    ∃ s node c, parseTokens toks names locals = .done (.stmts s [node]) c ∧
      node.Writes c.names d := by
  have enough : d.tokens.length ≤ toks.length := by
    have := congrArg List.length h
    simp only [List.length_map, List.length_append, List.length_singleton] at this
    omega
  let c : Cursor := ⟨toks, ⟨0, 0⟩, names, [⟨.top, locals⟩]⟩
  obtain ⟨node, c', hread, hr⟩ := @Parser.reads_datum c [.eof] toks.length d enough h rfl
  obtain ⟨k, more, hc, hk⟩ := @Parser.exists_kinds_of_tokens c [.eof] d h
  obtain ⟨s, hprogram⟩ :=
    Parser.program_of_assignment hc (Parser.startsExpr_of_starts hk) hread hr.kinds
  exact ⟨s, node, c', hprogram, hr.writes⟩

end MiniRuby
