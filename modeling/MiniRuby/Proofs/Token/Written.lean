import MiniRuby.Proofs.Token.Numeral
import MiniRuby.Proofs.Token.Reads

/-!
# Rows of tokens are read back

A token is spelled in one way (`TokenKind.spelling`), and most of the spellings begin like others
do: `<=>` begins like `<=`, and that like `<`; a name may be that of a reserved word, and it may go
on with a mark.  A blank keeps them apart.  So a row of tokens that are written with single blanks
between them is read back, whatever their order is.

* `TokenKind.HasSpelling`: the tokens that can be written.
* `Lexer.splits_written`: a token that is written before a blank is read back.
* `tokenize_written`: a row of tokens that are written with blanks between them is read back.
* `Lexer.scan_cases`: a token takes up its spelling, unless it is a number or a string.
* `Lexer.Reads.origin`: where the tokens of a text come from.
* `chars_of_tokenize`: which characters of a text its tokens cover.
-/

namespace MiniRuby

/-! ### Spellings -/

/-- How a punctuation mark is spelled. -/
def Punct.spelling : Punct → List Char
  | lparen => ['(']
  | rparen => [')']
  | lbracket => ['[']
  | rbracket => [']']
  | semicolon => [';']
  | comma => [',']
  | dot => ['.']
  | plus => ['+']
  | minus => ['-']
  | star => ['*']
  | slash => ['/']
  | percent => ['%']
  | power => ['*', '*']
  | shiftLeft => ['<', '<']
  | assign => ['=']
  | assignOp .add => ['+', '=']
  | assignOp .sub => ['-', '=']
  | assignOp .mul => ['*', '=']
  | assignOp .div => ['/', '=']
  | equal => ['=', '=']
  | caseEqual => ['=', '=', '=']
  | unequal => ['!', '=']
  | greater => ['>']
  | greaterEqual => ['>', '=']
  | less => ['<']
  | lessEqual => ['<', '=']
  | compare => ['<', '=', '>']
  | bitAnd => ['&']
  | bitOr => ['|']
  | bang => ['!']
  | logicalAnd => ['&', '&']
  | logicalOr => ['|', '|']
  | arrow => ['=', '>']

namespace Text

/-- A character between single quotes: quotes and backslashes are escaped, and nothing else is. -/
def quoteChar (c : Char) : List Char := if c = '\'' ∨ c = '\\' then ['\\', c] else [c]

/-- A text between single quotes. -/
def quote (s : String) : List Char := '\'' :: (s.toList.flatMap quoteChar ++ ['\''])

end Text

namespace TokenKind

/-- How a token is spelled.  Decimal fractions have many spellings, and line breaks and the end of
the text stand for themselves. -/
def spelling : TokenKind → List Char
  | ident s | const s | instanceVar s => s.toList
  | num n => Nat.toDigits 10 n
  | str s => Text.quote s
  | symbol s => ':' :: s.toList
  | keyword k => k.text.toList
  | punct p => p.spelling
  | eof | float _ | lineTerm => []

/-- Which tokens can be written: names that are not reserved, numbers of 64 bits, all strings,
symbols, reserved words and punctuation. -/
inductive HasSpelling : TokenKind → Prop where
  | ident (w : Word) (small : w.first.isUpper = false) (free : ∀ k : Keyword, k.text ≠ w.text) :
      HasSpelling (.ident w.text)
  | minusName : HasSpelling (.ident "-@")
  | const (w : Word) (capital : w.first.isUpper = true) : HasSpelling (.const w.text)
  | instanceVar {name : List Char} (h : IsVariableName name) :
      HasSpelling (.instanceVar (String.ofList ('@' :: name)))
  | num {n : Nat} (h : n < UInt64.size) : HasSpelling (.num n)
  | str (s : String) : HasSpelling (.str s)
  | symbol {name : List Char} (h : IsNamed name) : HasSpelling (.symbol (String.ofList name))
  | keyword (k : Keyword) : HasSpelling (.keyword k)
  | punct (p : Punct) : HasSpelling (.punct p)

end TokenKind

namespace Lexer

variable {rest : List Char}

/-! ### Before a blank -/

/-- Whether a text is at its end, or goes on with a blank. -/
def Spaced (rest : List Char) : Prop := rest = [] ∨ ∃ more, rest = ' ' :: more

theorem Spaced.stops (h : Spaced rest) : Stops rest := by
  rcases h with rfl | ⟨more, rfl⟩
  · exact stops_nil
  · exact stops_cons rfl

theorem Spaced.ends (h : Spaced rest) : Ends rest := by
  rcases h with rfl | ⟨more, rfl⟩
  · exact .inl rfl
  · exact .inr (.inl ⟨more, rfl⟩)

/-! ### Names and reserved words -/

/-- A capital does not begin a reserved word. -/
theorem ofText?_of_capital {w : Word} (h : w.first.isUpper = true) :
    Keyword.ofText? w.text = none := by
  refine List.find?_eq_none.mpr fun k _ hk => ?_
  have small : k.text.toList.any Char.isUpper = false := by cases k <;> decide
  have same : k.text.toList = w.chars := by
    rw [of_decide_eq_true hk, Word.text, String.toList_ofList]
  rw [same] at small
  exact List.any_eq_false.mp small w.first (.head _) h

theorem ofText?_of_free {s : String} (h : ∀ k : Keyword, k.text ≠ s) :
    Keyword.ofText? s = none :=
  List.find?_eq_none.mpr fun k _ hk => h k (of_decide_eq_true hk)

theorem token_of_ident {w : Word} (small : w.first.isUpper = false)
    (free : ∀ k : Keyword, k.text ≠ w.text) : w.token = .ident w.text := by
  simp [Word.token, wordKind, ofText?_of_free free, small]

theorem token_of_const {w : Word} (capital : w.first.isUpper = true) :
    w.token = .const w.text := by
  simp [Word.token, wordKind, ofText?_of_capital capital, capital]

/-- A reserved word is a name without a mark. -/
theorem exists_word (k : Keyword) : ∃ w : Word, w.chars = k.text.toList ∧ w.token = .keyword k := by
  have start : startsName k.text.toList = true := by cases k <;> decide
  have chars : k.text.toList.tail.all isNameChar = true := by cases k <;> decide
  cases e : k.text.toList with
  | nil =>
      rw [e] at start
      cases start
  | cons c more =>
      rw [e] at start chars
      have text : String.ofList (c :: more) = k.text := by rw [← e, String.ofList_toList]
      refine ⟨⟨c, more, [], start, List.all_eq_true.mp chars, .inl rfl⟩, by simp [Word.chars], ?_⟩
      simp [Word.token, Word.text, Word.chars, wordKind, text, Keyword.ofText?_text]

theorem splits_minusName (hr : Spaced rest) :
    Splits ('-' :: '@' :: rest) [.ident "-@"] rest := by
  refine @splits_token rest '-' ['@'] _ (by decide) fun pos => ?_
  rcases hr with rfl | ⟨more, rfl⟩ <;> rfl

theorem splits_instanceVar {name : List Char} (h : IsVariableName name) (hr : Stops rest) :
    Splits ('@' :: (name ++ rest)) [.instanceVar (String.ofList ('@' :: name))] rest := by
  obtain ⟨start, chars⟩ := takeWhile_variable h hr
  refine splits_token (by decide) fun pos => ?_
  change (if startsName _ then _ else _) = _
  rw [if_pos start, chars]

/-! ### Strings -/

/-- A character between single quotes is read back. -/
theorem singleQuoted?_quoteChar (c : Char) (more : List Char) :
    singleQuoted? (Text.quoteChar c ++ more) =
      (singleQuoted? more).map (.push [c] (Text.quoteChar c).length) := by
  unfold Text.quoteChar
  split
  · rename_i h
    rcases h with rfl | rfl <;> rfl
  · rename_i h
    obtain ⟨_, hb⟩ := not_or.mp h
    simp [singleQuoted?, hb]

theorem splits_quote (s : String) : Splits (Text.quote s ++ rest) [.str s] rest := by
  rw [Text.quote, List.cons_append]
  refine splits_token (by decide) fun pos => ?_
  have read := @read_escaped rest singleQuoted? Text.quoteChar _ '\'' rfl singleQuoted?_quoteChar
    s.toList
  rw [List.append_assoc, List.singleton_append]
  change scanString pos _ (singleQuoted? _) = _
  rw [read, scanString]
  simp

/-! ### Punctuation -/

theorem splits_punct (p : Punct) (hr : Spaced rest) :
    Splits (p.spelling ++ rest) [.punct p] rest := by
  cases p
  case assignOp op =>
    cases op <;> rcases hr with rfl | ⟨more, rfl⟩ <;>
      exact splits_token (by decide) fun pos => rfl
  all_goals
    rcases hr with rfl | ⟨more, rfl⟩ <;> exact splits_token (by decide) fun pos => rfl

/-! ### Rows of tokens -/

/-- **A token that is written before a blank is read back.** -/
theorem splits_written {kind : TokenKind} (h : kind.HasSpelling) (hr : Spaced rest) :
    Splits (kind.spelling ++ rest) [kind] rest := by
  cases h with
  | ident w small free =>
      rw [TokenKind.spelling, Word.text, String.toList_ofList]
      exact token_of_ident small free ▸ splits_name w hr.ends
  | minusName => exact splits_minusName hr
  | const w capital =>
      rw [TokenKind.spelling, Word.text, String.toList_ofList]
      exact token_of_const capital ▸ splits_name w hr.ends
  | instanceVar h =>
      rw [TokenKind.spelling, String.toList_ofList]
      exact splits_instanceVar h hr.stops
  | num h => exact splits_digits (Nat.le_of_lt_succ h) hr.stops
  | str s => exact splits_quote s
  | symbol h =>
      have read := symbolName?_of_isNamed h stops_nil
      rw [List.append_nil] at read
      exact splits_symbol ⟨_, by rwa [String.toList_ofList]⟩ hr.stops
  | keyword k =>
      obtain ⟨w, chars, token⟩ := exists_word k
      rw [TokenKind.spelling, ← chars, ← token]
      exact splits_name w hr.ends
  | punct p => exact splits_punct p hr

/-- A row of tokens that are written with single blanks between them. -/
def written (kinds : List TokenKind) : List Char :=
  [' '].intercalate (kinds.map TokenKind.spelling)

theorem splits_row {kinds : List TokenKind} (h : ∀ kind ∈ kinds, kind.HasSpelling) :
    Splits (written kinds) kinds [] := by
  -- Each token but the last one stands before a blank, which leaves what is after it alone.
  induction kinds with
  | nil => exact Splits.refl []
  | cons kind kinds ih =>
      obtain ⟨first, more⟩ := List.forall_mem_cons.mp h
      cases kinds with
      | nil => simpa [written] using splits_written first (.inl rfl)
      | cons kind' kinds =>
          have row : written (kind :: kind' :: kinds) =
              kind.spelling ++ ' ' :: written (kind' :: kinds) := by
            simp [written, List.intercalate_cons_cons]
          rw [row]
          exact (splits_written first (.inr ⟨_, rfl⟩)).trans ((splits_gap rfl).trans (ih more))

end Lexer

/-- **A row of tokens is read back**: when tokens are written with single blanks between them, the
text has these tokens, in their order, and the end of the text. -/
theorem tokenize_written {kinds : List TokenKind} (h : ∀ kind ∈ kinds, kind.HasSpelling) :
    ∃ tokens, tokenize (Lexer.written kinds) = .ok tokens ∧
      tokens.map Token.kind = kinds ++ [.eof] := by
  obtain ⟨pos, tokens, hk, hs⟩ := Lexer.splits_row h 0
  rw [Lexer.tokensFrom] at hs
  exact ⟨_, hs, by simp [hk]⟩

/-- Names with marks, and tokens that begin like others. -/
theorem tokenize_written_overlapping :
    ∃ tokens, tokenize
        "a? = < <= <=> - -@ @b :c= :[]= '\\'\\\\n' 18446744073709551615 if".toList = .ok tokens ∧
      tokens.map Token.kind =
        [.ident "a?", .punct .assign, .punct .less, .punct .lessEqual, .punct .compare,
          .punct .minus, .ident "-@", .instanceVar "@b", .symbol "c=", .symbol "[]=",
          .str "'\\n", .num 18446744073709551615, .keyword .kIf] ++ [.eof] := by
  have read (kinds text) (h : ∀ kind ∈ kinds, TokenKind.HasSpelling kind)
      (e : Lexer.written kinds = text) :
      ∃ tokens, tokenize text = .ok tokens ∧ tokens.map Token.kind = kinds ++ [.eof] :=
    e ▸ tokenize_written h
  refine read _ _ ?_ (by decide +kernel)
  let a : Word := ⟨'a', [], ['?'], rfl, nofun, .inr (.inl rfl)⟩
  let b : Word := ⟨'b', [], [], rfl, nofun, .inl rfl⟩
  let c : Word := ⟨'c', [], [], rfl, nofun, .inl rfl⟩
  have free : ∀ k : Keyword, k.text ≠ a.text := by
    intro k
    cases k <;> decide
  have ident : TokenKind.HasSpelling (.ident "a?") := .ident a (by decide) free
  have instanceVar : TokenKind.HasSpelling (.instanceVar "@b") := .instanceVar (.intro b rfl)
  have setter : TokenKind.HasSpelling (.symbol "c=") := .symbol (.setter (.intro c rfl))
  have operator : TokenKind.HasSpelling (.symbol "[]=") :=
    .symbol (@IsNamed.operator ['[', ']', '='] (by decide))
  have num : TokenKind.HasSpelling (.num 18446744073709551615) := .num (by decide)
  simp only [List.forall_mem_cons]
  exact ⟨ident, .punct _, .punct _, .punct _, .punct _, .punct _, .minusName, instanceVar, setter,
    operator, .str _, num, .keyword _, nofun⟩

namespace Lexer

variable {rest : List Char}

/-! ### What is read -/

theorem hasSpelling_token (w : Word) : w.token.HasSpelling ∧ w.token.spelling = w.chars := by
  unfold Word.token wordKind
  cases e : Keyword.ofText? w.text with
  | some k =>
      have text : k.text = w.text := by simpa using List.find?_some e
      exact ⟨.keyword k, by rw [TokenKind.spelling, text, Word.text, String.toList_ofList]⟩
  | none =>
      dsimp only
      have free : ∀ k : Keyword, k.text ≠ w.text := by
        intro k hk
        rw [← hk, Keyword.ofText?_text] at e
        cases e
      split
      · exact ⟨.const w ‹_›, String.toList_ofList⟩
      · exact ⟨.ident w (Bool.eq_false_of_not_eq_true ‹_›) free, String.toList_ofList⟩

theorem punct?_spelling {c : Char} {p : Punct} {n : Nat} (h : punct? c rest = some (p, n)) :
    p.spelling = c :: rest.take n := by
  fun_cases punct? c rest <;> simp only [punct?] at h <;> cases h <;> rfl

/-- **What a token is read from** is its spelling, unless it is a number or a string. -/
theorem scan_cases {pos : Nat} {c : Char} {kind : TokenKind} {n : Nat}
    (h : scan pos c rest = .ok (kind, n)) :
    (kind.HasSpelling ∧ kind.spelling = c :: rest.take n) ∨
      (∃ x, kind = .float x) ∨ (∃ v < UInt64.size, kind = .num v) ∨ ∃ s, kind = .str s := by
  have string : ∀ {tail}, scanString pos rest tail = .ok (kind, n) → ∃ s, kind = .str s := by
    intro tail h
    obtain ⟨t, -, hk, -⟩ := scanString_ok h
    exact ⟨_, hk⟩
  have taken : ∀ {first : List Char}, first <+: rest → first = rest.take first.length :=
    List.prefix_iff_eq_take.mp
  -- The cases are in the order in which the reader looks at the first character.
  unfold scan at h
  split at h
  · rename_i start
    cases h
    obtain ⟨written, spelled⟩ := hasSpelling_token (nameAt c rest start)
    exact .inl ⟨written, spelled.trans (congrArg (c :: ·) (taken (nameTail_isPrefix rest)))⟩
  split at h
  · obtain ⟨-, hx | ⟨v, hv, hk⟩⟩ := scanNumber_ok h
    · exact .inr (.inl hx)
    · exact .inr (.inr (.inl ⟨v, Nat.lt_succ_of_le hv, hk⟩))
  split at h
  · exact .inr (.inr (.inr (string h)))
  split at h
  · exact .inr (.inr (.inr (string h)))
  split at h
  · subst c
    split at h
    · cases h
      refine .inl ⟨.instanceVar (isVariableName_of_startsName ‹_›), ?_⟩
      exact String.toList_ofList.trans (congrArg ('@' :: ·) (taken (List.takeWhile_prefix _)))
    · cases h
  split at h
  · subst c
    obtain ⟨name, hname, rfl, rfl⟩ := scanSymbol_ok h
    refine .inl ⟨.symbol (isNamed_of_symbolName? hname), congrArg (':' :: ·) ?_⟩
    exact String.toList_ofList.trans (taken (symbolName?_isPrefix hname))
  split at h
  · rename_i hm
    obtain ⟨rfl, hm⟩ : c = '-' ∧ isMinusName rest = true := by simpa using hm
    obtain ⟨more, rfl⟩ := isMinusName_eq hm
    cases h
    exact .inl ⟨.minusName, rfl⟩
  split at h
  · cases h
    exact .inl ⟨.punct _, punct?_spelling ‹_›⟩
  · cases h

end Lexer

/-- The characters of a text that a token covers. -/
def Token.chars (t : Token) (text : List Char) : List Char :=
  (text.drop t.span.first).take (t.span.last + 1 - t.span.first)

namespace Lexer

/-- What is left of a text when more of it has been read. -/
theorem drop_of_cons {whole read text : List Char} {c : Char} {pos : Nat}
    (h : whole.drop pos = c :: (read ++ text)) : whole.drop (pos + 1 + read.length) = text := by
  rw [← List.drop_drop, ← List.drop_drop, h, List.drop_one, List.tail_cons, List.drop_left]

/-- Where the tokens of a text come from, and which characters they cover. -/
theorem Reads.origin {pos : Nat} {broken : Bool} {text whole : List Char} {tokens : List Token}
    (h : Reads pos broken text tokens) : whole.drop pos = text → ∀ t ∈ tokens, t.kind = .eof ∨
      (t.kind = .lineTerm ∧ t.chars whole = ['\n']) ∨
      ∃ pos c rest n, scan pos c rest = .ok (t.kind, n) ∧ t.chars whole = c :: rest.take n := by
  induction h with
  | nil => simp
  | @gap _ _ c _ _ _ _ ih => exact fun hw => ih (@drop_of_cons _ [] _ _ _ hw)
  | breakAgain _ ih => exact fun hw => ih (@drop_of_cons _ [] _ _ _ hw)
  | join _ ih => exact fun hw => ih (@drop_of_cons _ ['\n'] _ _ _ hw)
  | comment _ _ _ ih => exact fun hw => ih (drop_of_cons hw)
  | «break» _ ih =>
      refine fun hw => List.forall_mem_cons.mpr ⟨.inr (.inl ⟨rfl, ?_⟩), ?_⟩
      · simp [Token.chars, Span.point, hw]
      · exact ih (@drop_of_cons _ [] _ _ _ hw)
  | token hs _ ih =>
      refine fun hw => List.forall_mem_cons.mpr ⟨.inr (.inr ⟨_, _, _, _, hs, ?_⟩), ?_⟩
      · simp [Token.chars, hw, Nat.add_assoc]
      · exact ih (drop_of_cons hw)

end Lexer

/-- **The characters that a token covers** spell it, unless it is a number, a string, or the end of
the text.  No tokens are read that cannot be written, but for decimal fractions, line breaks and the
end of the text. -/
theorem chars_of_tokenize {text : List Char} {tokens : List Token}
    (h : tokenize text = .ok tokens) : ∀ t ∈ tokens,
      (t.kind.HasSpelling ∧ t.chars text = t.kind.spelling) ∨
      (t.kind = .lineTerm ∧ t.chars text = ['\n']) ∨ (∃ x, t.kind = .float x) ∨
      (∃ v < UInt64.size, t.kind = .num v) ∨ (∃ s, t.kind = .str s) ∨ t.kind = .eof := by
  intro t ht
  rcases (Lexer.reads_of_eq h).origin rfl t ht with hk | hk | ⟨pos, c, rest, n, hs, hc⟩
  · simp [hk]
  · exact .inr (.inl hk)
  · rcases Lexer.scan_cases hs with ⟨written, spelled⟩ | hx | hv | hs
    · exact .inl ⟨written, hc.trans spelled.symm⟩
    · exact .inr (.inr (.inl hx))
    · exact .inr (.inr (.inr (.inl hv)))
    · exact .inr (.inr (.inr (.inr (.inl hs))))

end MiniRuby
