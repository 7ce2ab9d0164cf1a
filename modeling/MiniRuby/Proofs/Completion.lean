import MiniRuby.Proofs.Grammar.Fuel
import MiniRuby.Proofs.Incomplete
import MiniRuby.Proofs.Token.Seam
import MiniRuby.Proofs.Token.Spelling

/-!
# Programs that are not complete

Whoever is asked for more can always give it: a text that is refused only because it ends too early
goes on to a program.  What is missing is written on lines of its own (`Piece.spelling`), from the
inside out.

* `isProgram_of_incomplete`: a text that is not complete can be completed.
-/

namespace MiniRuby

/-- A piece as it is written, with the line break before it. -/
def Piece.spelling : Piece → List Char
  | operand => ['\n', 'n', 'i', 'l']
  | «end» => ['\n', 'e', 'n', 'd']
  | rparen => ['\n', ')']
  | rbracket => ['\n', ']']
  | const => ['\n', 'X']
  | binder => ['\n', 'x']
  | param n => '\n' :: 'x' :: (List.replicate n 'x' ++ ['=', '\n', 'n', 'i', 'l'])

/-- Pieces start with a line break, and so does what follows them. -/
theorem Piece.exists_line (r : List Piece) :
    ∃ more, r.flatMap Piece.spelling ++ ['\n'] = '\n' :: more := by
  cases r with
  | nil => exact ⟨[], rfl⟩
  | cons p r => cases p <;> exact ⟨_, rfl⟩

namespace Lexer

variable {rest : List Char}

/-- A token at the start of a line. -/
theorem splits_line {c : Char} {tail : List Char} {kind : TokenKind} (hc : c ∉ skipped)
    (hs : ∀ pos, scan pos c (tail ++ rest) = .ok (kind, tail.length)) :
    Splits ('\n' :: c :: (tail ++ rest)) [.lineTerm, kind] rest := by
  simp only [skipped, List.mem_cons, List.not_mem_nil, or_false, not_or] at hc
  obtain ⟨hb, ht, hr, hn, hj, hx⟩ := hc
  refine fun pos => ⟨pos + 2 + tail.length,
    [⟨.lineTerm, .point pos⟩, ⟨kind, ⟨pos + 1, pos + 1 + tail.length⟩⟩], rfl, ?_⟩
  rw [tokensFrom_break, tokensFrom_scan (by simp [isGap, hb, ht, hr]) hn (absurd · hj) hx, hs]
  simp only [Except.bind, List.drop_left]
  rw [show pos + 1 + 1 + tail.length = pos + 2 + tail.length by omega]
  cases tokensFrom (pos + 2 + tail.length) false rest <;> rfl

/-- A word on a line of its own, or one that an equals sign follows. -/
theorem splits_wordLine {c : Char} {chars : List Char} {kind : TokenKind}
    (hc : isNameStart c = true)
    (h : ∀ c ∈ chars, isNameChar c = true) (hk : wordKind c (String.ofList (c :: chars)) = kind)
    (hr : ∀ c ∈ rest.head?, isNameChar c = false) (hm : nameMark rest = []) :
    Splits ('\n' :: c :: (chars ++ rest)) [.lineTerm, kind] rest := by
  refine splits_line (not_mem_skipped hc (by decide)) fun pos => ?_
  simp only [scan, hc, nameTail_of_chars h hr, hm, List.append_nil, if_true, hk]

theorem wordKind_keyword {c : Char} {chars : List Char} {w : Keyword}
    (h : String.ofList chars = w.text) : wordKind c (String.ofList chars) = .keyword w := by
  simp only [wordKind, h, Keyword.ofText?_text]

theorem wordKind_name (n : Nat) : wordKind 'x' (Piece.name n) = .ident (Piece.name n) := by
  have other : ∀ w : Keyword, w.text.toList.head? ≠ some 'x' := by
    intro w
    cases w <;> decide
  have free : Keyword.ofText? (Piece.name n) = none := by
    refine List.find?_eq_none.mpr fun w _ hw => other w ?_
    rw [of_decide_eq_true hw]
    simp [Piece.name]
  simp only [wordKind, free]
  rfl

/-- A piece is read as the tokens that it stands for. -/
theorem splits_piece (p : Piece) (more : List Char) :
    Splits (p.spelling ++ '\n' :: more) p.kinds ('\n' :: more) := by
  have word (c : Char) (chars : List Char) {kind : TokenKind} (hc : isNameStart c = true)
      (h : ∀ c ∈ chars, isNameChar c = true)
      (hk : wordKind c (String.ofList (c :: chars)) = kind) :
      Splits ('\n' :: c :: (chars ++ '\n' :: more)) [.lineTerm, kind] ('\n' :: more) :=
    splits_wordLine hc h hk (by simp [show isNameChar '\n' = false from rfl]) rfl
  have mark {c : Char} {q : Punct} (hc : c ∉ skipped)
      (hs : ∀ pos, scan pos c ('\n' :: more) = .ok (.punct q, 0)) :
      Splits ('\n' :: c :: '\n' :: more) [.lineTerm, .punct q] ('\n' :: more) :=
    @splits_line _ c [] _ hc hs
  cases p with
  | operand =>
      exact word 'n' ['i', 'l'] (by decide) (List.all_eq_true.mp rfl) (wordKind_keyword rfl)
  | «end» => exact word 'e' ['n', 'd'] (by decide) (List.all_eq_true.mp rfl) (wordKind_keyword rfl)
  | rparen => exact mark (by decide) fun _ => rfl
  | rbracket => exact mark (by decide) fun _ => rfl
  | const =>
      have free : Keyword.ofText? "X" = none := by decide
      exact word 'X' [] (by decide) nofun (by simp only [wordKind, free]; rfl)
  | binder => exact word 'x' [] (by decide) nofun (wordKind_name 0)
  | param n =>
      have name : Splits
          ('\n' :: 'x' ::
            (List.replicate n 'x' ++ '=' :: '\n' :: 'n' :: 'i' :: 'l' :: '\n' :: more))
          [.lineTerm, .ident (Piece.name n)]
          ('=' :: '\n' :: 'n' :: 'i' :: 'l' :: '\n' :: more) := by
        refine splits_wordLine (by decide) (fun c hc => ?_) (wordKind_name n) ?_ rfl
        · rw [List.eq_of_mem_replicate hc]
          decide
        · simp [show isNameChar '=' = false from rfl]
      have equals : Splits ('=' :: '\n' :: 'n' :: 'i' :: 'l' :: '\n' :: more) [.punct .assign]
          ('\n' :: 'n' :: 'i' :: 'l' :: '\n' :: more) := splits_mark (by decide) fun _ => rfl
      have value : Splits ('\n' :: 'n' :: 'i' :: 'l' :: '\n' :: more)
          [.lineTerm, .keyword .kNil] ('\n' :: more) :=
        word 'n' ['i', 'l'] (by decide) (List.all_eq_true.mp rfl) (wordKind_keyword rfl)
      have whole := name.trans (equals.trans value)
      simpa [Piece.spelling, Piece.kinds, Piece.head, Piece.tail] using whole

theorem splits_pieces (r : List Piece) :
    Splits (r.flatMap Piece.spelling ++ ['\n']) (kindsOf r) ['\n'] := by
  induction r with
  | nil => exact .refl _
  | cons p r ih =>
      rw [List.flatMap_cons, List.append_assoc]
      obtain ⟨more, hmore⟩ := Piece.exists_line r
      rw [hmore] at ih ⊢
      exact (splits_piece p more).trans ih

end Lexer

namespace Parser

/-- Whatever a program lacks can be written after it. -/
theorem completes_program {n : Nat} {e : SyntaxError} {c c' : Cursor}
    (h : program n c = .failed e c') (he : e.isIncomplete = true) :
    ∃ r, ∀ m brk last ts d, brk.kind = .lineTerm → last.kind = .eof →
      ts.map Token.kind = kindsOf r →
      c.Prolongs (ts ++ [brk, last]) d → Yields (fun _ _ => True) (program m d) := by
  have stmts : GoesOn endsBody (fun _ => .always) (rule n .stmts) (limit .stmts) c :=
    (continues_limit n).stmts.goes c
  -- Statements that end before the text does are no program, but not for want of further lines.
  have refused : ∀ node c₁, rule n .stmts c ≠ .done node c₁ := by
    intro node c₁ hs
    rw [program, Action.bind_apply, hs] at h
    change (if c₁.ahead.kind.isEof then pure node else failAt .unexpectedToken c₁.ahead.span :
      Parser Node) c₁ = _ at h
    split at h
    · cases h
    · cases h
      cases he
  rcases stmts with ⟨node, c₁, hs, -⟩ | ⟨-, r, hlong⟩ | hlost
  · exact (refused node c₁ hs).elim
  · refine ⟨r, fun m brk last ts d hb hl hts hd => ?_⟩
    have line : NewLine endsBody [brk, last] := ⟨none, brk, last, [], trivial, rfl, hb, hl⟩
    have read := yields_of_limit m .stmts (hlong [brk, last] ts d line hts hd)
    refine read.bind fun node d₁ hd₁ => ?_
    obtain ⟨b, -, hs⟩ := hd₁
    obtain ⟨next, t, rest, -, -, htail, hsig⟩ := Cursor.significant_of_stands line hs
    cases htail
    change Yields _ ((if d₁.ahead.kind.isEof then pure node else
      failAt .unexpectedToken d₁.ahead.span : Parser Node) d₁)
    simp only [Cursor.ahead, hsig, List.headD_cons, hl, TokenKind.isEof]
    trivial
  · rw [program, Action.bind_apply] at h
    cases hs : rule n .stmts c with
    | done node c₁ => exact (refused node c₁ hs).elim
    | failed e₁ c₁ =>
        rw [hs] at h hlost
        cases h
        rw [show e.isIncomplete = false from hlost] at he
        cases he
    | halted c₁ =>
        rw [hs] at h
        cases h

end Parser

namespace Lexer

/-- The tokens of pieces, up to the end of the text. -/
theorem reads_pieces (pos : Nat) (r : List Piece) :
    ∃ ts brk last, ts.map Token.kind = kindsOf r ∧ brk.kind = .lineTerm ∧ last.kind = .eof ∧
      Reads pos false (r.flatMap Piece.spelling ++ ['\n']) (ts ++ [brk, last]) := by
  obtain ⟨pos', ts, hts, h⟩ := splits_pieces r pos
  refine ⟨ts, ⟨.lineTerm, .point pos'⟩, ⟨.eof, .point (pos' + 1)⟩, hts, rfl, rfl, reads_of_eq ?_⟩
  rw [h, tokensFrom_break, tokensFrom]
  rfl

/-- A line break is read before the line. -/
theorem Reads.line {pos : Nat} {rest : List Char} {tokens : List Token}
    (h : Reads pos false ('\n' :: rest) tokens) :
    ∃ more, tokens = ⟨.lineTerm, .point pos⟩ :: more ∧ Reads (pos + 1) true rest more := by
  cases h with
  | gap hc => cases hc
  | «break» h => exact ⟨_, rfl, h⟩
  | token hs => exact (scan_blank (.inr (.inl rfl)) hs).elim

end Lexer

/-- **A text that is not complete can be completed**, whichever local variables are known. -/
theorem isProgram_of_incomplete {text : List Char} {names : NameTable} {locals : List NameId}
    {tokens : List Token} {e : SyntaxError} {c : Cursor} (ht : tokenize text = .ok tokens)
    (hp : parseTokens tokens names locals = .failed e c) (he : e.isIncomplete = true) :
    ∃ lines, isProgram (text ++ lines) names locals = true := by
  obtain ⟨r, complete⟩ := Parser.completes_program hp he
  refine ⟨r.flatMap Piece.spelling ++ ['\n'], ?_⟩
  obtain ⟨ts, brk, last, hts, hb, hl, read⟩ := Lexer.reads_pieces (0 + text.length) r
  obtain ⟨rest, hrest⟩ := Piece.exists_line r
  rw [hrest] at read ⊢
  obtain ⟨more, hmore, read⟩ := read.line
  obtain ⟨whole, hwhole, sewn⟩ := (Lexer.reads_of_eq ht).seam rfl read
  obtain ⟨brk', hb', prolonged⟩ : ∃ brk' : Token, brk'.kind = .lineTerm ∧
      Prolonged (brk' :: more) tokens whole := by
    rcases sewn with sewn | ⟨⟨⟩, -⟩
    exact sewn
  -- Whichever line break comes first, it is followed by the same tokens.
  obtain ⟨ts', brk₁, hts', hb₁, happ⟩ : ∃ ts' brk₁, ts'.map Token.kind = kindsOf r ∧
      brk₁.kind = .lineTerm ∧ brk' :: more = ts' ++ [brk₁, last] := by
    cases ts with
    | nil =>
        cases hmore
        exact ⟨[], brk', hts, hb', rfl⟩
    | cons t ts =>
        cases hmore
        exact ⟨brk' :: ts, brk, by rw [← hts, List.map_cons, hb', List.map_cons], hb, rfl⟩
  have done := complete (whole.length + 1) brk₁ last ts' (.start whole names locals)
    hb₁ hl hts' ⟨happ ▸ prolonged, rfl, rfl, rfl⟩
  have tokens : tokenize (text ++ '\n' :: rest) = .ok whole := hwhole.eq
  unfold isProgram
  rw [tokens]
  change Parser.Yields _ (parseTokens whole names locals) at done
  cases hq : parseTokens whole names locals with
  | done node d => simp only [hq]
  | failed e' d =>
      rw [hq] at done
      exact done.elim
  | halted d => exact (parseTokens_ne_halted whole names locals d hq).elim

/-- A definition that ends within its parameters can be completed. -/
theorem isProgram_of_incomplete_params :
    isProgram "def f(a, b = 1,".toList NameTable.initial [] = false ∧
      ∃ lines, isProgram ("def f(a, b = 1,".toList ++ lines) NameTable.initial [] = true := by
  refine ⟨by decide +kernel, ?_⟩
  have awaited : isAwaited "def f(a, b = 1,".toList NameTable.initial [] = true := by decide +kernel
  have refused : isProgram "def f(a, b = 1,".toList NameTable.initial [] = false := by
    decide +kernel
  have tokens : (tokenize "def f(a, b = 1,".toList).isOk = true := by decide +kernel
  unfold isAwaited at awaited
  unfold isProgram at refused
  cases ht : tokenize "def f(a, b = 1,".toList with
  | error e =>
      rw [ht] at tokens
      cases tokens
  | ok tokens =>
      simp only [ht] at awaited refused
      cases hp : parseTokens tokens NameTable.initial [] with
      | done node c =>
          rw [hp] at refused
          cases refused
      | failed e c =>
          rw [hp] at awaited
          exact isProgram_of_incomplete ht hp awaited
      | halted c => exact (parseTokens_ne_halted _ _ _ c hp).elim

end MiniRuby
