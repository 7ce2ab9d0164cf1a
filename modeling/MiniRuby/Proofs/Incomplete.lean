import MiniRuby.Proofs.Grammar.Cut
import MiniRuby.Proofs.Grammar.Moves

/-!
# Programs that come line by line

Whoever types a program line by line gets no error for what is right so far: after each line the
reader has a program, or it asks for more.  Only a line that ends in a backslash, which the next one
is joined to, is not looked at on its own.

* `isAwaited_of_lines`: the first lines of a program are a program, or they are incomplete.
-/

namespace MiniRuby

/-- Whether a text is a program, with the given local variables known. -/
def isProgram (text : List Char) (names : NameTable) (locals : List NameId) : Bool :=
  match tokenize text with
  | .error _ => false
  | .ok tokens =>
    match parseTokens tokens names locals with
    | .done _ _ => true
    | .failed _ _ | .halted _ => false

/-- Whether something has been read, or the only thing wrong is that the text ends too early. -/
def Outcome.isAwaited {σ α : Type} : Outcome σ SyntaxError α → Bool
  | done _ _ => true
  | failed e _ => e.isIncomplete
  | halted _ => false

/-- Whether a text is a program, or the only thing wrong with it is that it ends too early. -/
def isAwaited (text : List Char) (names : NameTable) (locals : List NameId) : Bool :=
  match tokenize text with
  | .error e => e.isIncomplete
  | .ok tokens => (parseTokens tokens names locals).isAwaited

/-- What is read of tokens that are cut off after a line break. -/
theorem parse_cutTokens {ts us : List Token} (h : CutTokens ts us) {names : NameTable}
    {locals : List NameId} {node : Node} {c : Cursor}
    (hp : parseTokens ts names locals = .done node c) :
    (parseTokens us names locals).isAwaited = true := by
  have start : Cursor.Cut ⟨ts, ⟨0, 0⟩, names, [⟨.top, locals⟩]⟩
      ⟨us, ⟨0, 0⟩, names, [⟨.top, locals⟩]⟩ := ⟨h, rfl, rfl, rfl⟩
  have cut := (Parser.copes_program (ts.length + 1) (us.length + 1)).cut start hp
  change (∃ d, parseTokens us names locals = .done node d ∧ _) ∨
    Parser.Stops _ (parseTokens us names locals) at cut
  cases hq : parseTokens us names locals with
  | done node' d => rfl
  | failed e d =>
      rw [hq] at cut
      rcases cut with ⟨_, h, _⟩ | h
      · cases h
      · exact h
  | halted d => exact (parseTokens_ne_halted us names locals d hq).elim

/-- The tokens of a text that is cut off after a line break. -/
theorem tokenize_line {line rest : List Char} {ts : List Token} (hl : ¬['\\'] <:+ line)
    (h : tokenize (line ++ '\n' :: rest) = .ok ts) :
    (∃ us, tokenize (line ++ ['\n']) = .ok us ∧ CutTokens ts us) ∨
      ∃ e, tokenize (line ++ ['\n']) = .error e ∧ e.isIncomplete = true := by
  rcases Lexer.tokensFrom_line line 0 false hl ts h with ⟨us, hus, hcut⟩ | he
  · exact .inl ⟨us, hus, hcut.tokens⟩
  · exact .inr he

/-- **The first lines of a program** are a program, or they are incomplete. -/
theorem isAwaited_of_lines {text lines : List Char} {names : NameTable} {locals : List NameId}
    (hp : isProgram text names locals = true) (hl : lines <+: text)
    (hn : lines.getLast? = some '\n') (hb : lines.dropLast.getLast? ≠ some '\\') :
    isAwaited lines names locals = true := by
  obtain ⟨rest, rfl⟩ := hl
  obtain ⟨line, rfl⟩ := List.getLast?_eq_some_iff.mp hn
  have hl : ¬['\\'] <:+ line := by
    rintro ⟨front, rfl⟩
    simp at hb
  rw [List.append_assoc, List.singleton_append] at hp
  unfold isProgram at hp
  split at hp
  · cases hp
  · rename_i ts hts
    split at hp
    · rename_i node c hnode
      unfold isAwaited
      rcases tokenize_line hl hts with ⟨us, hus, hcut⟩ | ⟨e, he, hinc⟩
      · rw [hus]
        exact parse_cutTokens hcut hnode
      · rw [he]
        exact hinc
    · cases hp
    · cases hp

/-- After two lines, the second of which ends within an array, the reader asks for more. -/
theorem isAwaited_of_lines_array :
    isProgram "unless nil\n[1,\n".toList NameTable.initial [] = false ∧
      isAwaited "unless nil\n[1,\n".toList NameTable.initial [] = true :=
  ⟨by decide +kernel,
    @isAwaited_of_lines "unless nil\n[1,\n'a\n']\nend".toList _ _ _ (by decide +kernel)
      (by decide +kernel) (by decide +kernel) (by decide +kernel)⟩

end MiniRuby
