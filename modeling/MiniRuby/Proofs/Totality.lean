import MiniRuby.Proofs.Grammar.Moves
import MiniRuby.Proofs.Token.Reads

/-!
# Every text can be read

Reading a text comes to an end, with a tree or with an error, and on its way it never leaves the
text: the tokens are found one after the other, each in characters of its own, and the cursor moves
forward over them and stops before the token that marks the end.

* `reading_total`: what is true of the reading of every text.
-/

namespace MiniRuby

open MiniRuby.Parser

theorem Rules.Move.leads {n : Nat} {rules : Rules} (hr : rules.Move n) (r : Rule) (c : Cursor) :
    c.Leads (rules r c).state := by
  have none : NameId → Prop := fun _ => False
  cases r with
  | stmts => exact (hr.stmts (N := none)).leads c
  | expr => exact (hr.expr (N := none)).leads c
  | arg => exact (hr.arg (N := none)).leads c
  | signed => exact (hr.signed (N := none)).leads c
  | unary => exact (hr.unary (N := none)).leads c
  | branch place => exact (hr.branch place (N := none)).leads c

/-- **Every text can be read.**  There is an error in a token, or the tokens are laid out in the
text and reading them gives a tree or an error, with the cursor at one of them.  Whatever rule is
at work, the cursor does not move back and the end of the text is not taken, and each round of a
loop takes a token. -/
theorem reading_total (text : List Char) (names : NameTable) (locals : List NameId) :
    ((∃ e, tokenize text = .error e) ∨ ∃ tokens c, tokenize text = .ok tokens ∧
      LaidOut text.length 0 tokens ∧ c.rest <:+ tokens ∧ c.Ended ∧
      ((∃ node, parseTokens tokens names locals = .done node c) ∨
        ∃ e, parseTokens tokens names locals = .failed e c)) ∧
    (∀ fuel r (c : Cursor), c.Ended →
      (rule fuel r c).state.rest <:+ c.rest ∧ (rule fuel r c).state.Ended) ∧
    ∀ fuel {α : Type} {step : α → Parser (Option α)}, Loop (rule fuel) step →
      ∀ a b c c', step a c = .done (some b) c' → c'.rest.length < c.rest.length := by
  refine ⟨?_, fun fuel r c hc => ?_, fun fuel α step hl a b c c' h => ?_⟩
  · cases ht : tokenize text with
    | error e => exact .inl ⟨e, rfl⟩
    | ok tokens =>
        have laid : LaidOut text.length 0 tokens := by
          simpa using (Lexer.reads_of_eq ht).laidOut
        have ended : (Cursor.start tokens names locals).Ended := ⟨_, laid.getLast?, rfl⟩
        have leads := (moves_program (tokens.length + 1) (N := fun _ => False)).leads
          (Cursor.start tokens names locals)
        refine .inr ⟨tokens, _, rfl, laid, leads.rest, leads.ended ended, ?_⟩
        change (∃ node, parseTokens tokens names locals =
            .done node (parseTokens tokens names locals).state) ∨
          ∃ e, parseTokens tokens names locals = .failed e (parseTokens tokens names locals).state
        cases hp : parseTokens tokens names locals with
        | done node c => exact .inl ⟨node, rfl⟩
        | failed e c => exact .inr ⟨e, rfl⟩
        | halted c => exact (parseTokens_ne_halted tokens names locals c hp).elim
  · have leads := (moves_rule fuel).leads r c
    exact ⟨leads.rest, leads.ended hc⟩
  · exact hl.shrinks (moves_rule fuel) a b c c' h

end MiniRuby
