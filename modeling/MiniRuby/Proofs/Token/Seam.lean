import MiniRuby.Proofs.Grammar.Continue
import MiniRuby.Proofs.Syntax.Alike
import MiniRuby.Proofs.Token.Reads

/-!
# Texts one after the other

Since no token goes on over the end of a line, unless it is a string, the tokens of a text stay the
same when further lines follow it.  And those of the further lines are the same as they are alone,
only later; a line break before them may be taken as one with the line break at the seam.

* `Lexer.Reads.seam`: the tokens of a text that further lines follow.
* `Lexer.Reads.joined`: the tokens of two texts, the one written below the other.
-/

namespace MiniRuby

/-- The token that stands `n` characters later. -/
def Token.shift (n : Nat) (t : Token) : Token := ⟨t.kind, t.span.shift n⟩

/-- How the tokens of a text are those of its first lines and of the further ones.  If the first
lines hold no tokens and a line break has been met before them, they leave nothing behind. -/
def Sewn (broken : Bool) (more tokens whole : List Token) : Prop :=
  (∃ brk : Token, brk.kind = .lineTerm ∧ Prolonged (brk :: more) tokens whole) ∨
    broken = true ∧ whole = more ∧ ∃ last : Token, last.kind = .eof ∧ tokens = [last]

theorem Sewn.cons {broken broken' : Bool} {more tokens whole : List Token} {t : Token}
    (h : Sewn broken more tokens whole) (ht : t.kind.isEof = false)
    (hb : broken = true → t.kind = .lineTerm) : Sewn broken' more (t :: tokens) (t :: whole) := by
  rcases h with ⟨brk, hbrk, h⟩ | ⟨rfl, rfl, last, hl, rfl⟩
  · exact .inl ⟨brk, hbrk, .cons t ht h⟩
  · exact .inl ⟨t, hb rfl, .brk hl (hb rfl) rfl⟩

namespace Lexer.Reads

variable {pos stop : Nat} {broken : Bool} {text rest : List Char} {tokens more : List Token}

/-- **The tokens of a text that further lines follow.** -/
theorem seam (h : Reads pos broken text tokens) (hs : pos + text.length + 1 = stop)
    (hm : Reads stop true rest more) :
    ∃ whole, Reads pos broken (text ++ '\n' :: rest) whole ∧ Sewn broken more tokens whole := by
  induction h with
  | nil pos broken =>
      obtain rfl : pos + 1 = stop := by simpa using hs
      cases broken with
      | false =>
          have stop : Prolonged (⟨.lineTerm, .point pos⟩ :: more) [⟨.eof, .point pos⟩]
              (⟨.lineTerm, .point pos⟩ :: more) :=
            @Prolonged.eof _ _ ⟨.lineTerm, .point pos⟩ more rfl rfl rfl rfl
          exact ⟨_, .break hm, .inl ⟨⟨.lineTerm, .point pos⟩, rfl, stop⟩⟩
      | true => exact ⟨_, .breakAgain hm, .inr ⟨rfl, rfl, _, rfl, rfl⟩⟩
  | gap hc _ ih =>
      obtain ⟨whole, read, sewn⟩ := ih (by rw [← hs, List.length_cons]; omega)
      exact ⟨whole, .gap hc read, sewn⟩
  | «break» _ ih =>
      obtain ⟨whole, read, sewn⟩ := ih (by rw [← hs, List.length_cons]; omega)
      exact ⟨_, .break read, sewn.cons rfl fun _ => rfl⟩
  | breakAgain _ ih =>
      obtain ⟨whole, read, sewn⟩ := ih (by rw [← hs, List.length_cons]; omega)
      exact ⟨whole, .breakAgain read, sewn⟩
  | join _ ih =>
      obtain ⟨whole, read, sewn⟩ := ih (by rw [← hs, List.length_cons, List.length_cons]; omega)
      exact ⟨whole, .join read, sewn⟩
  | @comment pos broken line text tokens hl ht _ ih =>
      obtain ⟨whole, read, sewn⟩ := ih (by rw [← hs, List.length_cons, List.length_append]; omega)
      refine ⟨whole, ?_, sewn.imp_right fun h => nomatch h.1⟩
      rw [List.cons_append, List.append_assoc]
      refine .comment hl ?_ read
      cases text with
      | nil => simp
      | cons c text => simpa using ht
  | @token pos broken c tail text kind tokens hs' _ ih =>
      obtain ⟨whole, read, sewn⟩ := ih (by rw [← hs, List.length_cons, List.length_append]; omega)
      refine ⟨_, ?_, sewn.cons (anywhere_scan _ _ _ hs').1 nofun⟩
      rw [List.cons_append, List.append_assoc]
      refine .token ?_ read
      rw [← List.append_assoc]
      exact (scan_append hs').2 rest

/-- **The tokens of further lines** are those of the lines alone, later in the text. -/
theorem shift (h : Reads pos broken text tokens) (n : Nat) :
    Reads (pos + n) broken text (tokens.map (Token.shift n)) := by
  induction h with
  | nil pos broken => exact .nil (pos + n) broken
  | @gap pos _ _ _ _ hc _ ih => exact .gap hc (Nat.add_right_comm pos 1 n ▸ ih)
  | @«break» pos _ _ _ ih => exact .break (Nat.add_right_comm pos 1 n ▸ ih)
  | @breakAgain pos _ _ _ ih => exact .breakAgain (Nat.add_right_comm pos 1 n ▸ ih)
  | @join pos _ _ _ _ ih => exact .join (Nat.add_right_comm pos 2 n ▸ ih)
  | @comment pos _ line _ _ hl ht _ ih =>
      refine .comment hl ht ?_
      rwa [show pos + n + 1 + line.length = pos + 1 + line.length + n by omega]
  | @token pos broken c tail text kind tokens hs _ ih =>
      have next : Reads (pos + n + 1 + tail.length) false text (tokens.map (Token.shift n)) := by
        rwa [show pos + n + 1 + tail.length = pos + 1 + tail.length + n by omega]
      have read := @Reads.token (pos + n) broken c tail text kind _
        ((anywhere_scan _ _ _ hs).2 (pos + n)) next
      rwa [show pos + n + tail.length = pos + tail.length + n by omega] at read

/-- After a line break, a line break at the start is not read again. -/
theorem afterBreak (h : Reads pos broken text tokens) :
    ∃ more, Reads pos true text more ∧
      (tokens = more ∨ ∃ brk : Token, brk.kind = .lineTerm ∧ tokens = brk :: more) := by
  induction h with
  | nil pos broken => exact ⟨_, .nil pos true, .inl rfl⟩
  | gap hc _ ih =>
      obtain ⟨more, read, same⟩ := ih
      exact ⟨more, .gap hc read, same⟩
  | «break» h => exact ⟨_, .breakAgain h, .inr ⟨_, rfl, rfl⟩⟩
  | breakAgain h => exact ⟨_, .breakAgain h, .inl rfl⟩
  | join _ ih =>
      obtain ⟨more, read, same⟩ := ih
      exact ⟨more, .join read, same⟩
  | comment hl ht h => exact ⟨_, .comment hl ht h, .inl rfl⟩
  | token hs h => exact ⟨_, .token hs h, .inl rfl⟩

/-- **The tokens of two texts**, the one written below the other: those of the first text go on with
a line break and those of the second one, line breaks at the seam aside. -/
theorem joined {lines : List Token} (h : Reads 0 false text tokens)
    (hl : Reads 0 false rest lines) :
    ∃ (whole : List Token) (brk : Token) (more : List Token),
      Reads 0 false (text ++ '\n' :: rest) whole ∧ brk.kind = .lineTerm ∧
      Prolonged (brk :: more) tokens whole ∧
      ∀ p : Token → Bool, (∀ t, t.kind = .lineTerm → p t = true) →
        more.dropWhile p = (lines.map (Token.shift (text.length + 1))).dropWhile p := by
  have later := hl.shift (text.length + 1)
  rw [Nat.zero_add] at later
  obtain ⟨more, read, same⟩ := later.afterBreak
  obtain ⟨whole, hwhole, sewn⟩ := h.seam (by rw [Nat.zero_add]) read
  rcases sewn with ⟨brk, hb, prolonged⟩ | ⟨⟨⟩, -⟩
  refine ⟨whole, brk, more, hwhole, hb, prolonged, fun p hp => ?_⟩
  rcases same with same | ⟨first, hf, same⟩
  · rw [same]
  · rw [same, List.dropWhile_cons_of_pos (hp first hf)]

end Lexer.Reads

end MiniRuby
