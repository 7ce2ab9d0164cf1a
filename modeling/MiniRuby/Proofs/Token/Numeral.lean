import MiniRuby.Grammar.Call
import MiniRuby.Proofs.Token.Spelling

/-!
# How numbers are spelled

A whole number is a digit with further digits and underscores after it (`Numeral`).  Before a blank,
before the end of the text, and before a dot with a name after it, each number is one token, and so
is each name.

* `Lexer.splits_numeral`: the token of a number.
* `Lexer.splits_called`: the tokens of a dot and a name.
-/

namespace MiniRuby

/-- The spelling of a whole number. -/
structure Numeral where
  first : Char
  more : List Char
  isDigit_first : first.isDigit = true
  isDigit_more : ∀ c ∈ more, c.isDigit = true ∨ c = '_'

namespace Numeral

def chars (l : Numeral) : List Char := l.first :: l.more

/-- The number that is spelled; underscores are of no account. -/
def value (l : Numeral) : Nat := Decimal.natOfDigits (l.chars.filter Char.isDigit)

end Numeral

namespace Lexer

variable {rest : List Char}

/-- Whether a text is at its end, or goes on with a blank or with the call of a method. -/
def Ends (rest : List Char) : Prop :=
  rest = [] ∨ (∃ more, rest = ' ' :: more) ∨
    ∃ c more, isNameStart c = true ∧ rest = '.' :: c :: more

/-- The digits of a number are read, and then what follows them. -/
theorem numberTail_append_digits {ds : List Char} (hd : ∀ c ∈ ds, c.isDigit = true ∨ c = '_') :
    numberTail false (ds ++ rest) =
      ⟨ds.filter Char.isDigit ++ (numberTail false rest).text, (numberTail false rest).isFloat,
        ds.length + (numberTail false rest).length⟩ := by
  induction ds with
  | nil => simp
  | cons c ds ih =>
      rw [List.cons_append, numberTail.eq_def]
      have ih := ih fun c hc => hd c (.tail _ hc)
      rcases hd c (.head _) with hc | rfl
      · simp [hc, ih]
        omega
      · simp [ih]
        omega

theorem isDigit_of_isNameStart {c : Char} (hc : isNameStart c = true) : c.isDigit = false := by
  cases h : c.isDigit with
  | false => rfl
  | true =>
      rw [isNameStart_digit h] at hc
      cases hc

/-- No number goes on after its end. -/
theorem numberTail_ends (h : Ends rest) : numberTail false rest = ⟨[], false, 0⟩ := by
  rcases h with rfl | ⟨more, rfl⟩ | ⟨c, more, hc, rfl⟩
  · rfl
  · rw [numberTail.eq_def]
    rfl
  · rw [numberTail.eq_def]
    simp [startsDigit, isDigit_of_isNameStart hc, isExponentMark]

/-- **The token of a number.** -/
theorem splits_numeral (l : Numeral) (hl : l.value ≤ maxNumber) (hr : Ends rest) :
    Splits (l.chars ++ rest) [.num l.value] rest := by
  refine splits_token (not_mem_skipped l.isDigit_first (by decide)) fun pos => ?_
  have tail : numberTail false (l.more ++ rest) =
      ⟨l.more.filter Char.isDigit, false, l.more.length⟩ := by
    simp [numberTail_append_digits l.isDigit_more, numberTail_ends hr]
  have digits : l.first :: l.more.filter Char.isDigit = l.chars.filter Char.isDigit := by
    simp [Numeral.chars, l.isDigit_first]
  simp only [scan, isNameStart_digit l.isDigit_first, l.isDigit_first, scanNumber, tail, digits]
  change (if l.value ≤ maxNumber then _ else _) = _
  rw [if_pos hl]
  rfl

/-! ### Names -/

theorem nameMark_append_ends {mark : List Char} (hm : mark = [] ∨ mark = ['?'] ∨ mark = ['!'])
    (h : Ends rest) : nameMark (mark ++ rest) = mark := by
  rcases hm with rfl | rfl | rfl <;> rcases h with rfl | ⟨more, rfl⟩ | ⟨c, more, hc, rfl⟩ <;> rfl

/-- **The token of a name.** -/
theorem splits_name (w : Word) (hr : Ends rest) : Splits (w.chars ++ rest) [w.token] rest := by
  have start := w.isNameStart
  rw [Word.chars, List.cons_append]
  refine splits_token (not_mem_skipped start (by decide)) fun pos => ?_
  have stop : ∀ c ∈ rest.head?, isNameChar c = false := by
    rcases hr with rfl | ⟨more, rfl⟩ | ⟨c, more, hc, rfl⟩ <;> simp [isNameChar]
  have tail := nameTail_word w stop (nameMark_append_ends w.isMark hr)
  simp only [scan, start, tail]
  rfl

/-- **The tokens of a dot and a name.** -/
theorem splits_called (w : Word) (hr : Ends rest) :
    Splits ('.' :: (w.chars ++ rest)) [.punct .dot, w.token] rest :=
  (splits_mark (p := .dot) (by decide) fun pos => rfl).trans (splits_name w hr)

theorem ends_called (w : Word) : Ends ('.' :: (w.chars ++ rest)) :=
  .inr (.inr ⟨w.first, w.more ++ w.mark ++ rest, w.isNameStart, rfl⟩)

end Lexer

theorem Word.token_cases (w : Word) : (∃ k : Keyword, w.token = .keyword k ∧ k.text = w.text) ∨
    w.token = .const w.text ∨ w.token = .ident w.text := by
  unfold Word.token Lexer.wordKind
  cases e : Keyword.ofText? w.text with
  | some k => exact .inl ⟨k, rfl, by simpa using List.find?_some e⟩
  | none =>
      dsimp only
      split
      · exact .inr (.inl rfl)
      · exact .inr (.inr rfl)

/-- What a name is called by, it is looked up by. -/
theorem Parser.calledName_of_word {w : Word} {t : Token} (h : t.kind = w.token) :
    Parser.calledName t = Parser.intern w.text := by
  rw [Parser.calledName, h]
  rcases w.token_cases with ⟨k, hk, ht⟩ | hk | hk
  · rw [hk, ← ht]
  · rw [hk]
  · rw [hk]

end MiniRuby
