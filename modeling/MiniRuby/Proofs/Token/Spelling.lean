import MiniRuby.Integer
import MiniRuby.Proofs.Token.Named
import MiniRuby.Proofs.Token.Quoted

/-!
# How data are spelled

A datum has one spelling, and when the spelling is read, it gives the tokens of the datum, whatever
follows it (`Lexer.splits_spelling`), as long as that does not go on with a name or a number.
Where each token stands does not matter here, so texts are split into kinds of tokens only
(`Lexer.Splits`).
-/

namespace MiniRuby

namespace Datum

/-- How a datum is spelled. -/
def spelling : Datum → List Char
  | nil => ['n', 'i', 'l']
  | bool true => ['t', 'r', 'u', 'e']
  | bool false => ['f', 'a', 'l', 's', 'e']
  | int i => (Integer.text i).toList
  | sym name _ => ':' :: name.toList
  | str text _ => (Text.inspect text).toList
  | arr ds => '[' :: ([',', ' '].intercalate (ds.map spelling) ++ [']'])

/-- The tokens that a datum is read from. -/
def tokens : Datum → List TokenKind
  | nil => [.keyword .kNil]
  | bool true => [.keyword .kTrue]
  | bool false => [.keyword .kFalse]
  | int i =>
    if 0 ≤ i.toInt then [.num i.toInt.toNat] else [.punct .minus, .num (-i.toInt).toNat]
  | sym name _ => [.symbol name]
  | str text _ => [.str text]
  | arr ds =>
    .punct .lbracket :: ([.punct .comma].intercalate (ds.map tokens) ++ [.punct .rbracket])

end Datum

namespace Lexer

variable {text rest : List Char} {kinds : List TokenKind}

/-- Whether a text begins with tokens of certain kinds, after which `rest` is left. -/
def Splits (text : List Char) (kinds : List TokenKind) (rest : List Char) : Prop :=
  ∀ pos, ∃ pos' toks, toks.map Token.kind = kinds ∧
    tokensFrom pos false text = (tokensFrom pos' false rest).map (toks ++ ·)

theorem Splits.refl (text : List Char) : Splits text [] text := by
  refine fun pos => ⟨pos, [], rfl, ?_⟩
  cases tokensFrom pos false text <;> rfl

theorem Splits.trans {kinds' : List TokenKind} {rest' : List Char} (h : Splits text kinds rest)
    (h' : Splits rest kinds' rest') : Splits text (kinds ++ kinds') rest' := by
  intro pos
  obtain ⟨pos₁, toks, hk, hs⟩ := h pos
  obtain ⟨pos₂, toks', hk', hs'⟩ := h' pos₁
  refine ⟨pos₂, toks ++ toks', by rw [List.map_append, hk, hk'], ?_⟩
  rw [hs, hs']
  cases tokensFrom pos₂ false rest' with
  | error e => rfl
  | ok more => simp [Except.map]

theorem splits_gap {c : Char} (hc : isGap c = true) : Splits (c :: text) [] text :=
  fun pos => by simpa [tokensFrom_gap hc] using Splits.refl text (pos + 1)

/-- The characters that do not start a token between other ones. -/
def skipped : List Char := [' ', '\t', '\r', '\n', '\\', '#']

theorem not_mem_skipped {p : Char → Bool} {c : Char} (hc : p c = true)
    (hp : skipped.any p = false) : c ∉ skipped := by
  intro h
  exact List.any_eq_false.mp hp c h hc

/-- A token at the start, which takes up the characters before `rest`. -/
theorem splits_token {c : Char} {tail : List Char} {kind : TokenKind} (hc : c ∉ skipped)
    (hs : ∀ pos, scan pos c (tail ++ rest) = .ok (kind, tail.length)) :
    Splits (c :: (tail ++ rest)) [kind] rest := by
  simp only [skipped, List.mem_cons, List.not_mem_nil, or_false, not_or] at hc
  obtain ⟨hb, ht, hr, hn, hj, hx⟩ := hc
  refine fun pos => ⟨pos + 1 + tail.length, [⟨kind, ⟨pos, pos + tail.length⟩⟩], rfl, ?_⟩
  rw [tokensFrom_scan (by simp [isGap, hb, ht, hr]) hn (absurd · hj) hx, hs]
  simp [Except.bind]

/-- A mark that stands by itself. -/
theorem splits_mark {c : Char} {p : Punct} (hc : c ∉ skipped)
    (hs : ∀ pos, scan pos c rest = .ok (.punct p, 0)) : Splits (c :: rest) [.punct p] rest :=
  @splits_token rest c [] _ hc hs

/-! ### Constants and numbers -/

/-- The words that are spelled out of letters only. -/
theorem splits_word {c : Char} {tail : List Char} {word : Keyword}
    (hc : isNameStart c = true) (ht : nameTail tail = tail)
    (hw : Keyword.ofText? (String.ofList (c :: tail)) = some word) (hr : Stops rest) :
    Splits (c :: (tail ++ rest)) [.keyword word] rest := by
  refine splits_token (not_mem_skipped hc (by decide)) fun pos => ?_
  simp only [scan, hc, nameTail_append hr, ht, wordKind, hw]
  rfl

theorem numberTail_digits {ds : List Char} (h : ∀ c ∈ ds, c.isDigit = true) :
    numberTail false ds = ⟨ds, false, ds.length⟩ := by
  induction ds with
  | nil => rfl
  | cons c ds ih =>
      rw [numberTail.eq_def]
      simp [h c (.head _), ih fun c hc => h c (.tail _ hc)]

theorem natOfDigits_toDigits (n : Nat) : Decimal.natOfDigits (Nat.toDigits 10 n) = n := by
  rw [Decimal.natOfDigits, ← Nat.ofDigitChars_eq_foldl, Nat.ofDigitChars_ten_toDigits]

theorem isNameStart_digit {c : Char} (hc : c.isDigit = true) : isNameStart c = false := by
  have digits : ∀ n ≤ 57, 48 ≤ n → isNameStart (Char.ofNat n) = false := by decide
  rw [Char.isDigit_iff_toNat] at hc
  simpa using digits c.toNat hc.2 hc.1

theorem splits_digits {n : Nat} (hn : n ≤ maxNumber) (hr : Stops rest) :
    Splits (Nat.toDigits 10 n ++ rest) [.num n] rest := by
  have digits : ∀ c ∈ Nat.toDigits 10 n, c.isDigit = true := fun c =>
    Nat.isDigit_of_mem_toDigits (by decide) (by decide)
  have value := natOfDigits_toDigits n
  cases e : Nat.toDigits 10 n with
  | nil => exact (Nat.toDigits_ne_nil e).elim
  | cons c ds =>
      rw [e] at digits value
      have hc : c.isDigit = true := digits c (.head _)
      refine splits_token (not_mem_skipped hc (by decide)) fun pos => ?_
      have tail := numberTail_digits fun c hc => digits c (.tail _ hc)
      simp only [scan, isNameStart_digit hc, hc, scanNumber, numberTail_append hr, tail, value]
      simp [hn]

/-- A minus sign before a digit stands by itself. -/
theorem splits_minus (hd : ∀ c ∈ rest.head?, c.isDigit = true) :
    Splits ('-' :: rest) [.punct .minus] rest := by
  refine splits_mark (by decide) fun pos => ?_
  cases rest with
  | nil => rfl
  | cons c rest =>
      have at_ne : c ≠ '@' := by
        rintro rfl
        exact absurd (hd _ rfl) (by decide)
      have eq_ne : c ≠ '=' := by
        rintro rfl
        exact absurd (hd _ rfl) (by decide)
      have name : isMinusName (c :: rest) = false := by simp [isMinusName, at_ne]
      have mark : punct? '-' (c :: rest) = some (.minus, 0) := by simp [punct?, eq_ne]
      simp only [scan, name, mark]
      rfl

theorem splits_integer (i : Int64) (hr : Stops rest) :
    Splits ((Integer.text i).toList ++ rest) (Datum.int i).tokens rest := by
  have low := i.le_toInt
  have high := i.toInt_lt
  rw [Integer.text, Int.toString_eq_repr, Int.repr_eq_if, Datum.tokens]
  split
  · rw [Nat.toList_repr]
    exact splits_digits (by unfold maxNumber; omega) hr
  · have number := @splits_digits rest (-i.toInt).toNat (by unfold maxNumber; omega) hr
    have first : ∀ c ∈ (Nat.toDigits 10 (-i.toInt).toNat ++ rest).head?, c.isDigit = true := by
      intro c hc
      rw [List.head?_append_of_ne_nil _ Nat.toDigits_ne_nil] at hc
      exact Nat.isDigit_of_mem_toDigits (by decide) (by decide) (List.mem_of_mem_head? hc)
    rw [String.toList_append, Nat.toList_repr]
    exact (splits_minus first).trans number

/-! ### Strings and symbols -/

theorem splits_string {text : String} (h : Text.IsPlain text) :
    Splits ((Text.inspect text).toList ++ rest) [.str text] rest := by
  have e : (Text.inspect text).toList ++ rest =
      '"' :: ((text.toList.flatMap Text.inspectChar ++ ['"']) ++ rest) := by
    simp [Text.inspect]
  rw [e]
  refine splits_token (by decide) fun pos => ?_
  rw [List.append_assoc, List.singleton_append, scan_inspect, Text.reread_of_isPlain h,
    List.length_append, List.length_singleton]

theorem splits_symbol {name : String} (h : IsSymbolName name) (hr : Stops rest) :
    Splits (':' :: (name.toList ++ rest)) [.symbol name] rest := by
  obtain ⟨line, h⟩ := h
  refine splits_token (by decide) fun pos => ?_
  change scanSymbol pos _ = _
  simp [scanSymbol, symbolName?_of_isNamed (isNamed_of_symbolName? h) hr]

/-! ### Arrays -/

/-- Elements are read one after the other, with a comma and a blank between them. -/
theorem splits_elements {ds : List Datum}
    (hd : ∀ d ∈ ds, ∀ rest, Stops rest → Splits (d.spelling ++ rest) d.tokens rest)
    (hr : Stops rest) :
    Splits ([',', ' '].intercalate (ds.map Datum.spelling) ++ rest)
      ([.punct .comma].intercalate (ds.map Datum.tokens)) rest := by
  induction ds with
  | nil => exact Splits.refl rest
  | cons d ds ih =>
      have first := hd d (.head _)
      cases ds with
      | nil => simpa using first rest hr
      | cons d' ds =>
          have more := ih fun d h => hd d (.tail _ h)
          simp only [List.map_cons, List.intercalate_cons_cons, List.append_assoc] at more ⊢
          refine (first _ (stops_cons rfl)).trans ?_
          refine (splits_mark (p := .comma) (by decide) fun pos => rfl).trans ?_
          exact (splits_gap rfl).trans more

/-- **The spelling of a datum** gives its tokens. -/
theorem splits_spelling (d : Datum) (hr : Stops rest) :
    Splits (d.spelling ++ rest) d.tokens rest := by
  induction d generalizing rest with
  | nil =>
      rw [Datum.spelling, Datum.tokens]
      exact splits_word (by decide) (by decide) (by decide) hr
  | bool b =>
      cases b <;> rw [Datum.spelling, Datum.tokens] <;>
        exact splits_word (by decide) (by decide) (by decide) hr
  | int i =>
      rw [Datum.spelling]
      exact splits_integer i hr
  | sym name h =>
      rw [Datum.spelling, Datum.tokens]
      exact splits_symbol h hr
  | str text h =>
      rw [Datum.spelling, Datum.tokens]
      exact splits_string h
  | arr ds ih =>
      rw [Datum.spelling, Datum.tokens, List.cons_append, List.append_assoc]
      refine (splits_mark (p := .lbracket) (by decide) fun pos => rfl).trans ?_
      refine (splits_elements (fun d hd rest hr => ih d hd hr) (stops_cons rfl)).trans ?_
      exact splits_mark (by decide) fun pos => rfl

/-- So the tokens of a text that spells a datum are those of the datum, and the end of the text. -/
theorem tokenize_spelling (d : Datum) :
    ∃ toks, tokenize d.spelling = .ok toks ∧ toks.map Token.kind = d.tokens ++ [.eof] := by
  obtain ⟨pos, toks, hk, hs⟩ := splits_spelling d stops_nil 0
  rw [List.append_nil, tokensFrom] at hs
  exact ⟨_, hs, by simp [hk]⟩

end Lexer

end MiniRuby
