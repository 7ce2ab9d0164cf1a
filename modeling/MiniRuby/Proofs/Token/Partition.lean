import MiniRuby.Proofs.Token.Written

/-!
# Tokens partition the text

Each character of a text belongs to one token at most.  The tokens stand one after the other, the
last one, and no other, at the end of the text.  What is between them is left out for a reason: it
is blank, it joins two lines, or it stands in a comment.  Names and symbols are what stands in the
text, character by character.

* `LaidOut.pairwise`, `LaidOut.ending`: tokens that are laid out in a text are in order.
* `Lexer.Reads.placed`: where each character of a text belongs.
* `partition_of_tokenize`: the tokens of a text partition it.
-/

namespace MiniRuby

/-! ### What is between tokens -/

/-- Whether the character at a place belongs to a token. -/
def Token.Covers (t : Token) (i : Nat) : Prop := t.span.first ≤ i ∧ i ≤ t.span.last

/-- Whether the character at `i` is a blank, or a backslash that a line break follows. -/
def IsBlank (text : List Char) (i : Nat) : Prop :=
  text[i]? = some ' ' ∨ text[i]? = some '\t' ∨ text[i]? = some '\r' ∨ text[i]? = some '\n' ∨
    text[i]? = some '\\' ∧ text[i + 1]? = some '\n'

/-- Whether the characters from `first` up to but not including `stop` run from a hash to the end of
its line. -/
structure IsComment (text : List Char) (first stop : Nat) : Prop where
  hash : text[first]? = some '#'
  line : ∀ i, first ≤ i → i < stop → text[i]? ≠ some '\n'
  ending : stop = text.length ∨ text[stop]? = some '\n'

/-- Whether the character at `i` stands in a comment.  No token meets the comment, so the hash is
not one within a string. -/
def InComment (text : List Char) (tokens : List Token) (i : Nat) : Prop :=
  ∃ first stop, first ≤ i ∧ i < stop ∧ IsComment text first stop ∧
    ∀ t ∈ tokens, t.span.last < first ∨ stop ≤ t.span.first

/-- **How tokens partition a text.** -/
structure Partition (text : List Char) (tokens : List Token) : Prop where
  /-- The last token, and no other, is the end of the text.  Each other one stands in the text. -/
  ending : ∃ before, tokens = before ++ [⟨.eof, ⟨text.length, text.length⟩⟩] ∧ ∀ t ∈ before,
    t.kind ≠ .eof ∧ t.span.first ≤ t.span.last ∧ t.span.last < text.length
  /-- Each token ends before the next one starts. -/
  ordered : tokens.Pairwise fun t u => t.span.last < u.span.first
  /-- A line break token covers one line break. -/
  breaks : ∀ t ∈ tokens, t.kind = .lineTerm → t.chars text = ['\n']
  /-- Each character that no token covers is blank or stands in a comment. -/
  between : ∀ i < text.length, (∀ t ∈ tokens, ¬t.Covers i) →
    IsBlank text i ∨ InComment text tokens i
  /-- The characters that a name covers spell it. -/
  names : ∀ t ∈ tokens, ∀ s, t.kind = .ident s ∨ t.kind = .const s ∨ t.kind = .instanceVar s →
    t.chars text = s.toList
  /-- The characters that a symbol covers are a colon and its name. -/
  symbols : ∀ t ∈ tokens, ∀ s, t.kind = .symbol s → t.chars text = ':' :: s.toList

namespace LaidOut

variable {stop pos : Nat} {ts : List Token}

theorem le_first (h : LaidOut stop pos ts) : ∀ t ∈ ts, pos ≤ t.span.first := by
  induction h with
  | eof h => simpa [Span.point] using h
  | cons _ after holds _ _ ih =>
      exact List.forall_mem_cons.mpr ⟨after, fun t ht => by have := ih t ht; omega⟩

theorem pairwise (h : LaidOut stop pos ts) :
    ts.Pairwise fun t u => t.span.last < u.span.first := by
  induction h with
  | eof => exact List.pairwise_singleton _ _
  | cons _ _ _ _ h ih => exact List.pairwise_cons.mpr ⟨fun t ht => h.le_first t ht, ih⟩

theorem ending (h : LaidOut stop pos ts) :
    ∃ before, ts = before ++ [⟨.eof, ⟨stop, stop⟩⟩] ∧ ∀ t ∈ before,
      t.kind ≠ .eof ∧ t.span.first ≤ t.span.last ∧ t.span.last < stop := by
  induction h with
  | eof => exact ⟨[], rfl, by simp⟩
  | @cons pos t ts hk _ holds below _ ih =>
      obtain ⟨before, rfl, hb⟩ := ih
      refine ⟨t :: before, rfl, List.forall_mem_cons.mpr ⟨⟨?_, holds, below⟩, hb⟩⟩
      rintro he
      simp [he, TokenKind.isEof] at hk

end LaidOut

namespace Lexer

variable {pos : Nat} {broken : Bool} {text whole : List Char} {tokens : List Token}

/-- Where the character at `i` belongs: to a token, to the blanks, or to a comment that does not
begin before `pos`. -/
def Placed (whole : List Char) (tokens : List Token) (pos i : Nat) : Prop :=
  (∃ t ∈ tokens, t.Covers i) ∨ IsBlank whole i ∨ ∃ first stop, pos ≤ first ∧ first ≤ i ∧ i < stop ∧
    IsComment whole first stop ∧ ∀ t ∈ tokens, t.span.last < first ∨ stop ≤ t.span.first

theorem Placed.mono {pos' i : Nat} (h : Placed whole tokens pos' i) (hp : pos ≤ pos') :
    Placed whole tokens pos i := by
  obtain h | h | ⟨first, stop, hf, h⟩ := h
  · exact .inl h
  · exact .inr (.inl h)
  · exact .inr (.inr ⟨first, stop, hp.trans hf, h⟩)

theorem Placed.cons {t : Token} {i : Nat} (h : Placed whole tokens (t.span.last + 1) i)
    (hp : pos ≤ t.span.last + 1) : Placed whole (t :: tokens) pos i := by
  obtain ⟨u, hu, hc⟩ | h | ⟨first, stop, hf, hi, hs, hc, ht⟩ := h
  · exact .inl ⟨u, .tail _ hu, hc⟩
  · exact .inr (.inl h)
  · exact .inr (.inr ⟨first, stop, hp.trans hf, hi, hs, hc,
      List.forall_mem_cons.mpr ⟨.inl hf, ht⟩⟩)

theorem getElem?_of_drop {c : Char} (h : whole.drop pos = c :: text) : whole[pos]? = some c := by
  simpa using congrArg List.head? h

theorem isBlank_of_isGap {c : Char} {i : Nat} (hc : isGap c = true) (h : whole[i]? = some c) :
    IsBlank whole i := by
  simp only [isGap, Bool.or_eq_true, decide_eq_true_eq] at hc
  rcases hc with (rfl | rfl) | rfl
  · exact .inl h
  · exact .inr (.inl h)
  · exact .inr (.inr (.inl h))

theorem isBlank_of_break {i : Nat} (h : whole[i]? = some '\n') : IsBlank whole i :=
  .inr (.inr (.inr (.inl h)))

theorem isBlank_of_join (h : whole.drop pos = '\\' :: '\n' :: text) {i : Nat} (hp : pos ≤ i)
    (hi : i < pos + 2) : IsBlank whole i := by
  have brk := getElem?_of_drop (@drop_of_cons _ [] _ _ _ h)
  obtain rfl | rfl : i = pos ∨ i = pos + 1 := by omega
  · exact .inr (.inr (.inr (.inr ⟨getElem?_of_drop h, brk⟩)))
  · exact isBlank_of_break brk

theorem isComment_of_drop {line : List Char} (h : whole.drop pos = '#' :: (line ++ text))
    (hl : ∀ c ∈ line, c ≠ '\n') (ht : ∀ c ∈ text.head?, c = '\n') :
    IsComment whole pos (pos + 1 + line.length) where
  hash := getElem?_of_drop h
  line i hf hs hi := by
    rcases Nat.eq_or_lt_of_le hf with rfl | hf
    · rw [getElem?_of_drop h] at hi
      cases hi
    · obtain ⟨k, rfl⟩ := Nat.exists_eq_add_of_le hf
      have left : whole.drop (pos + 1) = line ++ text := @drop_of_cons _ [] _ _ _ h
      rw [← List.getElem?_drop, left, List.getElem?_append_left (by omega)] at hi
      exact hl _ (List.mem_of_getElem? hi) rfl
  ending := by
    have left := drop_of_cons h
    cases text with
    | nil =>
        have length := congrArg List.length h
        simp at length
        exact .inl (by omega)
    | cons c text =>
        obtain rfl := ht c rfl
        exact .inr (getElem?_of_drop left)

/-- **Where each character of a text belongs.** -/
theorem Reads.placed (h : Reads pos broken text tokens) : whole.drop pos = text →
    ∀ i, pos ≤ i → i < whole.length → Placed whole tokens pos i := by
  -- A character is among those that have just been read, or among those that are left.
  induction h with
  | nil pos broken =>
      intro hw i hp hi
      have := List.drop_eq_nil_iff.mp hw
      omega
  | @gap pos broken c text tokens hc _ ih =>
      intro hw i hp hi
      rcases Nat.eq_or_lt_of_le hp with rfl | hr
      · exact .inr (.inl (isBlank_of_isGap hc (getElem?_of_drop hw)))
      · exact (ih (@drop_of_cons _ [] _ _ _ hw) i hr hi).mono (Nat.le_succ pos)
  | @«break» pos text tokens _ ih =>
      intro hw i hp hi
      rcases Nat.eq_or_lt_of_le hp with rfl | hr
      · exact .inl ⟨_, .head _, Nat.le_refl _, Nat.le_refl _⟩
      · exact (ih (@drop_of_cons _ [] _ _ _ hw) i hr hi).cons (Nat.le_succ pos)
  | @breakAgain pos text tokens _ ih =>
      intro hw i hp hi
      rcases Nat.eq_or_lt_of_le hp with rfl | hr
      · exact .inr (.inl (isBlank_of_break (getElem?_of_drop hw)))
      · exact (ih (@drop_of_cons _ [] _ _ _ hw) i hr hi).mono (Nat.le_succ pos)
  | @join pos broken text tokens _ ih =>
      intro hw i hp hi
      rcases Nat.lt_or_ge i (pos + 2) with hr | hr
      · exact .inr (.inl (isBlank_of_join hw hp hr))
      · exact (ih (@drop_of_cons _ ['\n'] _ _ _ hw) i hr hi).mono (Nat.le_add_right pos 2)
  | @comment pos broken line text tokens hl ht h ih =>
      intro hw i hp hi
      rcases Nat.lt_or_ge i (pos + 1 + line.length) with hr | hr
      · exact .inr (.inr ⟨pos, _, Nat.le_refl pos, hp, hr, isComment_of_drop hw hl ht,
          fun t ht => .inr (h.laidOut.le_first t ht)⟩)
      · exact (ih (drop_of_cons hw) i hr hi).mono (by omega)
  | @token pos broken c tail text kind tokens hs _ ih =>
      intro hw i hp hi
      rcases Nat.lt_or_ge i (pos + 1 + tail.length) with hr | hr
      · exact .inl ⟨_, .head _, hp, by dsimp only; omega⟩
      · have later := ih (drop_of_cons hw) i hr hi
        rw [Nat.add_right_comm] at later
        exact later.cons (by dsimp only; omega)

end Lexer

/-- **The tokens of a text partition it.** -/
theorem partition_of_tokenize {text : List Char} {tokens : List Token}
    (h : tokenize text = .ok tokens) : Partition text tokens := by
  have reads := Lexer.reads_of_eq h
  have laid : LaidOut text.length 0 tokens := by simpa using reads.laidOut
  have chars := chars_of_tokenize h
  refine ⟨laid.ending, laid.pairwise, ?breaks, ?between, ?names, ?symbols⟩
  case breaks =>
    intro t ht hk
    have spelled := chars t ht
    rw [hk] at spelled
    rcases spelled with ⟨written, -⟩ | ⟨-, covered⟩ | h
    · cases written
    · exact covered
    · simp at h
  case between =>
    intro i hi free
    obtain ⟨t, ht, hc⟩ | blank | ⟨first, stop, -, comment⟩ :=
      reads.placed rfl i (Nat.zero_le i) hi
    · exact absurd hc (free t ht)
    · exact .inl blank
    · exact .inr ⟨first, stop, comment⟩
  case names =>
    intro t ht s hk
    rcases chars t ht with ⟨-, covered⟩ | h
    · rcases hk with hk | hk | hk <;> rw [covered, hk, TokenKind.spelling]
    · rcases hk with hk | hk | hk <;> simp [hk] at h
  case symbols =>
    intro t ht s hk
    rcases chars t ht with ⟨-, covered⟩ | h
    · rw [covered, hk, TokenKind.spelling]
    · simp [hk] at h

/-- A name with a mark, a comment, joined lines, and a symbol. -/
theorem partition_of_tokenize_comment : Partition "a! # '\n\\\n:b=".toList
    [⟨.ident "a!", ⟨0, 1⟩⟩, ⟨.lineTerm, ⟨6, 6⟩⟩, ⟨.symbol "b=", ⟨9, 11⟩⟩, ⟨.eof, ⟨12, 12⟩⟩] := by
  have read : tokenize "a! # '\n\\\n:b=".toList =
      .ok [⟨.ident "a!", ⟨0, 1⟩⟩, ⟨.lineTerm, ⟨6, 6⟩⟩, ⟨.symbol "b=", ⟨9, 11⟩⟩,
        ⟨.eof, ⟨12, 12⟩⟩] := by
    with_unfolding_all rfl
  exact partition_of_tokenize read

end MiniRuby
