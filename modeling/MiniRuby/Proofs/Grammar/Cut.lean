import MiniRuby.Grammar.Program
import MiniRuby.Proofs.Token.Line

/-!
# Reading a program that is cut off

A program that is cut off after a line break is read like the whole program up to the cut.  From
there on the reader either stands at the end of the text, where it takes every word that it does
not find for absent, or it has met the end of the text where it needs a token, and then it says
that the text is incomplete.  It never rejects what it has read.

Both readings are followed together (`Parser.Trails`).  A reader is told apart by whether it may
be entered at the end of the text, and what it may answer there.

* `Parser.Trails.bind`: what follows an answer has to cope with the end of the text only if the
  answer can be given there.
* `Parser.copes_rule`: every rule copes with the end of the text.
-/

namespace MiniRuby

/-- Whether nothing but line breaks is left. -/
def AtEnd (tokens : List Token) : Prop :=
  ∃ last : Token, last.kind = .eof ∧ tokens.dropWhile (·.kind.isLineTerm) = [last]

namespace AtEnd

variable {tokens : List Token}

/-- The token at the cursor is a line break or the end of the text. -/
theorem cases (h : AtEnd tokens) : (∃ last : Token, last.kind = .eof ∧ tokens = [last]) ∨
    ∃ (brk : Token) (rest : List Token),
      brk.kind = .lineTerm ∧ AtEnd rest ∧ tokens = brk :: rest := by
  obtain ⟨last, he, h⟩ := h
  cases tokens with
  | nil => cases h
  | cons t rest =>
      rw [List.dropWhile_cons] at h
      split at h
      · rename_i ht
        refine .inr ⟨t, rest, ?_, ⟨last, he, h⟩, rfl⟩
        cases hk : t.kind <;> simp [hk, TokenKind.isLineTerm] at ht ⊢
      · cases h
        exact .inl ⟨_, he, rfl⟩

/-- The end of the text is all that is left. -/
theorem eof {last : Token} (h : last.kind = .eof) : AtEnd [last] :=
  ⟨last, h, by simp [h, TokenKind.isLineTerm]⟩

/-- Whatever skips line breaks but not the end of the text comes to the end of the text. -/
theorem dropWhile (h : AtEnd tokens) {p : Token → Bool}
    (hb : ∀ t : Token, t.kind = .lineTerm → p t = true)
    (he : ∀ t : Token, t.kind = .eof → p t = false) :
    ∃ last : Token, last.kind = .eof ∧ tokens.dropWhile p = [last] := by
  induction tokens with
  | nil =>
      obtain ⟨_, _, h⟩ := h
      cases h
  | cons t rest ih =>
      rcases h.cases with ⟨last, hlast, h⟩ | ⟨brk, rest', hbrk, hrest, h⟩
      · cases h
        exact ⟨t, hlast, by simp [he t hlast]⟩
      · cases h
        simpa [List.dropWhile_cons, hb t hbrk] using ih hrest

end AtEnd

namespace CutTokens

variable {ts us : List Token}

/-- Both rows start with the same token. -/
theorem head (h : CutTokens ts us) : ts.head? = us.head? := by
  cases h with
  | here => rfl
  | cons => rfl

/-- Skipping tokens comes to the same token in both rows, or to the end of the text that was cut
off. -/
theorem dropWhile (h : CutTokens ts us) {p : Token → Bool}
    (hb : ∀ t : Token, t.kind = .lineTerm → p t = true)
    (he : ∀ t : Token, t.kind = .eof → p t = false) :
    (∃ last : Token, last.kind = .eof ∧ us.dropWhile p = [last]) ∨
      ∃ t ts' us', CutTokens ts' us' ∧ ts.dropWhile p = t :: ts' ∧ us.dropWhile p = t :: us' ∧
        ts.takeWhile p = us.takeWhile p := by
  induction h with
  | @here brk last more hbrk hlast =>
      exact .inl ⟨last, hlast, by simp [hb brk hbrk, he last hlast]⟩
  | @cons ts us t h ih =>
      cases ht : p t with
      | true => simpa [List.dropWhile_cons, List.takeWhile_cons, ht] using ih
      | false => exact .inr ⟨t, ts, us, h, by simp [ht], by simp [ht], by simp [ht]⟩

end CutTokens

/-- Whether one cursor stands at the same place of a text that is cut off as another one of the
whole text. -/
structure Cursor.Cut (c d : Cursor) : Prop where
  tokens : CutTokens c.rest d.rest
  prev : c.prev = d.prev
  names : c.names = d.names
  bodies : c.bodies = d.bodies

namespace Parser

variable {α β : Type} {late late' : Prop} {Q Q' : α → Prop} {R : β → Prop}

/-- Whether reading a text that is cut off has come to its end: with an answer of a certain kind,
or with the error that the text is incomplete. -/
def Stops (Q : α → Prop) : Outcome Cursor SyntaxError α → Prop
  | .done a d => Q a ∧ AtEnd d.rest
  | .failed e _ => e.isIncomplete = true
  | .halted _ => True

/-- **Reading a text that is cut off.**  What `p` answers in the whole text, `q` answers in the text
that is cut off, unless it stops at its end.  If it may be `late`, it also stops there when it
starts there.  `Q` tells what `q` may answer at the end. -/
structure Trails (late : Prop) (Q : α → Prop) (p q : Parser α) : Prop where
  cut : ∀ {c d : Cursor}, c.Cut d → ∀ {a c'}, p c = .done a c' →
    (∃ d', q d = .done a d' ∧ c'.Cut d') ∨ Stops Q (q d)
  closes : late → ∀ {d : Cursor}, AtEnd d.rest → Stops Q (q d)

/-- Whether a reader copes with the end of the text, whatever it answers there. -/
abbrev Copes (p q : Parser α) : Prop := Trails True (fun _ => True) p q

/-- Whether a reader copes with the end of the text if it does not start there. -/
abbrev Stays (p q : Parser α) : Prop := Trails False (fun _ => True) p q

/-- Whether a reader does not come to the end of the text, if it does not start there. -/
abbrev Follows (p q : Parser α) : Prop := Trails False (fun _ => False) p q

namespace Trails

/-- Less may be said of what is answered at the end, and fewer cursors be late. -/
theorem mono {p q : Parser α} (h : Trails late Q p q) (hl : late' → late)
    (hQ : ∀ a, Q a → Q' a) : Trails late' Q' p q := by
  have weaken : ∀ {o : Outcome Cursor SyntaxError α}, Stops Q o → Stops Q' o := by
    intro o ho
    cases o with
    | done a d => exact ⟨hQ a ho.1, ho.2⟩
    | failed e d => exact ho
    | halted d => trivial
  exact ⟨fun hc _ _ hp => (h.cut hc hp).imp_right weaken, fun hl' _ hd =>
    weaken (h.closes (hl hl') hd)⟩

/-- A reader that copes with the end of the text may always be used. -/
theorem early {p q : Parser α} (h : Trails True Q p q) : Trails late Q p q :=
  h.mono (fun _ => trivial) fun _ => id

/-- A reader that is never late has not to cope with the end of the text. -/
theorem never {p q : Parser α} (hl : ¬late) (h : Trails False Q p q) : Trails late Q p q :=
  h.mono hl fun _ => id

/-- What is answered without reading is answered at the end, too. -/
theorem pure {a : α} (h : late → Q a) : Trails late Q (Pure.pure a) (Pure.pure a) where
  cut := by
    rintro c d hc _ _ ⟨⟩
    exact .inl ⟨d, rfl, hc⟩
  closes := fun hl _ hd => ⟨h hl, hd⟩

/-- An error leaves nothing to trail, if it does not come up at the end. -/
theorem failAt {cause : SyntaxCause} {place : Span} {q : Parser α} (h : ¬late) :
    Trails late Q (Parser.failAt cause place) q :=
  ⟨fun _ _ _ h => (nomatch h), fun hl => (h hl).elim⟩

/-- What follows an answer has to cope with the end of the text only if the answer can be given
there. -/
theorem bind {p q : Parser α} {f g : α → Parser β} (hp : Trails late Q p q)
    (hf : ∀ a, Trails (Q a) R (f a) (g a)) : Trails late R (p >>= f) (q >>= g) := by
  have stops : ∀ {d}, Stops Q (q d) → Stops R ((q >>= g) d) := by
    intro d h
    rw [Action.bind_apply]
    cases e : q d with
    | done a d₁ =>
        rw [e] at h
        exact (hf a).closes h.1 h.2
    | failed e' d₁ =>
        rw [e] at h
        exact h
    | halted d₁ => trivial
  refine ⟨fun {c d} hc b c' h => ?_, fun hl d hd => stops (hp.closes hl hd)⟩
  rw [Action.bind_apply] at h
  cases e : p c with
  | failed e' c₁ =>
      rw [e] at h
      cases h
  | halted c₁ =>
      rw [e] at h
      cases h
  | done a c₁ =>
      rw [e] at h
      rcases hp.cut hc e with ⟨d₁, hq, hcut⟩ | h'
      · rw [Action.bind_apply, hq]
        exact (hf a).cut hcut h
      · exact .inr (stops h')

/-- A choice that does not look at the tokens is made on both sides. -/
theorem ite {c : Prop} [Decidable c] {p p' q q' : Parser α} (h : Trails late Q p q)
    (h' : Trails late Q p' q') : Trails late Q (if c then p else p') (if c then q else q') := by
  split
  · exact h
  · exact h'

/-- A word or mark that may be there.  It is not there at the end of the text. -/
theorem eat {p q : Parser Bool} {x x' y y' : Parser β}
    (hp : Trails late (fun b => late' ∧ b = false) p q) (hx : Trails False R x x')
    (hy : Trails late' R y y') :
    Trails late R (p >>= fun b => if b then x else y) (q >>= fun b => if b then x' else y') := by
  refine hp.bind fun b => ?_
  cases b with
  | true => exact .never (fun h => nomatch h.2) hx
  | false => exact hy.mono And.left fun _ => id

/-- A statement that may end.  It ends at the end of the text. -/
theorem fork {p q : Parser Bool} {x x' y y' : Parser β}
    (hp : Trails late (fun b => b = true) p q) (hx : Trails True R x x')
    (hy : Trails False R y y') :
    Trails late R (p >>= fun b => if b then x else y) (q >>= fun b => if b then x' else y') := by
  refine hp.bind fun b => ?_
  cases b with
  | true => exact hx.early
  | false => exact .never nofun hy

theorem map {f : α → β} {p q : Parser α} (hp : Trails late Q p q) :
    Trails late (fun _ => True) (f <$> p) (f <$> q) :=
  hp.bind fun _ => pure fun _ => trivial

/-- What is seen of both cursors is the same. -/
theorem view {f : Cursor → α} (hf : ∀ c d, c.Cut d → f c = f d)
    (he : late → ∀ d : Cursor, AtEnd d.rest → Q (f d)) :
    Trails late Q (Action.view f) (Action.view f) where
  cut := by
    rintro c d hc _ _ ⟨⟩
    exact .inl ⟨d, by rw [hf c d hc]; rfl, hc⟩
  closes := fun hl d hd => ⟨he hl d hd, hd⟩

/-- What is seen of both cursors before the end of the text. -/
theorem see {f : Cursor → α} (hf : ∀ c d, c.Cut d → f c = f d) :
    Trails False (fun _ => False) (Action.view f) (Action.view f) :=
  .view hf False.elim

/-- A change that leaves the tokens alone is made on both sides. -/
theorem update {f : Cursor → Cursor} (hf : ∀ c d, c.Cut d → (f c).Cut (f d))
    (he : ∀ d, (f d).rest = d.rest) :
    Trails late (fun _ => late) (Action.update f) (Action.update f) where
  cut := by
    rintro c d hc _ _ ⟨⟩
    exact .inl ⟨f d, rfl, hf c d hc⟩
  closes := fun hl d hd => ⟨hl, (he d).symm ▸ hd⟩

/-- A body is opened and closed on both sides. -/
theorem within {p q : Parser α} (kind : BodyKind) (hp : Trails late (fun _ => True) p q) :
    Trails late (fun _ => True) (Parser.within kind p) (Parser.within kind q) := by
  refine .bind (.update (fun c d hc => ?_) fun _ => rfl) fun _ => hp.bind fun a =>
    .bind (.update (fun c d hc => ?_) fun _ => rfl) fun _ => .pure id
  · exact ⟨hc.tokens, hc.prev, hc.names, by simp [hc.bodies]⟩
  · exact ⟨hc.tokens, hc.prev, hc.names, by simp [hc.bodies]⟩

/-- A reader that halts in the text that is cut off has not rejected it. -/
theorem halt {p : Parser α} : Trails late Q p Action.exhaust :=
  ⟨fun _ _ _ _ => .inr trivial, fun _ _ _ => trivial⟩

/-- A reader that halts in the whole text has no answer there. -/
theorem ofHalt {p q : Parser α} (h : Trails late Q p q) : Trails late Q Action.exhaust q :=
  ⟨fun _ _ _ h => (nomatch h), h.closes⟩

/-- One round of a chain. -/
theorem round {step step' : α → Parser (Option α)} {next next' : α → Parser α}
    (hs : ∀ a, Copes (step a) (step' a)) (hn : ∀ b, Copes (next b) (next' b)) (a : α) :
    Copes
      (step a >>= fun r => match r with
        | some b => next b
        | none => Pure.pure a)
      (step' a >>= fun r => match r with
        | some b => next' b
        | none => Pure.pure a) := by
  refine (hs a).bind fun r => ?_
  cases r with
  | none => exact pure id
  | some b => exact hn b

/-- A chain whose steps cope with the end of the text does so too.  The two chains have different
bounds. -/
theorem chain {step step' : α → Parser (Option α)} {a : α}
    (hs : ∀ a, Copes (step a) (step' a)) :
    Copes (Parser.chain step a) (Parser.chain step' a) := by
  have all : ∀ us ts a, Copes (iterate step ts a) (iterate step' us a) := by
    intro us
    induction us with
    | nil =>
        intro ts
        cases ts with
        | nil => exact round hs fun _ => halt
        | cons t ts => exact round hs fun _ => halt
    | cons u us ih =>
        intro ts
        cases ts with
        | nil => exact round hs fun b => (ih [] b).ofHalt
        | cons t ts => exact round hs (ih ts)
  exact ⟨fun {c d} hc _ _ => (all d.rest c.rest a).cut hc, fun _ {d} hd =>
    (all d.rest [] a).closes trivial hd⟩

end Trails

end Parser

/-! ### Cursors -/

namespace Cursor

variable {c d : Cursor}

/-- At the end the cursor stands at a line break or at the end of the text. -/
theorem current_of_atEnd (h : AtEnd d.rest) :
    d.current.kind = .lineTerm ∨ d.current.kind = .eof := by
  rcases h.cases with ⟨last, hlast, h⟩ | ⟨brk, rest, hbrk, -, h⟩
  · exact .inr (by simp [Cursor.current, h, hlast])
  · exact .inl (by simp [Cursor.current, h, hbrk])

/-- Cursors at the same place see the same token. -/
theorem Cut.current (h : c.Cut d) : c.current = d.current := by
  simp only [Cursor.current, List.headD_eq_head?_getD, h.tokens.head]

theorem Cut.hasGap (h : c.Cut d) : c.hasGap = d.hasGap := by
  simp only [Cursor.hasGap, h.current, h.prev]

theorem Cut.opensCall (h : c.Cut d) : c.opensCall = d.opensCall := by
  simp only [Cursor.opensCall, h.current, h.hasGap]

/-- A line break is where the texts part, so the token after the next is the same in both unless
the next one is a line break. -/
theorem Cut.second (h : c.Cut d) : d.current.kind = .lineTerm ∨
    c.hasGapAfter = d.hasGapAfter ∧ ∀ p, c.isSecond p = d.isSecond p := by
  obtain ⟨rest, prev, names, bodies⟩ := c
  obtain ⟨rest', prev', names', bodies'⟩ := d
  cases h.tokens with
  | here hb he => exact .inl hb
  | cons t tail =>
      refine .inr ?_
      cases tail with
      | here => exact ⟨rfl, fun _ => rfl⟩
      | cons => exact ⟨rfl, fun _ => rfl⟩

end Cursor

/-! ### Tokens -/

namespace Parser

variable {late : Prop}

theorem trails_current : Trails late
    (fun t => late ∧ (t.kind = .lineTerm ∨ t.kind = .eof)) current current :=
  .view (fun _ _ h => h.current) fun hl _ hd => ⟨hl, Cursor.current_of_atEnd hd⟩

theorem trails_prevSpan : Trails late (fun _ => late) prevSpan prevSpan :=
  .view (fun _ _ h => h.prev) fun hl _ _ => hl

theorem trails_intern (name : String) :
    Trails late (fun _ => late) (intern name) (intern name) where
  cut := by
    rintro c d hc _ _ ⟨⟩
    refine .inl ⟨{ d with names := (d.names.intern name).2 }, ?_, hc.tokens, hc.prev, ?_, hc.bodies⟩
    · change Outcome.done (d.names.intern name).1 _ = .done (c.names.intern name).1 _
      rw [hc.names]
    · change (c.names.intern name).2 = (d.names.intern name).2
      rw [hc.names]
  closes := fun hl _ hd => ⟨hl, hd⟩

theorem trails_declare (name : NameId) :
    Trails late (fun _ => late) (declare name) (declare name) := by
  refine .update (fun c d hc => ?_) fun d => ?_
  · unfold Cursor.declare Cursor.isLocal
    rw [hc.bodies]
    split
    · exact hc
    · split
      · exact ⟨hc.tokens, hc.prev, hc.names, rfl⟩
      · exact hc
  · unfold Cursor.declare
    split
    · rfl
    · split <;> rfl

/-- Line breaks are skipped before a token. -/
theorem significant_cut {c d : Cursor} (h : c.Cut d) :
    (∃ last : Token, last.kind = .eof ∧ d.significant = [last]) ∨
      ∃ t ts us, CutTokens ts us ∧ c.significant = t :: ts ∧ d.significant = t :: us := by
  rcases h.tokens.dropWhile (p := (·.kind.isLineTerm)) (by simp +contextual [TokenKind.isLineTerm])
      (by simp +contextual [TokenKind.isLineTerm]) with hlast | ⟨t, ts, us, htail, hc, hd, -⟩
  · exact .inl hlast
  · exact .inr ⟨t, ts, us, htail, hc, hd⟩

/-- Where nothing is left, taking a token stops. -/
theorem stops_take {d : Cursor} {last : Token} (hlast : last.kind = .eof)
    (h : d.significant = [last]) : Stops (fun _ => False) (take d) := by
  simp [take, h, hlast, TokenKind.isEof, Stops, SyntaxError.isIncomplete]

/-- **Taking a token** takes the same one, or stops at the end. -/
theorem trails_take : Trails True (fun _ => False) take take where
  cut := by
    intro c d hc t c' h
    rcases significant_cut hc with ⟨last, hlast, hd⟩ | ⟨u, ts, us, htail, hsc, hsd⟩
    · exact .inr (stops_take hlast hd)
    · simp only [take, hsc] at h
      split at h
      · cases h
      · rename_i hu
        cases h
        exact .inl ⟨{ d with rest := us, prev := t.span }, by simp [take, hsd, hu],
          ⟨htail, rfl, hc.names, hc.bodies⟩⟩
  closes := by
    rintro - d ⟨last, hlast, hd⟩
    exact stops_take hlast hd

/-- What is ahead at the end is the end of the text. -/
theorem trails_ahead : Trails True (fun t => t.kind = .eof) (Action.view Cursor.ahead)
    (Action.view Cursor.ahead) where
  cut := by
    rintro c d hc _ _ ⟨⟩
    rcases significant_cut hc with ⟨last, hlast, hd⟩ | ⟨u, ts, us, htail, hsc, hsd⟩
    · exact .inr ⟨by simp [Cursor.ahead, hd, hlast], last, hlast, hd⟩
    · exact .inl ⟨d, by simp [Action.view, Cursor.ahead, hsc, hsd], hc⟩
  closes := by
    rintro - d ⟨last, hlast, hd⟩
    exact ⟨by simp [Cursor.ahead, Cursor.significant, hd, hlast], last, hlast, hd⟩

/-- At the end no punctuation is ahead. -/
theorem trails_eatPunct (p : Punct) :
    Trails True (fun b => True ∧ b = false) (eatPunct p) (eatPunct p) :=
  trails_ahead.bind fun _ => .ite (trails_take.bind fun _ => .pure False.elim).early
    (.pure fun _ => ⟨trivial, rfl⟩)

theorem trails_eatKeyword (w : Keyword) :
    Trails True (fun b => True ∧ b = false) (eatKeyword w) (eatKeyword w) :=
  trails_ahead.bind fun _ => .ite (trails_take.bind fun _ => .pure False.elim).early
    (.pure fun _ => ⟨trivial, rfl⟩)

theorem trails_eatPunctHere (p : Punct) :
    Trails late (fun b => late ∧ b = false) (eatPunctHere p) (eatPunctHere p) :=
  trails_current.bind fun _ => .ite (trails_take.bind fun _ => .pure False.elim).early
    (.pure fun h => ⟨h.1, rfl⟩)

/-- A token at the cursor that is not a line break is taken in both texts. -/
theorem advance_cut {c d : Cursor} (h : c.Cut d) (hb : d.current.kind ≠ .lineTerm)
    (he : d.current.kind.isEof = false) :
    ∃ c' d', advance c = .done () c' ∧ advance d = .done () d' ∧ c'.Cut d' := by
  obtain ⟨rest, prev, names, bodies⟩ := c
  obtain ⟨rest', prev', names', bodies'⟩ := d
  cases h.tokens with
  | here hbrk _ => exact absurd hbrk hb
  | @cons ts us t tail =>
      have ht : t.kind.isEof = false := he
      exact ⟨⟨ts, t.span, names, bodies⟩, ⟨us, t.span, names', bodies'⟩, by simp [advance, ht],
        by simp [advance, ht], tail, rfl, h.names, h.bodies⟩

/-- What is read from a token on that is no line break: it may be taken first. -/
inductive TrailsPast {β : Type} (R : β → Prop) : Parser β → Parser β → Prop where
  | before {p q : Parser β} (h : Trails False R p q) : TrailsPast R p q
  | after {p q : Parser β} (h : Trails False R p q) :
      TrailsPast R (advance >>= fun _ => p) (advance >>= fun _ => q)

/-- From a token on that both texts have, one reader trails the other. -/
theorem TrailsPast.cut {β : Type} {R : β → Prop} {p q : Parser β} (h : TrailsPast R p q)
    {c d : Cursor} (hc : c.Cut d) (hb : d.current.kind ≠ .lineTerm)
    (he : d.current.kind.isEof = false) {b : β} {c' : Cursor} (hp : p c = .done b c') :
    (∃ d', q d = .done b d' ∧ c'.Cut d') ∨ Stops R (q d) := by
  cases h with
  | before h => exact h.cut hc hp
  | after h =>
      obtain ⟨c₁, d₁, hc₁, hd₁, hcut⟩ := advance_cut hc hb he
      rw [Action.bind_apply, hc₁] at hp
      rw [Action.bind_apply, hd₁]
      exact h.cut hcut hp

/-- A choice by the token at the cursor. -/
theorem trails_byCurrent {β : Type} {R : β → Prop} {f g : Token → Parser β}
    (hend : ∀ t : Token, t.kind = .lineTerm ∨ t.kind = .eof → Trails late R (f t) (g t))
    (hf : ∀ t : Token, t.kind ≠ .lineTerm → t.kind.isEof = false → TrailsPast R (f t) (g t)) :
    Trails late R (current >>= f) (current >>= g) where
  cut := by
    intro c d hc b c' h
    change f c.current c = .done b c' at h
    rw [hc.current] at h
    by_cases hb : d.current.kind = .lineTerm
    · exact (hend _ (.inl hb)).cut hc h
    by_cases he : d.current.kind = .eof
    · exact (hend _ (.inr he)).cut hc h
    · refine (hf d.current hb ?_).cut hc hb ?_ h <;>
        cases hk : d.current.kind <;> first | rfl | exact absurd hk he
  closes := fun hl d hd => (hend _ (Cursor.current_of_atEnd hd)).closes hl hd

theorem trails_eatKeywordHere (w : Keyword) :
    Trails late (fun b => late ∧ b = false) (eatKeywordHere w) (eatKeywordHere w) := by
  refine trails_byCurrent (fun t ht => ?_) fun t _ _ => ?_
  · rw [if_neg (by rcases ht with ht | ht <;> simp [ht, TokenKind.isKeyword])]
    exact .pure fun hl => ⟨hl, rfl⟩
  · split
    · exact .after (.pure False.elim)
    · exact .before (.pure False.elim)

theorem trails_eatAssignOp :
    Trails late (fun r => late ∧ r = none) eatAssignOp eatAssignOp := by
  refine trails_byCurrent (fun t ht => ?_) fun t _ _ => ?_
  · rcases ht with ht | ht <;> simp only [ht] <;> exact .pure fun hl => ⟨hl, rfl⟩
  · split
    · exact .after (.pure False.elim)
    · exact .before (.pure False.elim)

/-- A line break separates statements. -/
theorem isSeparator_lineTerm (t : Token) (h : t.kind = .lineTerm) : isSeparator t = true := by
  simp [isSeparator, h, TokenKind.isTerm, TokenKind.isEof]

theorem isSeparator_eof (t : Token) (h : t.kind = .eof) : isSeparator t = false := by
  simp [isSeparator, h, TokenKind.isEof]

/-- A statement may end at the end of the text. -/
theorem trails_eatTerms : Trails True (fun b => b = true) eatTerms eatTerms where
  cut := by
    intro c d hc b c' h
    by_cases ht : d.current.kind.isTerm = true
    · rcases hc.tokens.dropWhile isSeparator_lineTerm isSeparator_eof with
        ⟨last, hlast, hd⟩ | ⟨t, ts, us, htail, hsc, hsd, hw⟩
      · refine .inr ?_
        simp only [eatTerms, ht, if_true]
        exact ⟨rfl, hd ▸ .eof hlast⟩
      · simp only [eatTerms, hc.current, ht, if_true] at h ⊢
        cases h
        refine .inl ⟨_, rfl, ?_, ?_, hc.names, hc.bodies⟩
        · change CutTokens (c.rest.dropWhile isSeparator) (d.rest.dropWhile isSeparator)
          rw [hsc, hsd]
          exact .cons t htail
        · simp only [hw, hc.prev]
    · simp only [eatTerms, hc.current, ht] at h ⊢
      cases h
      exact .inl ⟨d, rfl, hc⟩
  closes := by
    intro _ d hd
    have ht : d.current.kind.isTerm = true := by
      rcases Cursor.current_of_atEnd hd with h | h <;> simp [h, TokenKind.isTerm]
    obtain ⟨last, hlast, hdrop⟩ := hd.dropWhile isSeparator_lineTerm isSeparator_eof
    simp only [eatTerms, ht, if_true]
    exact ⟨rfl, hdrop ▸ .eof hlast⟩

/-- A keyword that is required at the end is what the text lacks. -/
theorem trails_expectKeyword (w : Keyword) :
    Trails True (fun _ => False) (expectKeyword w) (expectKeyword w) :=
  trails_take.bind fun _ => .ite (.pure id) (.failAt id)

theorem trails_expectPunct (p : Punct) :
    Trails True (fun _ => False) (expectPunct p) (expectPunct p) :=
  trails_take.bind fun _ => .ite (.pure id) (.failAt id)

theorem trails_expectIdent : Trails True (fun _ => False) expectIdent expectIdent := by
  refine trails_take.bind fun t => ?_
  split
  · exact trails_intern _
  · exact .failAt id

/-! ### Calls

`rules` read the whole text and `rules'` the text that is cut off. -/

variable {rules rules' : Rules} (hr : ∀ r, Copes (rules r) (rules' r))

include hr

theorem copes_argsUntil (close : Punct) :
    Copes (argsUntil rules close) (argsUntil rules' close) := by
  refine .bind (.chain fun (args, more) => .ite (.pure fun _ => trivial) ?_) fun _ => .pure id
  refine .eat (trails_eatPunct close) (.pure False.elim) ((hr .arg).bind fun arg => ?_)
  refine .eat (trails_eatPunct .comma) (.pure False.elim) ?_
  exact (trails_expectPunct close).bind fun _ => .pure False.elim

theorem copes_commandArgs : Copes (commandArgs rules) (commandArgs rules') := by
  refine .bind (.chain fun (args, more) => .ite (.pure fun _ => trivial) ?_) fun _ => .pure id
  exact (hr .arg).bind fun arg => (trails_eatPunctHere .comma).bind fun _ => .pure fun _ => trivial

omit hr in
/-- Whether arguments follow is seen at the cursor. -/
theorem startsCommand_cut {c d : Cursor} (h : c.Cut d) : startsCommand c = startsCommand d := by
  unfold startsCommand
  rw [h.current, h.hasGap]
  rcases h.second with hb | ⟨hg, -⟩
  · simp [hb]
  · rw [hg]

omit hr in
theorem follows_operatorName (p : Punct) : Follows (operatorName p) (operatorName p) := by
  unfold operatorName
  refine .ite (.eat (trails_eatPunctHere .rbracket) ?_ ?_) ?_
  · refine .bind (.see fun _ _ h => h.hasGap) fun _ => .ite ?_ (.pure id)
    exact .eat (trails_eatPunctHere .assign) (.pure id) (.pure id)
  · exact trails_current.bind fun _ => .failAt And.left
  · split
    · exact trails_intern _
    · exact trails_prevSpan.bind fun _ => .failAt id

omit hr in
/-- The name behind a dot has been taken before it is looked at, so both texts have it. -/
theorem follows_calledName (t : Token) : Follows (calledName t) (calledName t) := by
  unfold calledName
  split
  · exact trails_intern _
  · exact trails_intern _
  · exact trails_intern _
  · exact follows_operatorName _
  · exact .failAt id

omit hr in
theorem trails_methodName : Trails True (fun _ => False) methodName methodName :=
  trails_take.bind fun t => (follows_calledName t).bind fun _ => trails_prevSpan.bind fun _ =>
    .pure id

theorem stays_callArgs : Stays (callArgs rules) (callArgs rules') := by
  refine .bind (.see fun _ _ h => h.opensCall) fun _ => .ite ?_ ?_
  · exact (trails_take.bind fun _ => (copes_argsUntil hr .rparen).early).early
  · exact .bind (.see fun _ _ h => startsCommand_cut h) fun _ =>
      .ite (copes_commandArgs hr).early (.pure False.elim)

theorem copes_methodCall (receiver : Node) :
    Copes (methodCall rules receiver) (methodCall rules' receiver) :=
  trails_methodName.bind fun _ => (stays_callArgs hr).bind fun _ => trails_prevSpan.bind fun _ =>
    .pure id

theorem copes_indexing (receiver : Node) :
    Copes (indexing rules receiver) (indexing rules' receiver) :=
  trails_take.bind fun _ => (copes_argsUntil hr .rbracket).early.bind fun _ =>
    trails_prevSpan.bind fun _ => .pure id

theorem copes_chained (node : Node) : Copes (chained rules node) (chained rules' node) := by
  refine .chain fun node => .eat (trails_eatPunct .dot) (copes_methodCall hr node).early.map ?_
  refine .eat (.view (fun _ _ h => by rw [h.current, h.hasGap]) fun _ d hd => ⟨trivial, ?_⟩)
    (copes_indexing hr node).early.map (.pure id)
  rcases Cursor.current_of_atEnd hd with h | h <;> simp [h, TokenKind.isPunct]

theorem copes_functionCall (name : NameId) (place : Span) :
    Copes (functionCall rules name place) (functionCall rules' name place) :=
  trails_take.bind fun _ => (copes_argsUntil hr .rparen).early.bind fun _ =>
    trails_prevSpan.bind fun _ => .pure id

/-- An identifier may be the last word of the text that is cut off. -/
theorem stays_identifier (text : String) (place : Span) :
    Stays (identifier rules text place) (identifier rules' text place) := by
  refine (trails_intern text).bind fun name => .bind (.see fun _ _ h => h.opensCall) fun _ => ?_
  refine .ite (copes_functionCall hr name place).early ?_
  refine .bind (.see fun _ _ h => by simp only [Cursor.isLocal, h.bodies]) fun _ => ?_
  refine .ite (.pure False.elim) (.bind (.see fun _ _ h => startsCommand_cut h) fun _ => ?_)
  exact .ite ((copes_commandArgs hr).early.bind fun _ => .pure id) (.pure False.elim)

theorem stays_constant (text : String) (place : Span) :
    Stays (constant rules text place) (constant rules' text place) :=
  (trails_intern text).bind fun name => .bind (.see fun _ _ h => h.opensCall) fun _ =>
    .ite (copes_functionCall hr name place).early (.pure False.elim)

/-! ### Blocks -/

omit hr in
theorem copes_opening (w : Keyword) : Copes (opening w) (opening w) := by
  refine .fork trails_eatTerms ?_ ((trails_expectKeyword w).mono False.elim fun _ _ => trivial)
  exact (trails_eatKeyword w).bind fun _ => .pure fun _ => trivial

theorem copes_elseBranch : Copes (elseBranch rules) (elseBranch rules') :=
  .eat (trails_eatKeyword .kElse) (hr .stmts).early
    (trails_current.bind fun _ => .pure fun _ => trivial)

theorem copes_otherBranch : Copes (otherBranch rules) (otherBranch rules') :=
  .eat (trails_eatKeyword .kElsif) (trails_prevSpan.bind fun _ => (hr _).early)
    (copes_elseBranch hr)

theorem copes_branches (place : Span) : Copes (branches rules place) (branches rules' place) :=
  (hr .expr).bind fun _ => (copes_opening .kThen).bind fun _ => (hr .stmts).bind fun _ =>
    (copes_otherBranch hr).bind fun _ => .pure id

theorem copes_unlessBlock (place : Span) :
    Copes (unlessBlock rules place) (unlessBlock rules' place) :=
  (hr .expr).bind fun _ => (copes_opening .kThen).bind fun _ => (hr .stmts).bind fun _ =>
    (copes_elseBranch hr).bind fun _ => (trails_expectKeyword .kEnd).bind fun _ =>
      .pure False.elim

theorem copes_whileBlock (place : Span) :
    Copes (whileBlock rules place) (whileBlock rules' place) :=
  (hr .expr).bind fun _ => (copes_opening .kDo).bind fun _ => (hr .stmts).bind fun _ =>
    (trails_expectKeyword .kEnd).bind fun _ => trails_prevSpan.bind fun _ => .pure False.elim

theorem stays_jumpValue (place : Span) :
    Stays (jumpValue rules place) (jumpValue rules' place) :=
  trails_current.bind fun _ => .ite (.pure fun _ => trivial) (hr .arg).early

theorem stays_rescueClasses : Stays (rescueClasses rules) (rescueClasses rules') :=
  trails_current.bind fun _ => .ite (.pure fun _ => trivial) (copes_commandArgs hr).early

omit hr in
theorem copes_rescueBinder : Copes rescueBinder rescueBinder := by
  refine .eat (trails_eatPunctHere .arrow) (trails_expectIdent.early.bind fun name => ?_) (.pure id)
  exact (trails_declare name).bind fun _ => .pure False.elim

theorem copes_rescueClause : Copes (rescueClause rules) (rescueClause rules') := by
  refine .fork trails_eatTerms ((hr .stmts).bind fun _ => .pure id) ?_
  exact (stays_rescueClasses hr).bind fun _ => copes_rescueBinder.bind fun _ =>
    (copes_opening .kThen).bind fun _ => (hr .stmts).bind fun _ => .pure id

theorem copes_rescueClauses : Copes (rescueClauses rules) (rescueClauses rules') :=
  .chain fun _ => .eat (trails_eatKeyword .kRescue)
    ((copes_rescueClause hr).early.bind fun _ => .pure id) (.pure id)

theorem copes_otherwiseClause (rescued : Bool) :
    Copes (otherwiseClause rules rescued) (otherwiseClause rules' rescued) :=
  .eat (trails_eatKeyword .kElse)
    (.ite (hr .stmts).early.map (trails_prevSpan.bind fun _ => .failAt id)) (.pure id)

theorem copes_ensureClause : Copes (ensureClause rules) (ensureClause rules') :=
  .eat (trails_eatKeyword .kEnsure) (hr .stmts).early.map (.pure id)

/-- A body with its clauses may end with the text, as its `end` is not read here. -/
theorem copes_guardedBody : Copes (guardedBody rules) (guardedBody rules') :=
  (hr .stmts).bind fun _ => (copes_rescueClauses hr).bind fun _ =>
    (copes_otherwiseClause hr _).bind fun _ => (copes_ensureClause hr).bind fun _ =>
      .ite (.pure id) (trails_prevSpan.bind fun _ => .pure id)

theorem copes_beginBlock (place : Span) :
    Copes (beginBlock rules place) (beginBlock rules' place) := by
  refine (copes_guardedBody hr).bind fun node => (trails_expectKeyword .kEnd).bind fun _ => ?_
  split
  · exact .pure False.elim
  · exact trails_prevSpan.bind fun _ => .pure False.elim

/-! ### Definitions -/

omit hr in
theorem follows_setterName (text : String) : Follows (setterName text) (setterName text) := by
  refine .bind (.see fun _ _ h => by rw [h.current, h.hasGap]) fun _ => .ite ?_ (trails_intern text)
  exact trails_take.early.bind fun _ => trails_intern _

omit hr in
theorem follows_definedName (t : Token) : Follows (definedName t) (definedName t) := by
  unfold definedName
  split
  · exact follows_setterName _
  · exact follows_setterName _
  · exact follows_setterName _
  · exact follows_operatorName _
  · exact .failAt id

theorem copes_param (params : List (Param Node)) :
    Copes (param rules params) (param rules' params) := by
  refine trails_current.bind fun t => trails_expectIdent.early.bind fun name => ?_
  refine .ite (.failAt id) ((trails_declare name).bind fun _ => ?_)
  refine .eat (trails_eatPunctHere .assign) ((hr .arg).early.bind fun _ => .pure id) ?_
  exact .ite (.failAt id) (.pure False.elim)

theorem copes_someParams : Copes (someParams rules) (someParams rules') := by
  refine .bind (.chain fun (params, more) => .ite (.pure id) ?_) fun _ => .pure id
  exact (copes_param hr params).bind fun _ => (trails_eatPunct .comma).bind fun _ =>
    .pure fun _ => trivial

/-- Parameters without brackets may end with the text. -/
theorem stays_anyParams : Stays (anyParams rules) (anyParams rules') := by
  refine .eat (trails_eatPunctHere .lparen) (.eat (trails_eatPunct .rparen).early ?_ ?_) ?_
  · exact .pure False.elim
  · exact (copes_someParams hr).bind fun _ => (trails_expectPunct .rparen).bind fun _ =>
      .pure False.elim
  · refine trails_current.bind fun t => ?_
    split
    · exact (copes_someParams hr).early
    · exact .pure fun _ => trivial

theorem copes_paramList : Copes (paramList rules) (paramList rules') :=
  .fork trails_eatTerms (.pure id)
    ((stays_anyParams hr).bind fun _ => trails_eatTerms.bind fun _ => .pure fun _ => trivial)

omit hr in
theorem follows_definitionTarget (t : Token) :
    Follows (definitionTarget t) (definitionTarget t) := by
  unfold definitionTarget
  refine trails_current.bind fun cur => ?_
  dsimp only
  split
  · exact .pure And.left
  · exact .ite ((trails_intern _).bind fun _ => .pure And.left) (.pure And.left)
  · exact .pure And.left

omit hr in
theorem follows_definitionName (t : Token) (target? : Option Node) :
    Follows (definitionName t target?) (definitionName t target?) := by
  cases target? with
  | some target =>
      exact trails_take.early.bind fun _ => trails_take.early.bind fun t' => follows_definedName t'
  | none => exact follows_definedName t

theorem copes_methodParts : Copes (methodParts rules) (methodParts rules') :=
  (copes_paramList hr).bind fun _ => (copes_guardedBody hr).bind fun _ => .pure id

/-- **A definition** that is cut off lacks its `end`. -/
theorem copes_methodDefinition (place : Span) :
    Copes (methodDefinition rules place) (methodDefinition rules' place) := by
  refine trails_take.bind fun t => (follows_definitionTarget t).bind fun target? =>
    (follows_definitionName t target?).bind fun _ => ?_
  refine (Trails.within .methodBody (copes_methodParts hr)).early.bind fun _ =>
    (trails_expectKeyword .kEnd).bind fun _ => trails_prevSpan.bind fun _ => ?_
  cases target? with
  | some target => exact .pure False.elim
  | none => exact .pure False.elim

omit hr in
theorem follows_className (t : Token) : Follows (className t) (className t) := by
  unfold className
  split
  · exact trails_intern _
  · exact .failAt id

theorem stays_classParent : Stays (classParent rules) (classParent rules') :=
  .eat (trails_eatPunctHere .less) (hr .expr).early.map (.pure False.elim)

theorem copes_classDefinition (place : Span) :
    Copes (classDefinition rules place) (classDefinition rules' place) :=
  trails_take.bind fun t => (follows_className t).bind fun _ => (stays_classParent hr).bind fun _ =>
    trails_eatTerms.bind fun _ => (Trails.within .classBody (copes_guardedBody hr)).early.bind
      fun _ => (trails_expectKeyword .kEnd).bind fun _ => trails_prevSpan.bind fun _ =>
        .pure False.elim

/-! ### Operands -/

/-- **Every primary** copes with the end of the text. -/
theorem copes_primary : Copes (primary rules) (primary rules') := by
  unfold primary
  refine trails_take.bind fun t => ?_
  dsimp only
  split
  · exact stays_identifier hr _ _
  · exact (trails_intern _).map
  · exact stays_constant hr _ _
  · exact .ite (.pure False.elim) (.failAt id)
  · exact .pure False.elim
  · exact .pure False.elim
  · exact (trails_intern _).map
  · exact (hr .stmts).early.bind fun _ => (trails_expectPunct .rparen).bind fun _ =>
      .pure False.elim
  · exact (copes_argsUntil hr .rbracket).early.bind fun _ => trails_prevSpan.bind fun _ => .pure id
  · split
    · exact .pure False.elim
    · exact .pure False.elim
    · exact .pure False.elim
    · exact .pure False.elim
    · exact (copes_branches hr _).early.bind fun _ => (trails_expectKeyword .kEnd).bind fun _ =>
        .pure False.elim
    · exact (copes_unlessBlock hr _).early
    · exact (copes_whileBlock hr _).early
    · exact (copes_methodDefinition hr _).early
    · refine .bind (.see fun _ _ h => by simp only [Cursor.inMethod, h.bodies]) fun _ => ?_
      exact .ite (.failAt id) (copes_classDefinition hr _).early
    · exact (copes_beginBlock hr _).early
    · exact (stays_jumpValue hr _).map
    · exact (stays_jumpValue hr _).map
    · exact (stays_jumpValue hr _).map
    · exact .failAt id
  · exact .failAt id

theorem copes_unary : Copes (unary rules) (unary rules') :=
  .eat (trails_eatPunct .bang) (trails_prevSpan.bind fun _ => (hr .unary).early.map)
    ((copes_primary hr).bind fun node => copes_chained hr node)

omit hr in
theorem trails_infixCall (p : Punct) (left right : Node) :
    Trails late (fun _ => late) (infixCall p left right) (infixCall p left right) :=
  (trails_intern _).bind fun _ => .pure id

theorem copes_power : Copes (power rules) (power rules') :=
  (copes_unary hr).bind fun left => .eat (trails_eatPunctHere .power)
    ((hr .signed).early.bind fun right => trails_infixCall .power left right) (.pure id)

omit hr in
theorem follows_signedNumber (place : Span) :
    Follows (signedNumber? place) (signedNumber? place) := by
  refine trails_byCurrent (fun t ht => ?_) fun t _ _ => ?_
  · rcases ht with ht | ht <;> simp only [ht] <;> exact .pure id
  · dsimp only
    split
    · split
      · exact .after (.pure id)
      · exact .before (.failAt id)
    · exact .after (.pure id)
    · exact .before (.pure id)

omit hr in
/-- Only a line break hides the token after it, and a line break is no number. -/
theorem follows_signedLiteral (place : Span) :
    Follows (signedLiteral? place) (signedLiteral? place) := by
  refine ⟨fun {c d} hc b c' h => ?_, False.elim⟩
  rcases hc.second with hb | ⟨-, hs⟩
  · have none : ∀ {e : Cursor}, e.current.kind = .lineTerm →
        signedLiteral? place e = .done none e := by
      intro e he
      by_cases hs : e.isSecond .power = true <;> simp [signedLiteral?, signedNumber?,
        Action.bind_apply, Action.view, current, Action.pure_apply, hs, he]
    rw [none (hc.current ▸ hb)] at h
    cases h
    exact .inl ⟨d, none hb, hc⟩
  · have same : ∀ second : Bool, Follows (if second then pure none else signedNumber? place)
        (if second then pure none else signedNumber? place) := fun _ =>
      .ite (.pure id) (follows_signedNumber place)
    change (if c.isSecond .power = true then pure none else signedNumber? place : Parser _) c =
      .done b c' at h
    rw [hs] at h
    exact (same (d.isSecond .power)).cut hc h

theorem copes_signed : Copes (signed rules) (signed rules') := by
  refine .eat (trails_eatPunct .minus) (trails_prevSpan.bind fun place => ?_) (copes_power hr)
  refine (follows_signedLiteral place).bind fun literal? => ?_
  cases literal? with
  | some literal => exact (copes_chained hr literal).early
  | none => exact (hr .signed).early.bind fun _ => .pure id

/-! ### Operators -/

omit hr in
theorem trails_eatOperator (level : Level) :
    Trails late (fun r => late ∧ r = none) (eatOperator level) (eatOperator level) := by
  refine trails_current.bind fun t => ?_
  split
  · exact .ite (trails_take.bind fun _ => .pure False.elim).early (.pure fun h => ⟨h.1, rfl⟩)
  · exact .pure fun h => ⟨h.1, rfl⟩

omit hr in
theorem trails_join (level : Level) (p : Punct) (left right : Node) :
    Trails late (fun _ => late) (level.join p left right) (level.join p left right) := by
  unfold Level.join
  split
  · exact .pure id
  · exact .pure id
  · exact trails_infixCall p left right

omit hr in
theorem copes_extend (level : Level) {operand operand' : Parser Node}
    (ho : Copes operand operand') (left : Node) :
    Copes (level.extend operand left) (level.extend operand' left) := by
  refine (trails_eatOperator level).bind fun r => ?_
  cases r with
  | none => exact .pure fun _ => trivial
  | some p => exact ho.early.bind fun right => (trails_join level p left right).map

/-- **Operators** cope with it behind an operand, and stop there before one. -/
theorem copes_operation (levels : List Level) :
    Copes (operation rules levels) (operation rules' levels) := by
  induction levels with
  | nil => exact copes_signed hr
  | cons level tighter ih =>
      refine ih.bind fun left => ?_
      split
      · refine (copes_extend level ih left).bind fun r => ?_
        cases r with
        | none => exact .pure id
        | some node => exact .pure id
      · exact .chain fun node => copes_extend level ih node

omit hr in
/-- A target is checked without reading on. -/
theorem follows_checkTarget (target : Node) :
    Follows (checkTarget target) (checkTarget target) := by
  cases target with
  | ident place name => exact trails_declare name
  | instanceVar => exact .pure id
  | const =>
      refine .bind (.see fun _ _ h => by simp only [Cursor.inMethod, h.bodies]) fun _ => ?_
      exact .ite (.failAt id) (.pure id)
  | send place receiver? name args =>
      cases receiver? with
      | some receiver => exact .ite (.pure id) (.failAt id)
      | none => exact .failAt id
  | _ => exact .failAt id

/-- **An assignment** that is cut off before its value is incomplete. -/
theorem copes_assignment : Copes (assignment rules) (assignment rules') := by
  refine (copes_operation hr levels).bind fun left => .eat (trails_eatPunctHere .assign) ?_ ?_
  · exact (follows_checkTarget left).bind fun _ => (hr .arg).early.bind fun _ => .pure id
  · refine trails_eatAssignOp.bind fun r => ?_
    cases r with
    | none => exact .pure fun _ => trivial
    | some op =>
        refine .never (fun h => nomatch h.2) ?_
        exact (follows_checkTarget left).bind fun _ => (hr .arg).early.bind fun _ =>
          (trails_intern _).bind fun _ => .pure id

/-! ### Statements -/

theorem copes_expression : Copes (expression rules) (expression rules') :=
  .eat (trails_eatKeyword .kNot) (trails_prevSpan.bind fun _ => (hr .expr).early.map)
    (copes_assignment hr)

theorem copes_statement : Copes (statement rules) (statement rules') := by
  refine (copes_expression hr).bind fun node => .chain fun node => ?_
  refine .eat (trails_eatKeywordHere .kIf) ?_ (.eat (trails_eatKeywordHere .kUnless) ?_
    (.eat (trails_eatKeywordHere .kWhile) ?_ (.pure id)))
  · exact trails_prevSpan.bind fun _ => (hr .expr).early.bind fun _ => .pure id
  · exact trails_prevSpan.bind fun _ => (hr .expr).early.bind fun _ => .pure id
  · exact trails_prevSpan.bind fun _ => (hr .expr).early.bind fun _ => .pure id

/-- **Statements** may end with the text, as what closes their body is not theirs to read. -/
theorem copes_statements : Copes (statements rules) (statements rules') := by
  refine trails_eatTerms.bind fun _ => trails_current.bind fun _ => ?_
  refine Trails.bind (Trails.chain fun (body, more) => .ite (.pure id) ?_).early fun _ => .pure id
  refine trails_ahead.bind fun _ => .ite (.pure fun _ => trivial) ?_
  exact (copes_statement hr).early.bind fun _ => trails_eatTerms.bind fun _ =>
    .pure fun _ => trivial

/-- **All rules** cope with the end of the text if their parts do. -/
theorem copes_ofRule (r : Rule) : Copes (ofRule rules r) (ofRule rules' r) := by
  cases r with
  | stmts => exact copes_statements hr
  | expr => exact copes_expression hr
  | arg => exact copes_assignment hr
  | signed => exact copes_signed hr
  | unary => exact copes_unary hr
  | branch place => exact copes_branches hr place

omit hr in
/-- **A rule copes with the end of the text**, whatever the fuel of the two readings. -/
theorem copes_rule (fuel fuel' : Nat) (r : Rule) : Copes (rule fuel r) (rule fuel' r) := by
  induction fuel' generalizing fuel r with
  | zero => exact .halt
  | succ fuel' ih =>
      cases fuel with
      | zero => exact (copes_ofRule (ih 0) r).ofHalt
      | succ fuel => exact copes_ofRule (ih fuel) r

omit hr in
/-- A whole program copes with it, whatever the fuel is on both sides. -/
theorem copes_program (fuel fuel' : Nat) : Copes (program fuel) (program fuel') := by
  refine (copes_rule fuel fuel' .stmts).bind fun node => trails_ahead.bind fun t => ?_
  split
  · exact .pure fun _ => trivial
  · rename_i ht
    exact .failAt fun he => ht (by simp [he, TokenKind.isEof])

end Parser

end MiniRuby
