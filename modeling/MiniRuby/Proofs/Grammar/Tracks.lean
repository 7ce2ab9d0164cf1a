import MiniRuby.Proofs.Grammar.Moves
import MiniRuby.Proofs.Syntax.Alike
import Mathlib.Data.List.TakeWhile

/-!
# Two readings of the same tokens

The same tokens are read at two places of a text, perhaps with another table of names and other
local variables known.  As long as the names correspond, and the same of the words that are read are
known as local variables, both readings go side by side, and their trees are alike.

Two readers are followed together (`Parser.Tracks`), from cursors that stand at the same token
(`Cursor.Along`).  Since the tables of names grow on the way, what corresponds does so in certain
tables and in all later ones.

* `Parser.Tracks.bind`: what follows an answer may rely on what corresponds in both answers.
* `Parser.tracks_rule`: every rule reads the same tokens in the same way, whatever fuel it has.
-/

namespace MiniRuby

/-! ### Names -/

/-- The tables of names of two readings. -/
structure Tables where
  left : NameTable
  right : NameTable

namespace Tables

/-- Both tables have grown. -/
instance : Preorder Tables where
  le w w' := w.left.Extends w'.left ∧ w.right.Extends w'.right
  le_refl _ := ⟨.refl _, .refl _⟩
  le_trans _ _ _ h₁ h₂ := ⟨h₁.1.trans h₂.1, h₁.2.trans h₂.2⟩

/-- The same name is looked up in both tables. -/
def intern (w : Tables) (name : String) : Tables :=
  ⟨(w.left.intern name).2, (w.right.intern name).2⟩

/-- Looking up a text in both tables forgets no name. -/
theorem le_intern (w : Tables) (name : String) : w ≤ w.intern name :=
  ⟨w.left.extends_intern name, w.right.extends_intern name⟩

end Tables

/-- How the names of two readings correspond, and their local variables.  The words are the
identifiers that may be read. -/
structure Naming where
  valid : Tables → Prop
  likeness : Tables → Likeness
  locals : Tables → List NameId → List NameId → Prop
  words : String → Prop
  mono {w w' : Tables} (h : w ≤ w') : likeness w ≤ likeness w'
  same_of_word {w : Tables} {x y : NameId} (h : (likeness w).word x y) : (likeness w).same x y
  eq_iff {w : Tables} {x x' y y' : NameId} (hw : valid w) (h : (likeness w).same x y)
    (h' : (likeness w).same x' y') : x = x' ↔ y = y'
  subscript {w : Tables} (hw : valid w) : (likeness w).same NameId.subscript NameId.subscript
  subscriptAssign {w : Tables} (hw : valid w) :
    (likeness w).same NameId.subscriptAssign NameId.subscriptAssign
  minus {w : Tables} (hw : valid w) : (likeness w).same NameId.minus NameId.minus
  valid_intern {w : Tables} (name : String) (hw : valid w) : valid (w.intern name)
  same_intern {w : Tables} (name : String) (hw : valid w) :
    (likeness (w.intern name)).same (w.left.intern name).1 (w.right.intern name).1
  word_intern {w : Tables} (name : String) (hw : valid w) (h : words name) :
    (likeness (w.intern name)).word (w.left.intern name).1 (w.right.intern name).1
  locals_mono {w w' : Tables} (h : w ≤ w') {xs ys : List NameId} (hl : locals w xs ys) :
    locals w' xs ys
  locals_nil (w : Tables) : locals w [] []
  locals_cons {w : Tables} {x y : NameId} {xs ys : List NameId} (h : (likeness w).word x y)
    (hl : locals w xs ys) : locals w (x :: xs) (y :: ys)
  mem_locals {w : Tables} {x y : NameId} {xs ys : List NameId} (hw : valid w)
    (hl : locals w xs ys) (h : (likeness w).word x y) : x ∈ xs ↔ y ∈ ys

/-- The same names in the same table. -/
def Naming.same : Naming where
  valid w := w.left = w.right
  likeness _ := ⟨Eq, Eq⟩
  locals _ := Eq
  words _ := True
  mono _ := Likeness.le_refl _
  same_of_word := id
  eq_iff _ h h' := by rw [h, h']
  subscript _ := rfl
  subscriptAssign _ := rfl
  minus _ := rfl
  valid_intern name hw := by rw [Tables.intern, hw]
  same_intern name hw := by rw [hw]
  word_intern name hw _ := by rw [hw]
  locals_mono _ := id
  locals_nil _ := rfl
  locals_cons h hl := by rw [h, hl]
  mem_locals _ hl h := by rw [hl, h]

/-- The same names in the same table, and the same local variables in whatever order. -/
def Naming.members : Naming where
  __ := Naming.same
  locals _ xs ys := ∀ name, name ∈ xs ↔ name ∈ ys
  locals_mono _ _ _ hl := hl
  locals_nil _ _ := Iff.rfl
  locals_cons h hl name := by rw [List.mem_cons, List.mem_cons, hl name, show _ = _ from h]
  mem_locals _ hl h := by rw [hl, show _ = _ from h]

/-! ### Cursors -/

/-- The same token, `n` characters later. -/
structure Token.Later (N : Naming) (n : Nat) (t t' : Token) : Prop where
  kind : t'.kind = t.kind
  span : t'.span = t.span.shift n
  word : ∀ name, t.kind = .ident name → N.words name

namespace Cursor

variable {N : Naming} {n : Nat} {b : Bool} {c d : Cursor}

/-- The tables of names of two cursors. -/
abbrev both (c d : Cursor) : Tables := ⟨c.names, d.names⟩

/-- Whether two cursors stand at the same token.  `b` tells whether the token taken last is the
same, too. -/
structure Along (N : Naming) (n : Nat) (b : Bool) (c d : Cursor) : Prop where
  rest : List.Forall₂ (Token.Later N n) c.rest d.rest
  ended : n = 0 ∨ c.Ended
  prev : b = true → d.prev = c.prev.shift n
  valid : N.valid (c.both d)
  bodies : List.Forall₂ (fun x y : Body => y.kind = x.kind ∧ N.locals (c.both d) x.locals y.locals)
    c.bodies d.bodies

/-- A test that cannot tell related things apart drops as many of both lists. -/
theorem rel_dropWhile {α : Type} {R : α → α → Prop} {p : α → Bool} (hp : ∀ a b, R a b → p b = p a)
    {as bs : List α} (h : List.Forall₂ R as bs) :
    List.Forall₂ R (as.dropWhile p) (bs.dropWhile p) := by
  induction h with
  | nil => exact .nil
  | @cons a b as bs hab has ih =>
      simp only [List.dropWhile_cons, hp a b hab]
      split
      · exact ih
      · exact .cons hab has

theorem rel_takeWhile {α : Type} {R : α → α → Prop} {p : α → Bool} (hp : ∀ a b, R a b → p b = p a)
    {as bs : List α} (h : List.Forall₂ R as bs) :
    List.Forall₂ R (as.takeWhile p) (bs.takeWhile p) := by
  induction h with
  | nil => exact .nil
  | @cons a b as bs hab _ ih =>
      simp only [List.takeWhile_cons, hp a b hab]
      split
      · exact .cons hab ih
      · exact .nil

theorem rel_any {α : Type} {R : α → α → Prop} {f g : α → Bool} (hf : ∀ a b, R a b → f a = g b)
    {as bs : List α} (h : List.Forall₂ R as bs) : as.any f = bs.any g := by
  induction h with
  | nil => rfl
  | cons hab _ ih => simp only [List.any_cons, hf _ _ hab, ih]

namespace Along

/-- Cursors that are along each other with gaps are so without. -/
theorem mono {b' : Bool} (h : Along N n b c d) (hb : b' = true → b = true) : Along N n b' c d :=
  { h with prev := fun h' => h.prev (hb h') }

/-- The tokens ahead correspond, as line ends are at the same places. -/
theorem significant (h : Along N n b c d) :
    List.Forall₂ (Token.Later N n) c.significant d.significant :=
  rel_dropWhile (fun _ _ ht => by rw [ht.kind]) h.rest

/-- The first of what is left, or the end of the text. -/
theorem first {ts us : List Token} (h : List.Forall₂ (Token.Later N n) ts us)
    (hn : ts = [] → n = 0) :
    (ts.headD ⟨.eof, default⟩).Later N n (us.headD ⟨.eof, default⟩) := by
  cases h with
  | nil =>
      obtain rfl := hn rfl
      exact ⟨rfl, rfl, nofun⟩
  | cons ht _ => exact ht

theorem current (h : Along N n b c d) : c.current.Later N n d.current := by
  refine first h.rest fun hc => ?_
  rcases h.ended with hn | ⟨last, hl, -⟩
  · exact hn
  · simp [hc] at hl

theorem ahead (h : Along N n b c d) : c.ahead.Later N n d.ahead := by
  refine first h.significant fun hc => ?_
  rcases h.ended with hn | ⟨last, hl, he⟩
  · exact hn
  · have all := List.dropWhile_eq_nil_iff.mp hc last (List.mem_of_getLast? hl)
    simp [he, TokenKind.isLineTerm] at all

/-- A gap before a token is a gap on both sides, where gaps are known. -/
theorem hasGap (h : Along N n true c d) : c.hasGap = d.hasGap := by
  simp only [Cursor.hasGap, h.current.span, h.prev rfl, Span.shift, gt_iff_lt, decide_eq_decide]
  omega

theorem hasGapAfter (h : Along N n b c d) : c.hasGapAfter = d.hasGapAfter := by
  have rest := h.rest
  unfold Cursor.hasGapAfter
  generalize c.rest = ts at rest
  generalize d.rest = us at rest
  rcases rest with _ | ⟨ht, _ | ⟨hu, _⟩⟩
  · rfl
  · rfl
  · simp only [ht.span, hu.span, Span.shift, gt_iff_lt, decide_eq_decide]
    omega

theorem isSecond (h : Along N n b c d) (p : Punct) : c.isSecond p = d.isSecond p := by
  have rest := h.rest
  unfold Cursor.isSecond
  generalize c.rest = ts at rest
  generalize d.rest = us at rest
  rcases rest with _ | ⟨ht, _ | ⟨hu, _⟩⟩
  · rfl
  · rfl
  · simp only [hu.kind]

theorem opensCall (h : Along N n true c d) : c.opensCall = d.opensCall := by
  simp only [Cursor.opensCall, h.hasGap, h.current.kind]

theorem inMethod (h : Along N n b c d) : c.inMethod = d.inMethod :=
  rel_any (fun _ _ hb => by rw [hb.1]) h.bodies

/-- A name is a known local on both sides. -/
theorem isLocal (h : Along N n b c d) {x y : NameId} (hn : (N.likeness (c.both d)).word x y) :
    c.isLocal x = d.isLocal y := by
  refine rel_any (fun body body' hb => ?_) h.bodies
  rw [Bool.eq_iff_iff, List.contains_iff_mem, List.contains_iff_mem]
  exact N.mem_locals h.valid hb.2 hn

/-- The same token is taken, and both cursors go on. -/
theorem taken {ts us : List Token} {t u : Token} (h : Along N n b c d)
    (hr : List.Forall₂ (Token.Later N n) ts us) (hs : t.Later N n u)
    (he : c.Ended → Cursor.Ended { c with rest := ts, prev := t.span }) :
    Along N n true { c with rest := ts, prev := t.span } { d with rest := us, prev := u.span } :=
  ⟨hr, h.ended.imp_right he, fun _ => hs.span, h.valid, h.bodies⟩

end Along

end Cursor

namespace Parser

variable {N : Naming} {n : Nat} {w w' : Tables} {b b' : Bool} {α β : Type} {k k' : α → Bool}
  {j : β → Bool} {V V' : Tables → α → α → Prop} {U : Tables → β → β → Prop}

/-- Whether two readings end alike: with answers in the relation `V`, or with the same error at the
same place, unless there was too little fuel.  After an answer `a` the token taken last is the same
if `k a`. -/
inductive Paired (N : Naming) (n : Nat) (k : α → Bool) (V : Tables → α → α → Prop) (w : Tables) :
    Outcome Cursor SyntaxError α → Outcome Cursor SyntaxError α → Prop where
  | done {a a' : α} {c d : Cursor} (hw : w ≤ c.both d) (hcd : c.Along N n (k a) d)
      (ha : V (c.both d) a a') : Paired N n k V w (.done a c) (.done a' d)
  | failed {cause : SyntaxCause} {place place' : Span} {c d : Cursor}
      (hp : place' = place.shift n) :
      Paired N n k V w (.failed ⟨cause, place⟩ c) (.failed ⟨cause, place'⟩ d)
  | haltedLeft {c : Cursor} {o : Outcome Cursor SyntaxError α} : Paired N n k V w (.halted c) o
  | haltedRight {d : Cursor} {o : Outcome Cursor SyntaxError α} : Paired N n k V w o (.halted d)

/-- **Whether two readers read the same in the same way**, once their tables are at least those
of `w`.  `b` tells whether the token taken last has to be the same. -/
def Tracks (N : Naming) (n : Nat) (w : Tables) (b : Bool) (k : α → Bool)
    (V : Tables → α → α → Prop) (p q : Parser α) : Prop :=
  ∀ c d : Cursor, w ≤ c.both d → c.Along N n b d → Paired N n k V (c.both d) (p c) (q d)

/-- The same answer. -/
abbrev alike : Tables → α → α → Prop := fun _ a a' => a' = a

/-- One round answers in the same way, and perhaps there is a next one. -/
abbrev further (V : Tables → α → α → Prop) : Tables → Option α → Option α → Prop :=
  fun w => Option.Rel (V w)

namespace Tracks

variable {p q : Parser α}

/-- Parsers that track each other do so on tables with more names. -/
theorem later (h : Tracks N n w b k V p q) (hw : w ≤ w') : Tracks N n w' b k V p q :=
  fun c d hcd => h c d (le_trans hw hcd)

/-- Less may be asked of the result, and more be known of the gap. -/
theorem mono (h : Tracks N n w b k V p q) (hb : b = true → b' = true)
    (hk : ∀ a, k' a = true → k a = true) (hV : ∀ w a a', V w a a' → V' w a a') :
    Tracks N n w b' k' V' p q := by
  intro c d hw hcd
  have paired := h c d hw (hcd.mono hb)
  generalize p c = o at paired ⊢
  generalize q d = o' at paired ⊢
  cases paired with
  | done hw hcd ha => exact .done hw (hcd.mono (hk _)) (hV _ _ _ ha)
  | failed hp => exact .failed hp
  | haltedLeft => exact .haltedLeft
  | haltedRight => exact .haltedRight

/-- What may be read from any cursor may be read after a token. -/
theorem any (h : Tracks N n w false k V p q) : Tracks N n w b k V p q :=
  h.mono nofun (fun _ => id) fun _ _ _ => id

/-- A result that corresponds is tracked, with what is known of the gap. -/
theorem pure {a a' : α} (hk : k a = true → b = true) (h : ∀ w', w ≤ w' → V w' a a') :
    Tracks N n w b k V (Pure.pure a) (Pure.pure a') :=
  fun _ _ hw hcd => .done le_rfl (hcd.mono hk) (h _ hw)

/-- An error is tracked by the same error at the place moved. -/
theorem failAt {cause : SyntaxCause} {place place' : Span} (hp : place' = place.shift n) :
    Tracks N n w b k V (Parser.failAt cause place) (Parser.failAt cause place') :=
  fun _ _ _ _ => .failed hp

/-- A parser that has run out of fuel is tracked by everything. -/
theorem exhaust : Tracks N n w b k V Action.exhaust q := fun _ _ _ _ => .haltedLeft

theorem exhausted : Tracks N n w b k V p Action.exhaust :=
  fun _ _ _ _ => .haltedRight

/-- **One reader after the other.** -/
theorem bind {f g : α → Parser β} (hp : Tracks N n w b k V p q)
    (hf : ∀ w', w ≤ w' → ∀ a a', V w' a a' → Tracks N n w' (k a) j U (f a) (g a')) :
    Tracks N n w b j U (p >>= f) (q >>= g) := by
  intro c d hw hcd
  have paired := hp c d hw hcd
  rw [Action.bind_apply, Action.bind_apply]
  generalize p c = o at paired
  generalize q d = o' at paired
  cases paired with
  | @done a a' c₁ d₁ hle hcd₁ ha =>
      have next := hf _ (le_trans hw hle) a a' ha c₁ d₁ le_rfl hcd₁
      simp only
      generalize f a c₁ = r at next
      generalize g a' d₁ = r' at next
      cases next with
      | done hle' hcd₂ hr => exact .done (le_trans hle hle') hcd₂ hr
      | failed hp => exact .failed hp
      | haltedLeft => exact .haltedLeft
      | haltedRight => exact .haltedRight
  | failed hp => exact .failed hp
  | haltedLeft => exact .haltedLeft
  | haltedRight => exact .haltedRight

/-- What follows whatever the answer is. -/
theorem andThen {f g : α → Parser β} (hp : Tracks N n w b (fun _ => b') V p q)
    (hf : ∀ a a', Tracks N n w b' j U (f a) (g a')) : Tracks N n w b j U (p >>= f) (q >>= g) :=
  hp.bind fun _ hw a a' _ => (hf a a').later hw

/-- A mark that is taken if it is there. -/
theorem eat {p q : Parser Bool} {y y' x x' : Parser β}
    (hp : Tracks N n w b (fun yes => b || yes) (fun _ a a' => a' = a) p q)
    (hy : Tracks N n w true j U y y') (hx : Tracks N n w b j U x x') :
    Tracks N n w b j U (p >>= fun yes => if yes then y else x)
      (q >>= fun yes => if yes then y' else x') := by
  refine hp.bind fun w' hw yes yes' h => ?_
  obtain rfl := h
  cases yes' with
  | true => simpa using hy.later hw
  | false => simpa using hx.later hw

/-- A choice is tracked if both sides choose alike. -/
theorem ite {c c' : Prop} [Decidable c] [Decidable c'] {p' q' : Parser α} (hc : c ↔ c')
    (h : Tracks N n w b k V p q) (h' : Tracks N n w b k V p' q') :
    Tracks N n w b k V (if c then p else p') (if c' then q else q') := by
  simp only [hc]
  split
  · exact h
  · exact h'

/-- What is done with a result is done to both. -/
theorem map {f g : α → β} (hp : Tracks N n w b (fun _ => b') V p q)
    (h : ∀ w', w ≤ w' → ∀ a a', V w' a a' → ∀ w'', w' ≤ w'' → U w'' (f a) (g a')) :
    Tracks N n w b (fun _ => b') U (f <$> p) (g <$> q) :=
  hp.bind fun _ hw a a' ha => .pure id fun _ hw' => h _ hw a a' ha _ hw'

/-- What is read may rely on names that are valid. -/
theorem under (h : ∀ w', w ≤ w' → N.valid w' → Tracks N n w' b k V p q) :
    Tracks N n w b k V p q :=
  fun c d hw hcd => h _ hw hcd.valid c d le_rfl hcd

/-- What is read depends on how the cursors stand. -/
theorem seen {f g : Cursor → Bool} {x x' y y' : Parser β}
    (hf : ∀ c d, w ≤ c.both d → c.Along N n b d → f c = g d) (hy : Tracks N n w b j U y y')
    (hx : Tracks N n w b j U x x') :
    Tracks N n w b j U (Action.view f >>= fun yes => if yes then y else x)
      (Action.view g >>= fun yes => if yes then y' else x') := by
  intro c d hw hcd
  change Paired N n j U _ ((if f c then y else x) c) ((if g d then y' else x') d)
  rw [hf c d hw hcd]
  split
  · exact hy c d hw hcd
  · exact hx c d hw hcd

/-- What cursors show is tracked if it corresponds. -/
theorem view {f g : Cursor → α} (hk : ∀ a, k a = true → b = true)
    (h : ∀ c d, w ≤ c.both d → c.Along N n b d → V (c.both d) (f c) (g d)) :
    Tracks N n w b k V (Action.view f) (Action.view g) :=
  fun c d hw hcd => .done le_rfl (hcd.mono (hk _)) (h c d hw hcd)

/-- A change of cursors is tracked if they stay along each other. -/
theorem update {f g : Cursor → Cursor}
    (h : ∀ c d, w ≤ c.both d → c.Along N n b d →
      c.both d ≤ (f c).both (g d) ∧ (f c).Along N n b (g d)) :
    Tracks N n w b (fun _ => b) alike (Action.update f) (Action.update g) :=
  fun c d hw hcd => .done (h c d hw hcd).1 (h c d hw hcd).2 rfl

/-- A body is opened and closed on both sides. -/
theorem within (kind : BodyKind) (hp : Tracks N n w b k V p q) (hV : ∀ w w' a a', w ≤ w' →
    V w a a' → V w' a a') : Tracks N n w b k V (Parser.within kind p) (Parser.within kind q) := by
  have opened : Tracks N n w b (fun _ => b) alike
      (Action.update fun c : Cursor => { c with bodies := ⟨kind, []⟩ :: c.bodies })
      (Action.update fun c : Cursor => { c with bodies := ⟨kind, []⟩ :: c.bodies }) :=
    .update fun c d _ hcd => ⟨le_rfl, hcd.rest, hcd.ended, hcd.prev, hcd.valid,
      .cons ⟨rfl, N.locals_nil _⟩ hcd.bodies⟩
  have closed : ∀ w b, Tracks N n w b (fun _ => b) alike
      (Action.update fun c : Cursor => { c with bodies := c.bodies.tail })
      (Action.update fun c : Cursor => { c with bodies := c.bodies.tail }) := by
    refine fun w b => .update fun c d _ hcd => ⟨le_rfl, hcd.rest, hcd.ended, hcd.prev,
      hcd.valid, ?_⟩
    have bodies := hcd.bodies
    generalize c.bodies = bs at bodies ⊢
    generalize d.bodies = bs' at bodies ⊢
    cases bodies with
    | nil => exact .nil
    | cons _ h => exact h
  refine opened.andThen fun _ _ => hp.bind fun w' _ a a' ha => ?_
  exact (closed w' (k a)).andThen fun _ _ => .pure id fun _ hw' => hV _ _ _ _ hw' ha

/-- **A loop goes as another one does** if each of their rounds does. -/
theorem chain {step step' : α → Parser (Option α)} {a a' : α} (hV : ∀ w w' a a', w ≤ w' →
      V w a a' → V w' a a')
    (hs : ∀ w', w ≤ w' → ∀ a a', V w' a a' →
      Tracks N n w' b (fun _ => b) (further V) (step a) (step' a'))
    (ha : V w a a') : Tracks N n w b (fun _ => b) V (Parser.chain step a)
      (Parser.chain step' a') := by
  have rounds : ∀ (ts us : List Token), ts.length = us.length → ∀ w', w ≤ w' → ∀ a a', V w' a a' →
      Tracks N n w' b (fun _ => b) V (iterate step ts a) (iterate step' us a') := by
    intro ts
    induction ts with
    | nil =>
        intro us hlen w' hw a a' ha
        obtain rfl : us = [] := List.length_eq_zero_iff.mp hlen.symm
        refine (hs w' hw a a' ha).bind fun w'' hw' o o' ho => ?_
        cases ho with
        | some _ => exact .exhaust
        | none => exact .pure id fun _ hw'' => hV _ _ _ _ (le_trans hw' hw'') ha
    | cons t ts ih =>
        intro us hlen w' hw a a' ha
        cases us with
        | nil => cases hlen
        | cons u us =>
            refine (hs w' hw a a' ha).bind fun w'' hw' o o' ho => ?_
            cases ho with
            | some h => exact ih us (Nat.succ.inj hlen) _ (le_trans hw hw') _ _ h
            | none => exact .pure id fun _ hw'' => hV _ _ _ _ (le_trans hw' hw'') ha
  intro c d hw hcd
  exact rounds c.rest d.rest hcd.rest.length_eq w le_rfl a a' ha c d hw hcd

end Tracks

/-! ### What corresponds -/

/-- The same token. -/
abbrev later (N : Naming) (n : Nat) : Tables → Token → Token → Prop := fun _ => Token.Later N n

/-- The same place. -/
abbrev placed (n : Nat) : Tables → Span → Span → Prop := fun _ s s' => s' = s.shift n

end Parser

namespace Naming

variable (N : Naming) (n : Nat) {w w' : Tables}

/-- Names that correspond. -/
abbrev named : Tables → NameId → NameId → Prop := fun w => (N.likeness w).same

/-- Names that correspond as words. -/
abbrev worded : Tables → NameId → NameId → Prop := fun w => (N.likeness w).word

/-- Trees that are alike. -/
abbrev node : Tables → Node → Node → Prop := fun w => Node.Alike (N.likeness w) n

/-- Several trees that are alike, each to each. -/
abbrev nodes : Tables → List Node → List Node → Prop := fun w => Node.AlikeAll (N.likeness w) n

/-- Parts that are alike, if there are any. -/
abbrev part : Tables → Option Node → Option Node → Prop := fun w => Option.Rel (N.node n w)

/-- Parameters that are alike, each to each. -/
abbrev params : Tables → List (Param Node) → List (Param Node) → Prop :=
  fun w => Node.AlikeParams (N.likeness w) n

/-- Rescue clauses that are alike, each to each. -/
abbrev clauses : Tables → List (RescueClause Node) → List (RescueClause Node) → Prop :=
  fun w => Node.AlikeClauses (N.likeness w) n

variable {n}

theorem nodes_mono (hw : w ≤ w') {as bs : List Node} (h : N.nodes n w as bs) : N.nodes n w' as bs :=
  h.imp fun _ _ => Node.Alike.mono (N.mono hw)

theorem part_mono (hw : w ≤ w') {a? b? : Option Node} (h : N.part n w a? b?) : N.part n w' a? b? :=
  rel_imp (fun _ _ => Node.Alike.mono (N.mono hw)) h

theorem params_mono (hw : w ≤ w') {ps ps' : List (Param Node)} (h : N.params n w ps ps') :
    N.params n w' ps ps' :=
  h.imp fun _ _ => Node.AlikeParam.mono (N.mono hw) fun _ _ => Node.Alike.mono (N.mono hw)

theorem clauses_mono (hw : w ≤ w') {rs rs' : List (RescueClause Node)} (h : N.clauses n w rs rs') :
    N.clauses n w' rs rs' :=
  h.imp fun _ _ => Node.AlikeClause.mono (N.mono hw) fun _ _ => Node.Alike.mono (N.mono hw)

end Naming

namespace Parser

/-! ### Tokens -/

/-- The end of the tokens is still the end of what is left. -/
theorem ended_of_done {p : Parser α} {M : NameId → Prop} {Q : α → NameId → Prop}
    (h : Moves 0 k M Q p) {c c' : Cursor} {a : α} (e : p c = .done a c') : c.Ended → c'.Ended := by
  have went := h c
  rw [e] at went
  exact went.1.ended

/-- **Taking a token** takes tokens that correspond, and the gap is known afterwards. -/
theorem tracks_take : Tracks N n w b (fun _ => true) (later N n) take take := by
  intro c d _ hcd
  have sig := hcd.significant
  cases hc : c.significant with
  | nil =>
      rw [hc] at sig
      have hd : d.significant = [] := by
        cases hs : d.significant with
        | nil => rfl
        | cons u us =>
            rw [hs] at sig
            cases sig
      simp only [take, hc, hd]
      exact .failed hcd.ahead.span
  | cons t ts =>
      rw [hc] at sig
      obtain ⟨u, us, ht, hts, hd⟩ := List.forall₂_cons_left_iff.mp sig
      cases he : t.kind.isEof with
      | true =>
          have he' : u.kind.isEof = true := by rw [ht.kind, he]
          simp only [take, hc, hd, he, he', if_true]
          exact .failed ht.span
      | false =>
          have he' : u.kind.isEof = false := by rw [ht.kind, he]
          have read : take c = .done t { c with rest := ts, prev := t.span } := by
            simp [take, hc, he]
          have read' : take d = .done u { d with rest := us, prev := u.span } := by
            simp [take, hd, he']
          rw [read, read']
          refine .done le_rfl (hcd.taken hts ht ?_) ht
          exact ended_of_done (moves_take (N := fun _ => False)) read

theorem tracks_advance : Tracks N n w true (fun _ => true) alike advance advance := by
  intro c d _ hcd
  have rest := hcd.rest
  cases hc : c.rest with
  | nil =>
      rw [hc] at rest
      have hd : d.rest = [] := List.forall₂_nil_left_iff.mp rest
      simp only [advance, hc, hd]
      exact .done le_rfl hcd rfl
  | cons t ts =>
      rw [hc] at rest
      obtain ⟨u, us, ht, hts, hd⟩ := List.forall₂_cons_left_iff.mp rest
      cases he : t.kind.isEof with
      | true =>
          have he' : u.kind.isEof = true := by rw [ht.kind, he]
          simp only [advance, hc, hd, he, he', if_true]
          exact .done le_rfl hcd rfl
      | false =>
          have he' : u.kind.isEof = false := by rw [ht.kind, he]
          have read : advance c = .done () { c with rest := ts, prev := t.span } := by
            simp [advance, hc, he]
          have read' : advance d = .done () { d with rest := us, prev := u.span } := by
            simp [advance, hd, he']
          rw [read, read']
          refine .done le_rfl (hcd.taken hts ht ?_) rfl
          have current : c.current.kind.isEof = false := by simpa [Cursor.current, hc] using he
          exact (moved_of_advance current read).ended

theorem tracks_current : Tracks N n w b (fun _ => b) (later N n) current current :=
  .view (fun _ => id) fun _ _ _ hcd => hcd.current

theorem tracks_ahead :
    Tracks N n w b (fun _ => b) (later N n) (Action.view Cursor.ahead) (Action.view Cursor.ahead) :=
  .view (fun _ => id) fun _ _ _ hcd => hcd.ahead

/-- The place of the last token is known once a token has been taken. -/
theorem tracks_prevSpan : Tracks N n w true (fun _ => true) (placed n) prevSpan prevSpan :=
  .view (fun _ => id) fun _ _ _ hcd => hcd.prev rfl

/-- What the reader answers is placed up to the token taken last. -/
theorem tracks_placed {f g : Span → α} (h : ∀ w', w ≤ w' → ∀ s, V w' (f s) (g (s.shift n))) :
    Tracks N n w true (fun _ => true) V (prevSpan >>= fun s => pure (f s))
      (prevSpan >>= fun s => pure (g s)) := by
  refine tracks_prevSpan.bind fun w₁ hw s s' hs => .pure id fun w₂ hw' => ?_
  obtain rfl := hs
  exact h w₂ (hw.trans hw') s

/-- Names that are looked up correspond. -/
theorem tracks_intern (text : String) :
    Tracks N n w b (fun _ => b) N.named (intern text) (intern text) := by
  intro c d _ hcd
  have grown := (c.both d).le_intern text
  exact .done grown ⟨hcd.rest, hcd.ended, hcd.prev, N.valid_intern text hcd.valid,
    hcd.bodies.imp fun _ _ hb => ⟨hb.1, N.locals_mono grown hb.2⟩⟩ (N.same_intern text hcd.valid)

/-- A word of the text is looked up on both sides, and spelled alike. -/
theorem tracks_internWord (text : String) (ht : N.words text) :
    Tracks N n w b (fun _ => b) N.worded (intern text) (intern text) := by
  intro c d _ hcd
  have grown := (c.both d).le_intern text
  exact .done grown ⟨hcd.rest, hcd.ended, hcd.prev, N.valid_intern text hcd.valid,
    hcd.bodies.imp fun _ _ hb => ⟨hb.1, N.locals_mono grown hb.2⟩⟩ (N.word_intern text hcd.valid ht)

/-- A local is declared under names that are spelled alike. -/
theorem tracks_declare {x y : NameId} (h : N.worded w x y) :
    Tracks N n w b (fun _ => b) alike (declare x) (declare y) := by
  refine .update fun c d hw hcd => ?_
  have word : N.worded (c.both d) x y := (N.mono hw).2 _ _ h
  unfold Cursor.declare
  rw [hcd.isLocal word]
  cases d.isLocal y with
  | true => exact ⟨le_rfl, hcd⟩
  | false =>
      have bodies := hcd.bodies
      cases hc : c.bodies with
      | nil =>
          rw [hc] at bodies
          rw [List.forall₂_nil_left_iff.mp bodies]
          exact ⟨le_rfl, hcd⟩
      | cons body bs =>
          rw [hc] at bodies
          obtain ⟨body', bs', hb, hbs, hd⟩ := List.forall₂_cons_left_iff.mp bodies
          rw [hd]
          exact ⟨le_rfl, hcd.rest, hcd.ended, hcd.prev, hcd.valid,
            .cons ⟨hb.1, N.locals_cons word hb.2⟩ hbs⟩

/-- The separators that are skipped, and the place of the last one. -/
theorem eatTerms_done {c : Cursor} (h : c.current.kind.isTerm = true) :
    eatTerms c = .done true { c with
      rest := c.rest.dropWhile isSeparator
      prev := ((c.rest.takeWhile isSeparator).getLast?.map Token.span).getD c.prev } := by
  simp only [eatTerms, if_pos h]
  cases (c.rest.takeWhile isSeparator).getLast? <;> rfl

theorem tracks_eatTerms : Tracks N n w b (fun _ => b) alike eatTerms eatTerms := by
  intro c d _ hcd
  have separator : ∀ t u, Token.Later N n t u → isSeparator u = isSeparator t := fun t u h => by
    rw [isSeparator, isSeparator, h.kind]
  cases ht : c.current.kind.isTerm with
  | true =>
      have ht' : d.current.kind.isTerm = true := by rw [hcd.current.kind, ht]
      have ended := ended_of_done (moves_eatTerms (N := fun _ => False)) (eatTerms_done ht)
      rw [eatTerms_done ht, eatTerms_done ht']
      refine .done le_rfl ⟨Cursor.rel_dropWhile separator hcd.rest,
        hcd.ended.imp_right ended, fun hb => ?_, hcd.valid, hcd.bodies⟩ rfl
      have last := Node.rel_getLast? (Cursor.rel_takeWhile separator hcd.rest)
      generalize (c.rest.takeWhile isSeparator).getLast? = o at last ⊢
      generalize (d.rest.takeWhile isSeparator).getLast? = o' at last ⊢
      cases last with
      | some hl => exact hl.span
      | none => exact hcd.prev hb
  | false =>
      have ht' : d.current.kind.isTerm = false := by rw [hcd.current.kind, ht]
      rw [eatTerms, if_neg (by simp [ht]), eatTerms, if_neg (by simp [ht'])]
      exact .done le_rfl hcd rfl

theorem tracks_eatPunct (p : Punct) :
    Tracks N n w b (fun yes => b || yes) alike (eatPunct p) (eatPunct p) :=
  tracks_ahead.bind fun _ _ t t' ht => .ite (by rw [ht.kind])
    (tracks_take.andThen fun _ _ => .pure (fun _ => rfl) fun _ _ => rfl)
    (.pure (by simp) fun _ _ => rfl)

theorem tracks_eatPunctHere (p : Punct) :
    Tracks N n w b (fun yes => b || yes) alike (eatPunctHere p) (eatPunctHere p) :=
  tracks_current.bind fun _ _ t t' ht => .ite (by rw [ht.kind])
    (tracks_take.andThen fun _ _ => .pure (fun _ => rfl) fun _ _ => rfl)
    (.pure (by simp) fun _ _ => rfl)

theorem tracks_eatKeyword (word : Keyword) :
    Tracks N n w b (fun yes => b || yes) alike (eatKeyword word) (eatKeyword word) :=
  tracks_ahead.bind fun _ _ t t' ht => .ite (by rw [ht.kind])
    (tracks_take.andThen fun _ _ => .pure (fun _ => rfl) fun _ _ => rfl)
    (.pure (by simp) fun _ _ => rfl)

theorem tracks_eatKeywordHere (word : Keyword) :
    Tracks N n w true (fun yes => true || yes) alike (eatKeywordHere word) (eatKeywordHere word) :=
  tracks_current.bind fun _ _ t t' ht => .ite (by rw [ht.kind])
    (tracks_advance.andThen fun _ _ => .pure (fun _ => rfl) fun _ _ => rfl)
    (.pure (by simp) fun _ _ => rfl)

theorem tracks_eatAssignOp : Tracks N n w true (fun _ => true) alike eatAssignOp eatAssignOp := by
  refine tracks_current.bind fun _ _ t t' ht => ?_
  rw [ht.kind]
  split
  · exact tracks_advance.andThen fun _ _ => .pure (fun _ => rfl) fun _ _ => rfl
  · exact .pure id fun _ _ => rfl

theorem tracks_expectKeyword (word : Keyword) :
    Tracks N n w b (fun _ => true) alike (expectKeyword word) (expectKeyword word) :=
  tracks_take.bind fun _ _ t t' ht => .ite (by rw [ht.kind]) (.pure id fun _ _ => rfl)
    (.failAt ht.span)

theorem tracks_expectPunct (p : Punct) :
    Tracks N n w b (fun _ => true) alike (expectPunct p) (expectPunct p) :=
  tracks_take.bind fun _ _ t t' ht => .ite (by rw [ht.kind]) (.pure id fun _ _ => rfl)
    (.failAt ht.span)

theorem tracks_expectIdent :
    Tracks N n w b (fun _ => true) N.worded expectIdent expectIdent := by
  refine tracks_take.bind fun _ _ t t' ht => ?_
  rw [ht.kind]
  split
  · rename_i text hk
    exact tracks_internWord text (ht.word text hk)
  · exact .failAt ht.span

/-! ### The rules -/

/-- Whether two readers go side by side after a token. -/
abbrev TracksOn (N : Naming) (n : Nat) (w : Tables) (V : Tables → α → α → Prop)
    (p q : Parser α) : Prop :=
  Tracks N n w true (fun _ => true) V p q

/-- Whether two readers go side by side wherever they start, and take a token. -/
abbrev TracksFrom (N : Naming) (n : Nat) (w : Tables) (V : Tables → α → α → Prop)
    (p q : Parser α) : Prop :=
  Tracks N n w false (fun _ => true) V p q

end Parser

/-- **Whether readers of the rules go side by side.** -/
structure Rules.Track (N : Naming) (n : Nat) (rules rules' : Rules) : Prop where
  stmts {w : Tables} {b : Bool} :
    Parser.Tracks N n w b (fun _ => b) (N.node n) (rules .stmts) (rules' .stmts)
  expr {w : Tables} : Parser.TracksFrom N n w (N.node n) (rules .expr) (rules' .expr)
  arg {w : Tables} : Parser.TracksFrom N n w (N.node n) (rules .arg) (rules' .arg)
  signed {w : Tables} : Parser.TracksFrom N n w (N.node n) (rules .signed) (rules' .signed)
  unary {w : Tables} : Parser.TracksFrom N n w (N.node n) (rules .unary) (rules' .unary)
  branch {w : Tables} (place : Span) :
    Parser.TracksFrom N n w (N.node n) (rules (.branch place)) (rules' (.branch (place.shift n)))

namespace Parser

variable {N : Naming} {n : Nat} {w w' : Tables} {b b' : Bool} {α β : Type} {k k' : α → Bool}
  {j : β → Bool} {V V' : Tables → α → α → Prop} {U : Tables → β → β → Prop}

/-- Lists that are being read: the trees so far, and whether there are more. -/
abbrev listed (N : Naming) (n : Nat) :
    Tables → List Node × Bool → List Node × Bool → Prop :=
  fun w r r' => N.nodes n w r.1 r'.1 ∧ r'.2 = r.2

variable {rules rules' : Rules} (hr : Rules.Track N n rules rules')
include hr

/-! ### Calls -/

theorem tracks_argOrClose (close : Punct) {r r' : List Node × Bool} (h : listed N n w r r') :
    TracksOn N n w (further (listed N n)) (argOrClose rules close r)
      (argOrClose rules' close r') := by
  obtain ⟨args, more⟩ := r
  obtain ⟨args', more'⟩ := r'
  obtain ⟨ha, rfl⟩ := h
  refine .ite Iff.rfl (.pure id fun _ _ => .none) (.eat (tracks_eatPunct close)
    (.pure id fun _ hw => .some ⟨N.nodes_mono hw ha, rfl⟩) (hr.arg.any.bind ?_))
  intro w₁ hw₁ arg arg' harg
  have both : ∀ w₂, w₁ ≤ w₂ → N.nodes n w₂ (arg :: args) (arg' :: args') := fun w₂ hw₂ =>
    .cons (harg.mono (N.mono hw₂)) (N.nodes_mono (hw₁.trans hw₂) ha)
  refine .eat (tracks_eatPunct .comma) (.pure id fun _ hw => .some ⟨both _ hw, rfl⟩) ?_
  exact (tracks_expectPunct close).bind fun _ hw₂ _ _ _ =>
    .pure id fun _ hw => .some ⟨both _ (hw₂.trans hw), rfl⟩

omit hr in
/-- Lists that have been read from the last tree to the first. -/
theorem tracks_listed {step step' : List Node × Bool → Parser (Option (List Node × Bool))}
    (hs : ∀ w' r r', listed N n w' r r' →
      TracksOn N n w' (further (listed N n)) (step r) (step' r')) :
    TracksOn N n w (N.nodes n)
      (Parser.chain step ([], true) >>= fun r => pure r.1.reverse)
      (Parser.chain step' ([], true) >>= fun r => pure r.1.reverse) := by
  refine Tracks.bind (V := listed N n) (.chain ?_ (fun w' _ r r' => hs w' r r') ⟨.nil, rfl⟩) ?_
  · exact fun _ _ _ _ hw h => ⟨N.nodes_mono hw h.1, h.2⟩
  · exact fun _ _ r r' h => .pure id fun _ hw => List.rel_reverse (N.nodes_mono hw h.1)

theorem tracks_argsUntil (close : Punct) :
    TracksOn N n w (N.nodes n) (argsUntil rules close) (argsUntil rules' close) :=
  tracks_listed fun _ _ _ => tracks_argOrClose hr close

theorem tracks_commandArg {r r' : List Node × Bool} (h : listed N n w r r') :
    TracksOn N n w (further (listed N n)) (commandArg rules r) (commandArg rules' r') := by
  obtain ⟨args, more⟩ := r
  obtain ⟨args', more'⟩ := r'
  obtain ⟨ha, rfl⟩ := h
  refine .ite Iff.rfl (.pure id fun _ _ => .none) (hr.arg.any.bind ?_)
  intro w₁ hw₁ arg arg' harg
  refine (tracks_eatPunctHere .comma).bind fun w₂ hw₂ _ comma h => ?_
  obtain rfl := h
  refine .pure (fun _ => rfl) fun w₃ hw₃ => .some ⟨.cons ?_ ?_, rfl⟩
  · exact harg.mono (N.mono (hw₂.trans hw₃))
  · exact N.nodes_mono (hw₁.trans (hw₂.trans hw₃)) ha

theorem tracks_commandArgs :
    TracksOn N n w (N.nodes n) (commandArgs rules) (commandArgs rules') :=
  tracks_listed fun _ _ _ => tracks_commandArg hr

omit hr in
theorem tracks_operatorName (p : Punct) :
    TracksOn N n w N.named (operatorName p) (operatorName p) := by
  unfold operatorName
  refine .under fun w₁ hw₁ hv => .ite Iff.rfl (.eat (tracks_eatPunctHere .rbracket) ?_ ?_) ?_
  · refine .seen (fun _ _ _ h => by rw [h.hasGap]) ?_ ?_
    · refine .eat (tracks_eatPunctHere .assign) ?_ ?_
      · exact .under fun _ _ hv => .pure id fun _ hw => (N.mono hw).1 _ _ (N.subscriptAssign hv)
      · exact .under fun _ _ hv => .pure id fun _ hw => (N.mono hw).1 _ _ (N.subscript hv)
    · exact .under fun _ _ hv => .pure id fun _ hw => (N.mono hw).1 _ _ (N.subscript hv)
  · exact tracks_current.bind fun _ _ _ _ ht => .failAt ht.span
  · split
    · exact tracks_intern _
    · exact tracks_prevSpan.bind fun _ _ _ _ hs => .failAt hs

omit hr in
theorem tracks_calledName {t t' : Token} (ht : t.Later N n t') :
    TracksOn N n w N.named (calledName t) (calledName t') := by
  unfold calledName
  rw [ht.kind]
  split
  · exact tracks_intern _
  · exact tracks_intern _
  · exact tracks_intern _
  · exact tracks_operatorName _
  · exact .failAt ht.span

omit hr in
theorem tracks_methodName :
    TracksOn N n w (fun w' r r' => N.named w' r.1 r'.1 ∧ r'.2 = r.2.shift n)
      methodName methodName := by
  refine tracks_take.bind fun _ _ t t' ht => (tracks_calledName ht).bind fun _ _ x y hn => ?_
  refine tracks_placed fun _ hw s => ⟨(N.mono hw).1 _ _ hn, ?_⟩
  rw [ht.span, Span.shift_merge]

omit hr in
theorem startsCommand_eq {c d : Cursor} (h : c.Along N n true d) :
    startsCommand c = startsCommand d := by
  simp only [startsCommand, h.hasGap, h.current.kind, h.hasGapAfter]

theorem tracks_callArgs : TracksOn N n w (N.nodes n) (callArgs rules) (callArgs rules') := by
  refine .seen (fun _ _ _ h => h.opensCall) ?_ (.seen (fun _ _ _ h => startsCommand_eq h) ?_ ?_)
  · exact tracks_take.andThen fun _ _ => tracks_argsUntil hr .rparen
  · exact tracks_commandArgs hr
  · exact .pure id fun _ _ => .nil

/-- Calls are the same on both sides, with arguments that correspond. -/
theorem tracks_methodCall {node node' : Node} (hn : N.node n w node node') :
    TracksOn N n w (N.node n) (methodCall rules node) (methodCall rules' node') := by
  refine tracks_methodName.bind fun w₁ hw₁ r r' h => ?_
  obtain ⟨name, place⟩ := r
  obtain ⟨name', place'⟩ := r'
  refine (tracks_callArgs hr).bind fun w₂ hw₂ args args' ha => tracks_placed fun w₃ hw₃ s => ?_
  rw [show place' = place.shift n from h.2, ← Span.shift_merge]
  exact Node.alike_ofSend _ (.some (hn.mono (N.mono (hw₁.trans (hw₂.trans hw₃)))))
    ((N.mono (hw₂.trans hw₃)).1 _ _ h.1) (N.nodes_mono hw₃ ha)

theorem tracks_indexing {node node' : Node} (hn : N.node n w node node') :
    TracksOn N n w (N.node n) (indexing rules node) (indexing rules' node') := by
  refine .under fun _ hw hv => tracks_take.bind fun w₁ hw₁ t t' ht => ?_
  refine (tracks_argsUntil hr .rbracket).bind fun w₂ hw₂ args args' ha =>
    tracks_placed fun w₃ hw₃ s => ?_
  rw [ht.span, ← Span.shift_merge]
  exact Node.alike_ofSend _ (.some (hn.mono (N.mono (hw.trans (hw₁.trans (hw₂.trans hw₃))))))
    ((N.mono (hw₁.trans (hw₂.trans hw₃))).1 _ _ (N.subscript hv)) (N.nodes_mono hw₃ ha)

theorem tracks_link {node node' : Node} (hn : N.node n w node node') :
    TracksOn N n w (further (N.node n)) (link rules node) (link rules' node') := by
  refine .eat (tracks_eatPunct .dot) ?_ (.seen ?_ ?_ (.pure id fun _ _ => .none))
  · exact (tracks_methodCall hr hn).map fun _ _ _ _ h _ hw => .some (h.mono (N.mono hw))
  · intro c d _ h
    rw [h.current.kind, h.hasGap]
  · exact (tracks_indexing hr hn).map fun _ _ _ _ h _ hw => .some (h.mono (N.mono hw))

theorem tracks_chained {node node' : Node} (hn : N.node n w node node') :
    TracksOn N n w (N.node n) (chained rules node) (chained rules' node') :=
  .chain (fun _ _ _ _ hw h => h.mono (N.mono hw)) (fun _ _ _ _ => tracks_link hr) hn

theorem tracks_functionCall {x y : NameId} (hn : N.named w x y) (place : Span) :
    TracksOn N n w (N.node n) (functionCall rules x place)
      (functionCall rules' y (place.shift n)) := by
  refine tracks_take.bind fun w₁ hw₁ _ _ _ => (tracks_argsUntil hr .rparen).bind ?_
  intro w₂ hw₂ args args' ha
  refine tracks_placed fun w₃ hw₃ s => ?_
  rw [← Span.shift_merge]
  exact Node.alike_ofSend _ .none ((N.mono (hw₁.trans (hw₂.trans hw₃))).1 _ _ hn)
    (N.nodes_mono hw₃ ha)

/-- An identifier is a local on both sides or a call on both. -/
theorem tracks_identifier {text : String} (ht : N.words text) (place : Span) :
    TracksOn N n w (N.node n) (identifier rules text place)
      (identifier rules' text (place.shift n)) := by
  refine (tracks_internWord text ht).bind fun w₁ _ x y hn => ?_
  have bare : TracksOn N n w₁ (N.node n) (pure (.ident place x))
      (pure (.ident (place.shift n) y)) :=
    .pure id fun _ hw => (Node.Congr.ident _ ((N.mono hw).2 _ _ hn)).alike
  refine .seen (fun _ _ _ h => h.opensCall) (tracks_functionCall hr (N.same_of_word hn) place) ?_
  refine .seen (fun _ _ hw h => h.isLocal ((N.mono hw).2 _ _ hn)) bare ?_
  refine .seen (fun _ _ _ h => startsCommand_eq h) ((tracks_commandArgs hr).bind ?_) bare
  intro w₂ hw₂ args args' ha
  refine .pure id fun w₃ hw₃ => Node.alike_ofSend _ .none ?_ (N.nodes_mono hw₃ ha)
  exact (N.mono (hw₂.trans hw₃)).1 _ _ (N.same_of_word hn)

theorem tracks_constant (text : String) (place : Span) :
    TracksOn N n w (N.node n) (constant rules text place)
      (constant rules' text (place.shift n)) := by
  refine (tracks_intern text).bind fun w₁ _ x y hn => .seen (fun _ _ _ h => h.opensCall)
    (tracks_functionCall hr hn place) (.pure id fun w₂ hw => ?_)
  exact (Node.Congr.const _ ((N.mono hw).1 _ _ hn)).alike

/-! ### Blocks -/

omit hr in
theorem tracks_opening (word : Keyword) :
    Tracks N n w b (fun _ => b) alike (opening word) (opening word) := by
  refine tracks_eatTerms.bind fun w₁ _ _ ended h => ?_
  obtain rfl := h
  refine .ite Iff.rfl ?_ ?_
  · exact (tracks_eatKeyword word).bind fun _ _ _ _ _ => .pure (fun h => by simp [h]) fun _ _ => rfl
  · exact (tracks_expectKeyword word).mono id (fun _ _ => rfl) fun _ _ _ => id

theorem tracks_elseBranch :
    TracksOn N n w (N.node n) (elseBranch rules) (elseBranch rules') := by
  refine .eat (tracks_eatKeyword .kElse) hr.stmts (tracks_current.bind fun _ _ t t' ht => ?_)
  rw [ht.span]
  exact .pure id fun _ _ => Node.alike_nop _

theorem tracks_otherBranch :
    TracksOn N n w (N.node n) (otherBranch rules) (otherBranch rules') := by
  refine .eat (tracks_eatKeyword .kElsif) (tracks_prevSpan.bind fun _ _ s s' hs => ?_)
    (tracks_elseBranch hr)
  obtain rfl := hs
  exact (hr.branch s).any

theorem tracks_branches (place : Span) :
    TracksFrom N n w (N.node n) (branches rules place) (branches rules' (place.shift n)) := by
  refine hr.expr.bind fun w₁ _ test test' ht => (tracks_opening .kThen).bind fun w₂ h₂ _ _ _ =>
    hr.stmts.bind fun w₃ h₃ yes yes' hy => (tracks_otherBranch hr).bind fun w₄ h₄ no no' hn =>
      .pure id fun w₅ h₅ => ?_
  exact Node.alike_ofCond _ (ht.mono (N.mono (h₂.trans (h₃.trans (h₄.trans h₅)))))
    (hy.mono (N.mono (h₄.trans h₅))) (hn.mono (N.mono h₅))

theorem tracks_unlessBlock (place : Span) :
    TracksOn N n w (N.node n) (unlessBlock rules place) (unlessBlock rules' (place.shift n)) := by
  refine hr.expr.any.bind fun w₁ _ test test' ht => (tracks_opening .kThen).bind fun w₂ h₂ _ _ _ =>
    hr.stmts.bind fun w₃ h₃ no no' hn => (tracks_elseBranch hr).bind fun w₄ h₄ yes yes' hy =>
      (tracks_expectKeyword .kEnd).bind fun w₅ h₅ _ _ _ => .pure id fun w₆ h₆ => ?_
  exact Node.alike_ofCond _ (ht.mono (N.mono (h₂.trans (h₃.trans (h₄.trans (h₅.trans h₆))))))
    (hy.mono (N.mono (h₅.trans h₆))) (hn.mono (N.mono (h₄.trans (h₅.trans h₆))))

theorem tracks_whileBlock (place : Span) :
    TracksOn N n w (N.node n) (whileBlock rules place) (whileBlock rules' (place.shift n)) := by
  refine hr.expr.any.bind fun w₁ _ test test' ht => (tracks_opening .kDo).bind fun w₂ h₂ _ _ _ =>
    hr.stmts.bind fun w₃ h₃ body body' hb => (tracks_expectKeyword .kEnd).bind fun w₄ h₄ _ _ _ =>
      tracks_placed fun w₅ h₅ s => ?_
  rw [← Span.shift_merge]
  exact Node.alike_ofLoop _ (ht.mono (N.mono (h₂.trans (h₃.trans (h₄.trans h₅)))))
    (hb.mono (N.mono (h₄.trans h₅)))

theorem tracks_jumpValue (place : Span) :
    TracksOn N n w (N.node n) (jumpValue rules place) (jumpValue rules' (place.shift n)) := by
  refine tracks_current.bind fun _ _ t t' ht => ?_
  rw [ht.kind]
  exact .ite Iff.rfl (.pure id fun _ _ => (Node.Congr.nil _).alike) hr.arg.any

theorem tracks_rescueClasses :
    TracksOn N n w (N.nodes n) (rescueClasses rules) (rescueClasses rules') :=
  tracks_current.bind fun _ _ t t' ht =>
    .ite (by rw [ht.kind]) (.pure id fun _ _ => .nil) (tracks_commandArgs hr)

omit hr in
theorem tracks_rescueBinder :
    TracksOn N n w (fun w' => Option.Rel (N.worded w')) rescueBinder rescueBinder := by
  refine .eat (tracks_eatPunctHere .arrow) ?_ (.pure id fun _ _ => .none)
  refine tracks_expectIdent.bind fun _ _ x y hn => (tracks_declare hn).bind fun _ h₁ _ _ _ => ?_
  exact .pure id fun _ h₂ => .some ((N.mono (h₁.trans h₂)).2 _ _ hn)

theorem tracks_rescueClause :
    TracksOn N n w (fun w' => Node.AlikeClause (N.likeness w') (N.node n w')) (rescueClause rules)
      (rescueClause rules') := by
  refine tracks_eatTerms.bind fun _ _ _ ended h => ?_
  obtain rfl := h
  refine .ite Iff.rfl (hr.stmts.bind fun _ _ body body' hb => ?_) ?_
  · exact .pure id fun _ hw => .mk .nil .none (hb.mono (N.mono hw))
  · refine (tracks_rescueClasses hr).bind fun _ _ classes classes' hc =>
      tracks_rescueBinder.bind fun _ h₁ binder? binder?' hx =>
        (tracks_opening .kThen).bind fun _ h₂ _ _ _ => hr.stmts.bind fun _ h₃ body body' hb =>
          .pure id fun _ h₄ => .mk ?_ ?_ (hb.mono (N.mono h₄))
    · exact N.nodes_mono (h₁.trans (h₂.trans (h₃.trans h₄))) hc
    · exact rel_imp (N.mono (h₂.trans (h₃.trans h₄))).2 hx

theorem tracks_nextRescue {rs rs' : List (RescueClause Node)} (h : N.clauses n w rs rs') :
    TracksOn N n w (further (N.clauses n)) (nextRescue rules rs) (nextRescue rules' rs') := by
  refine .eat (tracks_eatKeyword .kRescue) ?_ (.pure id fun _ _ => .none)
  refine (tracks_rescueClause hr).bind fun _ h₁ clause clause' hc => .pure id fun _ h₂ => .some ?_
  exact List.rel_append (N.clauses_mono (h₁.trans h₂) h) (N.clauses_mono h₂ (.cons hc .nil))

theorem tracks_rescueClauses :
    TracksOn N n w (N.clauses n) (rescueClauses rules) (rescueClauses rules') :=
  .chain (fun _ _ _ _ hw => N.clauses_mono hw) (fun _ _ _ _ => tracks_nextRescue hr) .nil

omit hr in
/-- A part that is there is tracked as an optional one. -/
theorem Tracks.part {p q : Parser Node} (h : Tracks N n w b (fun _ => b') (N.node n) p q) :
    Tracks N n w b (fun _ => b') (N.part n) (some <$> p) (some <$> q) :=
  h.map fun _ _ _ _ ha _ hw => .some (ha.mono (N.mono hw))

theorem tracks_otherwiseClause (rescued : Bool) :
    TracksOn N n w (N.part n) (otherwiseClause rules rescued) (otherwiseClause rules' rescued) :=
  .eat (tracks_eatKeyword .kElse)
    (.ite Iff.rfl hr.stmts.part (tracks_prevSpan.bind fun _ _ _ _ hs => .failAt hs))
    (.pure id fun _ _ => .none)

theorem tracks_ensureClause :
    TracksOn N n w (N.part n) (ensureClause rules) (ensureClause rules') :=
  .eat (tracks_eatKeyword .kEnsure) hr.stmts.part (.pure id fun _ _ => .none)

omit hr in
/-- A part that is missing is nothing at the same place, moved. -/
theorem alike_getD {a? b? : Option Node} (place : Span) (h : N.part n w a? b?) :
    N.node n w (a?.getD (.nop place)) (b?.getD (.nop (place.shift n))) := by
  cases h with
  | none => exact Node.alike_nop place
  | some h => exact h

/-- A body with its clauses has the same clauses on both sides. -/
theorem tracks_guardedBody :
    TracksOn N n w (N.node n) (guardedBody rules) (guardedBody rules') := by
  refine hr.stmts.bind fun _ _ body body' hb => (tracks_rescueClauses hr).bind
    fun _ h₁ rescues rescues' hc => ?_
  have empty : rescues'.isEmpty = rescues.isEmpty := by cases hc <;> rfl
  rw [empty]
  refine (tracks_otherwiseClause hr _).bind fun _ h₂ otherwise otherwise' ho =>
    (tracks_ensureClause hr).bind fun _ h₃ cleanup cleanup' hu => .ite ?_ ?_ ?_
  · cases hu <;> rfl
  · exact .pure id fun _ h₄ => hb.mono (N.mono (h₁.trans (h₂.trans (h₃.trans h₄))))
  · refine tracks_placed fun _ h₄ s => ?_
    rw [hb.span_eq, ← Span.shift_merge]
    exact (Node.Congr.guarded _ (hb.mono (N.mono (h₁.trans (h₂.trans (h₃.trans h₄)))))
      (N.clauses_mono (h₂.trans (h₃.trans h₄)) hc) (alike_getD _ (N.part_mono (h₃.trans h₄) ho))
      (alike_getD _ (N.part_mono h₄ hu))).alike

theorem tracks_beginBlock (place : Span) :
    TracksOn N n w (N.node n) (beginBlock rules place) (beginBlock rules' (place.shift n)) := by
  refine (tracks_guardedBody hr).bind fun w₁ _ node node' hn =>
    (tracks_expectKeyword .kEnd).bind fun w₂ h₂ _ _ _ => ?_
  have wrapped : TracksOn N n w₂ (N.node n)
      (prevSpan >>= fun s => pure (.ofStmts (place.merge s) [node]))
      (prevSpan >>= fun s => pure (.ofStmts ((place.shift n).merge s) [node'])) := by
    refine tracks_placed fun _ h₃ s => ?_
    rw [← Span.shift_merge]
    exact Node.alike_ofStmts _ (.cons (hn.mono (N.mono (h₂.trans h₃))) .nil)
  cases hn.congr with
  | guarded => exact .pure id fun _ h₃ => hn.mono (N.mono (h₂.trans h₃))
  | _ => exact wrapped

/-! ### Definitions -/

omit hr in
theorem tracks_setterName (text : String) :
    TracksOn N n w N.named (setterName text) (setterName text) := by
  refine .seen (fun c d _ h => ?_) (tracks_take.andThen fun _ _ => tracks_intern _)
    (tracks_intern _)
  simp only [h.current.kind, h.hasGap]

omit hr in
theorem tracks_definedName {t t' : Token} (ht : t.Later N n t') :
    TracksOn N n w N.named (definedName t) (definedName t') := by
  unfold definedName
  rw [ht.kind]
  split
  · exact tracks_setterName _
  · exact tracks_setterName _
  · exact tracks_setterName _
  · exact tracks_operatorName _
  · exact .failAt ht.span

/-- A parameter that has been named before is refused on both sides. -/
theorem tracks_param {ps ps' : List (Param Node)} (h : N.params n w ps ps') :
    TracksOn N n w (fun w' => Node.AlikeParam (N.likeness w') (N.node n w')) (param rules ps)
      (param rules' ps') := by
  refine tracks_current.bind fun _ h₁ t t' ht => tracks_expectIdent.bind fun w₂ h₂ x y hn =>
    .under fun w₃ h₃ hv => ?_
  have named := (N.mono h₃).1 _ _ (N.same_of_word hn)
  have taken : ps.any (fun p => p.name = x) = ps'.any (fun p => p.name = y) := by
    refine Cursor.rel_any (fun p p' hp => ?_) (N.params_mono (h₁.trans (h₂.trans h₃)) h)
    obtain ⟨hn', _⟩ := hp
    simpa using N.eq_iff hv (N.same_of_word hn') named
  have optional : ps.any (fun p => p.default?.isSome) = ps'.any (fun p => p.default?.isSome) := by
    refine Cursor.rel_any (fun p p' hp => ?_) h
    obtain ⟨_, hd⟩ := hp
    cases hd <;> rfl
  rw [taken, optional]
  refine .ite Iff.rfl (.failAt ht.span)
    ((tracks_declare ((N.mono h₃).2 _ _ hn)).bind fun _ h₄ _ _ _ => ?_)
  have word {w' : Tables} (hw : w₃ ≤ w') : N.worded w' x y := (N.mono (h₃.trans hw)).2 _ _ hn
  refine .eat (tracks_eatPunctHere .assign) ?_ (.ite Iff.rfl (.failAt ht.span) ?_)
  · exact hr.arg.any.bind fun _ h₅ value value' hv => .pure id fun _ h₆ =>
      .mk (word (h₄.trans (h₅.trans h₆))) (.some (hv.mono (N.mono h₆)))
  · exact .pure id fun _ h₅ => .mk (word (h₄.trans h₅)) .none

theorem tracks_someParams :
    TracksOn N n w (N.params n) (someParams rules) (someParams rules') := by
  refine Tracks.bind (V := fun w' r r' => N.params n w' r.1 r'.1 ∧ r'.2 = r.2)
    (.chain ?_ ?_ ⟨.nil, rfl⟩) ?_
  · exact fun _ _ _ _ hw h => ⟨N.params_mono hw h.1, h.2⟩
  · rintro w₁ _ ⟨ps, more⟩ ⟨ps', more'⟩ ⟨hp, rfl⟩
    refine .ite Iff.rfl (.pure id fun _ _ => .none) ((tracks_param hr hp).bind ?_)
    intro w₂ h₂ p p' hpar
    refine (tracks_eatPunct .comma).bind fun w₃ h₃ _ comma h => ?_
    obtain rfl := h
    refine .pure (fun _ => rfl) fun w₄ h₄ => .some ⟨List.rel_append ?_ ?_, rfl⟩
    · exact N.params_mono (h₂.trans (h₃.trans h₄)) hp
    · exact N.params_mono (h₃.trans h₄) (.cons hpar .nil)
  · exact fun _ _ r r' h => .pure id fun _ hw => N.params_mono hw h.1

theorem tracks_anyParams :
    TracksOn N n w (N.params n) (anyParams rules) (anyParams rules') := by
  refine .eat (tracks_eatPunctHere .lparen) (.eat (tracks_eatPunct .rparen) ?_ ?_) ?_
  · exact .pure id fun _ _ => .nil
  · exact (tracks_someParams hr).bind fun _ _ ps ps' hp => (tracks_expectPunct .rparen).bind
      fun _ h₁ _ _ _ => .pure id fun _ h₂ => N.params_mono (h₁.trans h₂) hp
  · refine tracks_current.bind fun _ _ t t' ht => ?_
    rw [ht.kind]
    split
    · exact tracks_someParams hr
    · exact .pure id fun _ _ => .nil

theorem tracks_paramList :
    TracksOn N n w (N.params n) (paramList rules) (paramList rules') := by
  refine tracks_eatTerms.bind fun _ _ _ ended h => ?_
  obtain rfl := h
  refine .ite Iff.rfl (.pure id fun _ _ => .nil) ?_
  exact (tracks_anyParams hr).bind fun _ _ ps ps' hp => tracks_eatTerms.bind
    fun _ h₁ _ _ _ => .pure id fun _ h₂ => N.params_mono (h₁.trans h₂) hp

omit hr in
theorem tracks_definitionTarget {t t' : Token} (ht : t.Later N n t') :
    TracksOn N n w (N.part n) (definitionTarget t) (definitionTarget t') := by
  unfold definitionTarget
  refine tracks_current.bind fun _ _ u u' hu => ?_
  rw [ht.kind, hu.kind, ht.span]
  dsimp only
  split
  · split
    · exact .pure id fun _ _ => .some (Node.Congr.self _).alike
    · exact .pure id fun _ _ => .none
  · refine .ite Iff.rfl ((tracks_intern _).bind fun _ _ x y hn => ?_) (.pure id fun _ _ => .none)
    exact .pure id fun _ hw => .some (Node.Congr.const _ ((N.mono hw).1 _ _ hn)).alike
  · exact .pure id fun _ _ => .none

omit hr in
theorem tracks_definitionName {t t' : Token} {a? b? : Option Node} (ht : t.Later N n t')
    (h : N.part n w a? b?) :
    TracksOn N n w N.named (definitionName t a?) (definitionName t' b?) := by
  cases h with
  | some _ =>
      exact tracks_take.andThen fun _ _ => tracks_take.bind fun _ _ u u' hu => tracks_definedName hu
  | none => exact tracks_definedName ht

theorem tracks_methodParts :
    TracksOn N n w (fun w' r r' => N.params n w' r.1 r'.1 ∧ N.node n w' r.2 r'.2)
      (methodParts rules) (methodParts rules') :=
  (tracks_paramList hr).bind fun _ _ _ _ hp => (tracks_guardedBody hr).bind
    fun _ h₁ _ _ hb => .pure id fun _ h₂ =>
      ⟨N.params_mono (h₁.trans h₂) hp, hb.mono (N.mono h₂)⟩

/-- **A definition** opens a body, so that locals are its own on both sides. -/
theorem tracks_methodDefinition (place : Span) :
    TracksOn N n w (N.node n) (methodDefinition rules place)
      (methodDefinition rules' (place.shift n)) := by
  refine tracks_take.bind fun _ _ t t' ht => (tracks_definitionTarget ht).bind
    fun _ _ target? target?' hx => (tracks_definitionName ht hx).bind fun _ h₁ name name' hn =>
      ((tracks_methodParts hr).within .methodBody ?_).bind fun _ h₂ parts parts' hp =>
        (tracks_expectKeyword .kEnd).bind fun _ h₃ _ _ _ => tracks_prevSpan.bind
          fun _ h₄ s s' hs => ?_
  · exact fun _ _ _ _ hw h => ⟨N.params_mono hw h.1, h.2.mono (N.mono hw)⟩
  obtain rfl := hs
  obtain ⟨ps, body⟩ := parts
  obtain ⟨ps', body'⟩ := parts'
  dsimp only
  rw [← Span.shift_merge]
  cases hx with
  | some hx =>
      refine .pure id fun _ h₅ => (Node.Congr.singletonDef _ ?_ ?_ ?_ ?_).alike
      · exact hx.mono (N.mono (h₁.trans (h₂.trans (h₃.trans (h₄.trans h₅)))))
      · exact (N.mono (h₂.trans (h₃.trans (h₄.trans h₅)))).1 _ _ hn
      · exact N.params_mono (h₃.trans (h₄.trans h₅)) hp.1
      · exact hp.2.mono (N.mono (h₃.trans (h₄.trans h₅)))
  | none =>
      refine .pure id fun _ h₅ => (Node.Congr.methodDef _ ?_ ?_ ?_).alike
      · exact (N.mono (h₂.trans (h₃.trans (h₄.trans h₅)))).1 _ _ hn
      · exact N.params_mono (h₃.trans (h₄.trans h₅)) hp.1
      · exact hp.2.mono (N.mono (h₃.trans (h₄.trans h₅)))

omit hr in
theorem tracks_className {t t' : Token} (ht : t.Later N n t') :
    TracksOn N n w N.named (className t) (className t') := by
  unfold className
  rw [ht.kind]
  split
  · exact tracks_intern _
  · exact .failAt ht.span

theorem tracks_classParent :
    TracksOn N n w (N.part n) (classParent rules) (classParent rules') :=
  .eat (tracks_eatPunctHere .less) hr.expr.any.part (.pure id fun _ _ => .none)

theorem tracks_classDefinition (place : Span) :
    TracksOn N n w (N.node n) (classDefinition rules place)
      (classDefinition rules' (place.shift n)) := by
  refine tracks_take.bind fun _ _ t t' ht => (tracks_className ht).bind fun _ _ name name' hn =>
    (tracks_classParent hr).bind fun _ h₁ parent? parent?' hp => tracks_eatTerms.bind
      fun _ h₂ _ _ _ => ((tracks_guardedBody hr).within .classBody ?_).bind
        fun _ h₃ body body' hb => (tracks_expectKeyword .kEnd).bind fun _ h₄ _ _ _ =>
          tracks_placed fun _ h₅ s => ?_
  · exact fun _ _ _ _ hw h => h.mono (N.mono hw)
  rw [← Span.shift_merge]
  refine (Node.Congr.classDef _ ?_ ?_ ?_).alike
  · exact (N.mono (h₁.trans (h₂.trans (h₃.trans (h₄.trans h₅))))).1 _ _ hn
  · exact N.part_mono (h₂.trans (h₃.trans (h₄.trans h₅))) hp
  · exact hb.mono (N.mono (h₄.trans h₅))

/-! ### Operands -/

/-- **Every primary** is tracked, keyword by keyword. -/
theorem tracks_primary : TracksFrom N n w (N.node n) (primary rules) (primary rules') := by
  unfold primary
  refine tracks_take.bind fun w₁ _ t t' ht => ?_
  rw [ht.kind, ht.span]
  dsimp only
  split
  · rename_i text hk
    exact tracks_identifier hr (ht.word text hk) _
  · exact (tracks_intern _).map fun _ _ _ _ hn _ hw =>
      (Node.Congr.instanceVar _ ((N.mono hw).1 _ _ hn)).alike
  · exact tracks_constant hr _ _
  · exact .ite Iff.rfl (.pure id fun _ _ => (Node.Congr.int _ _).alike) (.failAt rfl)
  · exact .pure id fun _ _ => (Node.Congr.float _ _).alike
  · exact .pure id fun _ _ => (Node.Congr.str _ _).alike
  · exact (tracks_intern _).map fun _ _ _ _ hn _ hw =>
      (Node.Congr.symbol _ ((N.mono hw).1 _ _ hn)).alike
  · exact hr.stmts.bind fun _ _ node node' hn => (tracks_expectPunct .rparen).bind
      fun _ h₁ _ _ _ => .pure id fun _ h₂ => hn.mono (N.mono (h₁.trans h₂))
  · refine (tracks_argsUntil hr .rbracket).bind fun _ _ elements elements' he =>
      tracks_placed fun _ hw s => ?_
    rw [← Span.shift_merge]
    exact (Node.Congr.array _ (N.nodes_mono hw he)).alike
  · split
    · exact .pure id fun _ _ => (Node.Congr.nil _).alike
    · exact .pure id fun _ _ => (Node.Congr.bool _ _).alike
    · exact .pure id fun _ _ => (Node.Congr.bool _ _).alike
    · exact .pure id fun _ _ => (Node.Congr.self _).alike
    · exact (tracks_branches hr _).any.bind fun _ _ node node' hn =>
        (tracks_expectKeyword .kEnd).bind
        fun _ h₁ _ _ _ => .pure id fun _ h₂ => hn.mono (N.mono (h₁.trans h₂))
    · exact tracks_unlessBlock hr _
    · exact tracks_whileBlock hr _
    · exact tracks_methodDefinition hr _
    · exact .seen (fun _ _ _ h => h.inMethod) (.failAt rfl) (tracks_classDefinition hr _)
    · exact tracks_beginBlock hr _
    · exact (tracks_jumpValue hr _).map fun _ _ _ _ h _ hw =>
        Node.alike_ofReturn _ (h.mono (N.mono hw))
    · exact (tracks_jumpValue hr _).map fun _ _ _ _ h _ hw =>
        Node.alike_ofBreak _ (h.mono (N.mono hw))
    · exact (tracks_jumpValue hr _).map fun _ _ _ _ h _ hw =>
        Node.alike_ofNext _ (h.mono (N.mono hw))
    · exact .failAt rfl
  · exact .failAt rfl

omit hr in
/-- What is read of a negated expression. -/
theorem tracks_negated {p q : Parser Node} (h : ∀ {w}, TracksFrom N n w (N.node n) p q) :
    TracksOn N n w (N.node n) (prevSpan >>= fun place => .ofNot place <$> p)
      (prevSpan >>= fun place => .ofNot place <$> q) := by
  refine tracks_prevSpan.bind fun _ _ s s' hs => ?_
  obtain rfl := hs
  exact h.any.map fun _ _ _ _ h _ hw => Node.alike_ofNot _ (h.mono (N.mono hw))

theorem tracks_unary : TracksFrom N n w (N.node n) (unary rules) (unary rules') :=
  .eat (tracks_eatPunct .bang) (tracks_negated hr.unary)
    ((tracks_primary hr).bind fun _ _ _ _ hn => tracks_chained hr hn)

omit hr in
theorem tracks_infixCall (p : Punct) {a a' c c' : Node} (ha : N.node n w a a')
    (hc : N.node n w c c') : TracksOn N n w (N.node n) (infixCall p a c) (infixCall p a' c') := by
  refine (tracks_intern _).bind fun _ h₁ x y hn => .pure id fun _ h₂ => ?_
  exact Node.alike_ofInfix ((N.mono h₂).1 _ _ hn) (ha.mono (N.mono (h₁.trans h₂)))
    (hc.mono (N.mono (h₁.trans h₂)))

theorem tracks_power : TracksFrom N n w (N.node n) (power rules) (power rules') := by
  refine (tracks_unary hr).bind fun _ _ left left' hl => .eat (tracks_eatPunctHere .power) ?_ ?_
  · exact hr.signed.any.bind fun _ h₁ right right' ho =>
      tracks_infixCall .power (hl.mono (N.mono h₁)) ho
  · exact .pure id fun _ h₁ => hl.mono (N.mono h₁)

omit hr in
/-- A sign goes with a number directly behind it, which a gap tells on both sides. -/
theorem tracks_signedNumber (place : Span) :
    TracksOn N n w (N.part n) (signedNumber? place) (signedNumber? (place.shift n)) := by
  unfold signedNumber?
  refine tracks_current.bind fun _ _ t t' ht => ?_
  rw [ht.kind, ht.span, ← Span.shift_merge]
  dsimp only
  split
  · refine .ite Iff.rfl (tracks_advance.andThen fun _ _ => ?_) (.failAt rfl)
    exact .pure id fun _ _ => .some (Node.Congr.int _ _).alike
  · exact tracks_advance.andThen fun _ _ => .pure id fun _ _ => .some (Node.Congr.float _ _).alike
  · exact .pure id fun _ _ => .none

omit hr in
theorem tracks_signedLiteral (place : Span) :
    TracksOn N n w (N.part n) (signedLiteral? place) (signedLiteral? (place.shift n)) :=
  .seen (fun _ _ _ h => h.isSecond .power) (.pure id fun _ _ => .none) (tracks_signedNumber place)

theorem tracks_signed : TracksFrom N n w (N.node n) (signed rules) (signed rules') := by
  refine .eat (tracks_eatPunct .minus) (tracks_prevSpan.bind fun _ _ s s' hs => ?_)
    (tracks_power hr)
  obtain rfl := hs
  refine (tracks_signedLiteral s).bind fun _ _ literal? literal?' hl => ?_
  cases hl with
  | some hl => exact tracks_chained hr hl
  | none =>
      refine .under fun _ _ hv => hr.signed.any.bind fun _ h₁ operand operand' ho => ?_
      refine .pure id fun _ h₂ => ?_
      rw [ho.span_eq, ← Span.shift_merge]
      exact Node.alike_ofSend _ (.some (ho.mono (N.mono h₂)))
        ((N.mono (h₁.trans h₂)).1 _ _ (N.minus hv)) .nil

/-! ### Operators -/

omit hr in
theorem tracks_eatOperator (level : Level) :
    TracksOn N n w alike (eatOperator level) (eatOperator level) := by
  refine tracks_current.bind fun _ _ t t' ht => ?_
  rw [ht.kind]
  split
  · exact .ite Iff.rfl (tracks_take.andThen fun _ _ => .pure id fun _ _ => rfl)
      (.pure id fun _ _ => rfl)
  · exact .pure id fun _ _ => rfl

omit hr in
theorem tracks_join (level : Level) (p : Punct) {a a' c c' : Node} (ha : N.node n w a a')
    (hc : N.node n w c c') : TracksOn N n w (N.node n) (level.join p a c) (level.join p a' c') := by
  unfold Level.join
  split
  · exact .pure id fun _ hw => Node.alike_ofOr (ha.mono (N.mono hw)) (hc.mono (N.mono hw))
  · exact .pure id fun _ hw => Node.alike_ofAnd (ha.mono (N.mono hw)) (hc.mono (N.mono hw))
  · exact tracks_infixCall p ha hc

omit hr in
theorem tracks_extend (level : Level) {p q : Parser Node}
    (h : ∀ {w}, TracksFrom N n w (N.node n) p q) {left left' : Node} (hl : N.node n w left left') :
    TracksOn N n w (further (N.node n)) (level.extend p left) (level.extend q left') := by
  refine (tracks_eatOperator level).bind fun _ h₁ _ op? ho => ?_
  obtain rfl := ho
  cases op? with
  | some op =>
      exact h.any.bind fun _ h₂ right right' hR =>
        (tracks_join level op (hl.mono (N.mono (h₁.trans h₂))) hR).part
  | none => exact .pure id fun _ _ => .none

/-- **Operators** are tracked level by level. -/
theorem tracks_operation (levels : List Level) :
    TracksFrom N n w (N.node n) (operation rules levels) (operation rules' levels) := by
  induction levels generalizing w with
  | nil => exact tracks_signed hr
  | cons level tighter ih =>
      refine ih.bind fun _ _ left left' hl => ?_
      split
      · refine (tracks_extend level ih hl).bind fun _ h₁ node? node?' hn => ?_
        cases hn with
        | some hn => exact .pure id fun _ hw => hn.mono (N.mono hw)
        | none => exact .pure id fun _ hw => hl.mono (N.mono (h₁.trans hw))
      · exact .chain (fun _ _ _ _ hw h => h.mono (N.mono hw))
          (fun _ _ _ _ => tracks_extend level ih) hl

omit hr in
/-- A target is refused on both sides, for the same reason. -/
theorem tracks_checkTarget {target target' : Node} (ht : N.node n w target target') :
    TracksOn N n w alike (checkTarget target) (checkTarget target') := by
  cases ht.congr with
  | ident s hn => exact tracks_declare hn
  | instanceVar => exact .pure id fun _ _ => rfl
  | const => exact .seen (fun _ _ _ h => h.inMethod) (.failAt rfl) (.pure id fun _ _ => rfl)
  | @send s x y r r' as bs hr hn ha =>
      cases hr with
      | none => exact .failAt rfl
      | some =>
          refine .under fun w₁ h₁ hv => .ite ?_ (.pure id fun _ _ => rfl) (.failAt rfl)
          have empty : as.isEmpty = bs.isEmpty := by cases ha <;> rfl
          have indexed := N.eq_iff hv ((N.mono h₁).1 _ _ hn) (N.subscript hv)
          simp [empty, indexed]
  | _ => exact .failAt ht.span_eq

theorem tracks_assignment : TracksFrom N n w (N.node n) (assignment rules) (assignment rules') := by
  refine (tracks_operation hr levels).bind fun w₁ _ left left' hl =>
    .eat (tracks_eatPunctHere .assign) ?_ (tracks_eatAssignOp.bind fun _ h₂ _ op? ho => ?_)
  · refine (tracks_checkTarget hl).bind fun _ h₂ _ _ _ =>
      hr.arg.any.bind fun _ h₃ right right' ho =>
      .pure id fun _ h₄ => ?_
    exact Node.alike_ofAssign (hl.mono (N.mono (h₂.trans (h₃.trans h₄)))) (ho.mono (N.mono h₄))
  · obtain rfl := ho
    cases op? with
    | none => exact .pure id fun _ hw => hl.mono (N.mono (h₂.trans hw))
    | some op =>
        refine (tracks_checkTarget (hl.mono (N.mono h₂))).bind fun _ h₃ _ _ _ => hr.arg.any.bind
          fun _ h₄ right right' ho => (tracks_intern _).bind fun _ h₅ x y hn =>
            .pure id fun w₆ h₆ => ?_
        have target : N.node n w₆ left left' :=
          hl.mono (N.mono (h₂.trans (h₃.trans (h₄.trans (h₅.trans h₆)))))
        exact Node.alike_ofAssign target (Node.alike_ofInfix ((N.mono h₆).1 _ _ hn) target
          (ho.mono (N.mono (h₅.trans h₆))))

/-! ### Statements -/

theorem tracks_expression : TracksFrom N n w (N.node n) (expression rules) (expression rules') :=
  .eat (tracks_eatKeyword .kNot) (tracks_negated hr.expr) (tracks_assignment hr)

theorem tracks_modified {node node' : Node} (hn : N.node n w node node') :
    TracksOn N n w (further (N.node n)) (modified rules node) (modified rules' node') := by
  have modifier {f f' : Span → Node → Node} (hf : ∀ w', w ≤ w' → ∀ s test test',
      N.node n w' test test' → N.node n w' (f s test) (f' (s.shift n) test')) :
      TracksOn N n w (further (N.node n))
        (prevSpan >>= fun s => rules .expr >>= fun test => pure (some (f s test)))
        (prevSpan >>= fun s => rules' .expr >>= fun test => pure (some (f' s test))) := by
    refine tracks_prevSpan.bind fun _ h₁ s s' hs => hr.expr.any.bind fun _ h₂ test test' ht => ?_
    obtain rfl := hs
    exact .pure id fun _ h₃ =>
      .some (hf _ (h₁.trans (h₂.trans h₃)) s test test' (ht.mono (N.mono h₃)))
  refine .eat (tracks_eatKeywordHere .kIf) (modifier fun _ hw s _ _ ht => ?_) ?_
  · exact Node.alike_ofCond s ht (hn.mono (N.mono hw)) (Node.alike_nop s)
  refine .eat (tracks_eatKeywordHere .kUnless) (modifier fun _ hw s _ _ ht => ?_) ?_
  · exact Node.alike_ofCond s ht (Node.alike_nop s) (hn.mono (N.mono hw))
  refine .eat (tracks_eatKeywordHere .kWhile) (modifier fun _ hw s _ _ ht => ?_) ?_
  · exact Node.alike_ofLoop s ht (hn.mono (N.mono hw))
  exact .pure id fun _ _ => .none

theorem tracks_statement : TracksFrom N n w (N.node n) (statement rules) (statement rules') :=
  (tracks_expression hr).bind fun _ _ _ _ hn =>
    .chain (fun _ _ _ _ hw h => h.mono (N.mono hw)) (fun _ _ _ _ => tracks_modified hr) hn

/-- Statements that are being read, in the second reading after others. -/
abbrev listedAfter (N : Naming) (n : Nat) (before : List Node) :
    Tables → List Node × Bool → List Node × Bool → Prop :=
  fun w r r' => ∃ body', r'.1 = body' ++ before ∧ listed N n w r (body', r'.2)

/-- A statement is tracked behind the statements before it. -/
theorem tracks_nextStatement (before : List Node) {r r' : List Node × Bool}
    (h : listedAfter N n before w r r') :
    Tracks N n w b (fun _ => b) (further (listedAfter N n before)) (nextStatement rules r)
      (nextStatement rules' r') := by
  obtain ⟨body, more⟩ := r
  obtain ⟨_, _⟩ := r'
  obtain ⟨body', rfl, hb, rfl⟩ := h
  refine .ite Iff.rfl (.pure id fun _ _ => .none) (tracks_ahead.bind fun _ h₁ t t' ht => ?_)
  rw [ht.kind]
  refine .ite Iff.rfl (.pure id fun _ _ => .none) ((tracks_statement hr).any.bind ?_)
  intro _ h₂ node node' hn
  refine tracks_eatTerms.bind fun _ h₃ _ more hm => ?_
  obtain rfl := hm
  refine .pure (fun _ => rfl) fun w₄ h₄ => .some ⟨node' :: body', rfl, .cons ?_ ?_, rfl⟩
  · exact hn.mono (N.mono (h₃.trans h₄))
  · exact N.nodes_mono (h₁.trans (h₂.trans (h₃.trans h₄))) hb

/-- All the statements that follow, in the second reading after others. -/
theorem tracks_statementsAfter (before : List Node) :
    Tracks N n w b (fun _ => b) (listedAfter N n before) (chain (nextStatement rules) ([], true))
      (chain (nextStatement rules') (before, true)) := by
  refine .chain ?_ (fun _ _ _ _ => tracks_nextStatement hr before) ⟨[], rfl, .nil, rfl⟩
  rintro _ _ _ _ hw ⟨body', hb, hl, hm⟩
  exact ⟨body', hb, N.nodes_mono hw hl, hm⟩

theorem tracks_statements :
    Tracks N n w b (fun _ => b) (N.node n) (statements rules) (statements rules') := by
  refine tracks_eatTerms.andThen fun _ _ => tracks_current.bind fun _ _ t t' ht =>
    (tracks_statementsAfter hr []).bind fun _ _ r r' h => ?_
  obtain ⟨_, _⟩ := r'
  obtain ⟨body', rfl, hl, -⟩ := h
  rw [ht.span, List.append_nil]
  exact .pure id fun _ hw => Node.alike_ofStmts _ (List.rel_reverse (N.nodes_mono hw hl))

/-- **All rules** track each other if their parts do. -/
theorem tracks_ofRule : Rules.Track N n (ofRule rules) (ofRule rules') :=
  ⟨tracks_statements hr, tracks_expression hr, tracks_assignment hr, tracks_signed hr,
    tracks_unary hr, fun place => tracks_branches hr place⟩

omit hr in
/-- **Every rule reads the same tokens in the same way**, as long as there is fuel. -/
theorem tracks_rule (m m' : Nat) : Rules.Track N n (rule m) (rule m') := by
  induction m generalizing m' with
  | zero => exact ⟨.exhaust, .exhaust, .exhaust, .exhaust, .exhaust, fun _ => .exhaust⟩
  | succ m ih =>
      cases m' with
      | zero =>
          exact ⟨.exhausted, .exhausted, .exhausted, .exhausted, .exhausted, fun _ => .exhausted⟩
      | succ m' => exact tracks_ofRule (ih m')

omit hr in
/-- A whole program is tracked, with any amount of fuel. -/
theorem tracks_program (m m' : Nat) :
    Tracks N n w b (fun _ => b) (N.node n) (program m) (program m') := by
  refine (tracks_rule m m').stmts.bind fun _ _ node node' hn =>
    tracks_ahead.bind fun _ h t t' ht => ?_
  rw [ht.kind]
  exact .ite Iff.rfl (.pure id fun _ hw => hn.mono (N.mono (h.trans hw))) (.failAt ht.span)

end Parser

end MiniRuby
