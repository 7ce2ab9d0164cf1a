import MiniRuby.Proofs.Grammar.Cut
import MiniRuby.Proofs.Grammar.Moves
import Mathlib.Data.List.DropRight

/-!
# Reading a text that goes on

A text is read together with the same text that goes on with further lines.  As long as the reader
does not come to the end of the text, both readings are the same.  What is read up to there stays
as it is, unless a dot follows.  Where a token is missing, it can be supplied in the lines that
follow, and all that is open can be closed there; so a reader that finds the text incomplete can
always be satisfied.

Both readings are followed together (`Parser.Continues`).  A reader is told apart by how it may come
to the end of the text (`Late`) and by what has to follow then (`Piece`).

* `Parser.Continues.bind`: what follows an answer has to cope with the end of the text in the ways
  in which the answer can be given there, and what it needs is written after what the answer needed.
* `Parser.Continues.chain`: a loop goes on if its rounds do.
-/

namespace MiniRuby

/-! ### What is missing -/

/-- What is written on a line of its own to go on with a text. -/
inductive Piece where
  /-- An operand, or the name of a method. -/
  | operand
  /-- The word that closes a body. -/
  | «end»
  | rparen
  | rbracket
  /-- The name of a class. -/
  | const
  /-- The name of a variable. -/
  | binder
  /-- A parameter with a default value, whose name has the given length. -/
  | param (length : Nat)

namespace Piece

/-- A name that is `n + 1` characters long. -/
def name (n : Nat) : String := String.ofList ('x' :: List.replicate n 'x')

/-- The first token of a piece. -/
def head : Piece → TokenKind
  | operand => .keyword .kNil
  | «end» => .keyword .kEnd
  | rparen => .punct .rparen
  | rbracket => .punct .rbracket
  | const => .const "X"
  | binder => .ident (name 0)
  | param n => .ident (name n)

/-- The other tokens of a piece. -/
def tail : Piece → List TokenKind
  | param _ => [.punct .assign, .lineTerm, .keyword .kNil]
  | _ => []

/-- The tokens of a piece and of the line break before it. -/
def kinds (p : Piece) : List TokenKind := .lineTerm :: p.head :: p.tail

/-- The first token of what comes next, which may be the end of the text. -/
def first : Option Piece → TokenKind
  | some p => p.head
  | none => .eof

end Piece

/-- The tokens of several pieces. -/
abbrev kindsOf (r : List Piece) : List TokenKind := r.flatMap Piece.kinds

/-- Tokens on a new line, the first of which is that of one of certain pieces. -/
def NewLine (H : Option Piece → Prop) (tokens : List Token) : Prop :=
  ∃ next brk t rest, H next ∧ tokens = brk :: t :: rest ∧ brk.kind = .lineTerm ∧
    t.kind = Piece.first next

/-- Whether pieces that are followed by one of `H` begin with one of `G`. -/
def Fits (H G : Option Piece → Prop) : List Piece → Prop
  | [] => ∀ next, H next → G next
  | p :: _ => G (some p)

/-- Any piece may come next. -/
abbrev anyPiece : Option Piece → Prop := fun _ => True

/-- The pieces that end statements, and the end of the text. -/
def endsBody : Option Piece → Prop
  | none | some .end | some .rparen => True
  | _ => False

/-- Where anything may follow, everything fits. -/
theorem Fits.any (H : Option Piece → Prop) (r : List Piece) : Fits H anyPiece r := by
  cases r with
  | nil => exact fun _ _ => trivial
  | cons p r => trivial

/-- A new line before certain pieces is one before more. -/
theorem NewLine.mono {H G : Option Piece → Prop} {k : List Token} (h : NewLine H k)
    (hH : ∀ next, H next → G next) : NewLine G k := by
  obtain ⟨next, brk, t, rest, hn, hk⟩ := h
  exact ⟨next, brk, t, rest, hH next hn, hk⟩

/-- Pieces and what follows them are on new lines. -/
theorem NewLine.append {H G : Option Piece → Prop} {k ts : List Token} {r : List Piece}
    (h : NewLine H k) (hr : Fits H G r) (ht : ts.map Token.kind = kindsOf r) :
    NewLine G (ts ++ k) := by
  cases r with
  | nil =>
      obtain rfl : ts = [] := by simpa using ht
      exact h.mono hr
  | cons p r =>
      obtain ⟨brk, ts, rfl, hb, ht⟩ := List.map_eq_cons_iff.mp ht
      obtain ⟨t, ts, rfl, hp, -⟩ := List.map_eq_cons_iff.mp ht
      exact ⟨some p, brk, t, ts ++ k, hr, rfl, hb, hp⟩

/-! ### Tokens that go on -/

/-- One row of tokens is another one that goes on: in place of its end it has further ones, which
start with a line break. -/
inductive Prolonged (more : List Token) : List Token → List Token → Prop where
  | eof {last brk : Token} {lines : List Token} (hl : last.kind = .eof)
      (hb : brk.kind = .lineTerm) (hs : brk.span = last.span) (hm : more = brk :: lines) :
      Prolonged more [last] more
  | brk {brk last : Token} {lines : List Token} (hl : last.kind = .eof)
      (hb : brk.kind = .lineTerm) (hm : more = brk :: lines) : Prolonged more [brk, last] more
  | cons {ts us : List Token} (t : Token) (ht : t.kind.isEof = false)
      (h : Prolonged more ts us) : Prolonged more (t :: ts) (t :: us)

/-- Whether the further tokens do not start with a dot, line breaks aside. -/
def Plain (more : List Token) : Prop :=
  ∀ t ∈ (more.dropWhile (·.kind.isLineTerm)).head?, t.kind.isPunct .dot = false

/-- No piece starts with a line break or with a dot. -/
theorem Piece.first_ne (next : Option Piece) :
    (first next).isLineTerm = false ∧ (first next).isPunct .dot = false := by
  cases next with
  | none => exact ⟨rfl, rfl⟩
  | some p => cases p <;> exact ⟨rfl, rfl⟩

/-- The first token on a new line, line breaks aside. -/
theorem NewLine.significant {H : Option Piece → Prop} {k : List Token} (h : NewLine H k) :
    ∃ next t rest, H next ∧ t.kind = Piece.first next ∧ k.tail = t :: rest ∧
      k.dropWhile (·.kind.isLineTerm) = t :: rest := by
  obtain ⟨next, brk, t, rest, hn, rfl, hb, ht⟩ := h
  have hb : brk.kind.isLineTerm = true := by rw [hb]; rfl
  have ht' : t.kind.isLineTerm = false := by rw [ht]; exact (Piece.first_ne next).1
  exact ⟨next, t, rest, hn, ht, rfl, by simp [hb, ht']⟩

/-- A new line does not start with a dot, so it does not go on with the line before it. -/
theorem NewLine.plain {H : Option Piece → Prop} {k : List Token} (h : NewLine H k) : Plain k := by
  obtain ⟨next, t, rest, -, ht, -, hk⟩ := h.significant
  intro u hu
  rw [hk] at hu
  cases hu
  rw [ht]
  exact (Piece.first_ne next).2

/-- Whether tokens are certain other ones, but for line breaks in front: further ones, and if the
cursor is not known to stand before a line break, perhaps none. -/
def Stands (before : Bool) (k rest : List Token) : Prop :=
  match before with
  | true => ∃ breaks : List Token, (∀ b ∈ breaks, b.kind.isLineTerm = true) ∧ rest = breaks ++ k
  | false => rest.dropWhile (·.kind.isLineTerm) = k.dropWhile (·.kind.isLineTerm)

/-- A cursor may stand at the start of the further tokens. -/
theorem Stands.refl (before : Bool) (k : List Token) : Stands before k k := by
  cases before with
  | true => exact ⟨[], nofun, rfl⟩
  | false => rfl

theorem dropWhile_breaks {breaks k : List Token} (h : ∀ b ∈ breaks, b.kind.isLineTerm = true) :
    (breaks ++ k).dropWhile (·.kind.isLineTerm) = k.dropWhile (·.kind.isLineTerm) := by
  induction breaks with
  | nil => rfl
  | cons b breaks ih =>
      have hb : b.kind.isLineTerm = true := h b (.head _)
      simpa [List.dropWhile_cons, hb] using ih fun b hb => h b (.tail _ hb)

/-- Line breaks aside, the tokens are the further ones. -/
theorem Stands.dropWhile {before : Bool} {k rest : List Token} (h : Stands before k rest) :
    rest.dropWhile (·.kind.isLineTerm) = k.dropWhile (·.kind.isLineTerm) := by
  cases before with
  | true =>
      obtain ⟨breaks, hb, rfl⟩ := h
      exact dropWhile_breaks hb
  | false => exact h

/-- A reader at the end of the text stands before what the text goes on with. -/
theorem Prolonged.cases {more ts us : List Token} (h : Prolonged more ts us) :
    (AtEnd ts ∧ Stands true more us) ∨
      ∃ t ts' us', t.kind.isLineTerm = false ∧ t.kind.isEof = false ∧ Prolonged more ts' us' ∧
        ts.dropWhile (·.kind.isLineTerm) = t :: ts' ∧
        us.dropWhile (·.kind.isLineTerm) = t :: us' := by
  induction h with
  | eof hl _ _ _ => exact .inl ⟨.eof hl, .refl true more⟩
  | @brk brk last lines hl hb hm =>
      exact .inl ⟨⟨last, hl, by simp [hb, hl, TokenKind.isLineTerm]⟩, .refl true more⟩
  | @cons ts us t ht h ih =>
      cases hb : t.kind.isLineTerm with
      | false => exact .inr ⟨t, ts, us, hb, ht, h, by simp [hb], by simp [hb]⟩
      | true =>
          simp only [List.dropWhile_cons, hb, if_true]
          refine ih.imp_left ?_
          rintro ⟨⟨last, hl, he⟩, breaks, hbs, rfl⟩
          refine ⟨⟨last, hl, by simpa [List.dropWhile_cons, hb] using he⟩, t :: breaks, ?_, rfl⟩
          intro b hmem
          rcases List.mem_cons.mp hmem with rfl | hmem
          · exact hb
          · exact hbs b hmem

/-- At the end of the text stands what the text goes on with. -/
theorem Prolonged.stands {more ts us : List Token} (h : Prolonged more ts us) (hat : AtEnd ts) :
    Stands true more us := by
  rcases h.cases with ⟨-, hs⟩ | ⟨t, ts', us', -, he, -, hts, -⟩
  · exact hs
  · obtain ⟨last, hl, hat⟩ := hat
    rw [hts] at hat
    cases hat
    simp [hl, TokenKind.isEof] at he

/-- Whether two tokens are the same, or the one is the end of the text and the other the line break
that stands in its place. -/
def Token.Alike (t t' : Token) : Prop :=
  t = t' ∨ t.kind = .eof ∧ t'.kind = .lineTerm ∧ t.span = t'.span

theorem Token.Alike.span {t t' : Token} (h : t.Alike t') : t.span = t'.span := by
  rcases h with rfl | ⟨-, -, h⟩
  · rfl
  · exact h

/-- Whether one cursor stands at the same place of a text as another one of the text that goes
on. -/
structure Cursor.Prolongs (more : List Token) (c d : Cursor) : Prop where
  tokens : Prolonged more c.rest d.rest
  prev : c.prev = d.prev
  names : c.names = d.names
  bodies : c.bodies = d.bodies

/-! ### Readers -/

/-- How a reader may come to the end of the text: in the text that ends there, and in the text that
goes on, with the cursor before a line break or just somewhere at the further lines. -/
structure Late where
  ending : Prop
  going : Bool → Prop

namespace Late

/-- Not at all. -/
def never : Late := ⟨False, fun _ => False⟩

/-- In any way. -/
def always : Late := ⟨True, fun _ => True⟩

/-- Only in the text that goes on, and before a line break. -/
def before : Late := ⟨False, fun b => b = true⟩

/-- In either text, before a line break. -/
def here : Late := ⟨True, fun b => b = true⟩

/-- Only if something is the case. -/
def given (p : Prop) (e : Late) : Late := ⟨p ∧ e.ending, fun b => p ∧ e.going b⟩

instance : LE Late := ⟨fun e e' => (e.ending → e'.ending) ∧ ∀ b, e.going b → e'.going b⟩

theorem le_refl (e : Late) : e ≤ e := ⟨id, fun _ => id⟩

/-- What may be at the end may be there in any way. -/
theorem le_always (e : Late) : e ≤ always := ⟨fun _ => trivial, fun _ _ => trivial⟩

theorem never_le (e : Late) : never ≤ e := ⟨False.elim, fun _ => False.elim⟩

theorem not_before : ¬before.going false := nofun

theorem not_never : ¬never.going false := id

/-- What may be at the end under a condition may be there without it. -/
theorem given_le {p : Prop} {e : Late} : given p e ≤ e := ⟨And.right, fun _ => And.right⟩

theorem given_le_given {p : Prop} {e e' : Late} (h : e ≤ e') : given p e ≤ given p e' :=
  ⟨fun hp => ⟨hp.1, h.1 hp.2⟩, fun b hp => ⟨hp.1, h.2 b hp.2⟩⟩

theorem given_false_le {p : Prop} {e e' : Late} (h : ¬p) : given p e ≤ e' :=
  ⟨fun h' => (h h'.1).elim, fun _ h' => (h h'.1).elim⟩

end Late

namespace Parser

variable {α β : Type} {e e' : Late} {r s : List Piece} {H G : Option Piece → Prop}
  {x x' : α → Late} {y : β → Late}

/-- Whether an outcome is an answer of a certain kind; it may also be that there was too little
fuel. -/
def Yields (P : α → Cursor → Prop) : Outcome Cursor SyntaxError α → Prop
  | .done a c => P a c
  | .failed _ _ => False
  | .halted _ => True

/-- Less may be said of an answer. -/
theorem Yields.mono {P P' : α → Cursor → Prop} {o : Outcome Cursor SyntaxError α}
    (h : Yields P o) (hP : ∀ a c, P a c → P' a c) : Yields P' o := by
  cases o with
  | done a c => exact hP a c h
  | failed e c => exact h
  | halted c => exact h

/-- **Answers in a row** are of the kind that the last one is of. -/
theorem Yields.bind {P : α → Cursor → Prop} {R : β → Cursor → Prop} {q : Parser α}
    {g : α → Parser β} {d : Cursor} (h : Yields P (q d))
    (hg : ∀ a d', P a d' → Yields R (g a d')) : Yields R ((q >>= g) d) := by
  rw [Action.bind_apply]
  cases e : q d with
  | done a d' =>
      rw [e] at h
      exact hg a d' h
  | failed e' d' =>
      rw [e] at h
      exact h
  | halted d' => trivial

/-- An answer that may be given at the further lines, and where it leaves the cursor. -/
def Leaves (x : α → Late) (k : List Token) (a : α) (d : Cursor) : Prop :=
  ∃ b, (x a).going b ∧ Stands b k d.rest

/-- A reader answers in the text that goes on what it answers in the text that ends. -/
def Exact (p q : Parser α) (c : Cursor) : Prop :=
  ∃ a c', p c = .done a c' ∧ ∀ more d, Plain more → c.Prolongs more d →
    Yields (fun a' d' => a' = a ∧ c'.Prolongs more d') (q d)

/-- A reader comes to the end of the text, and it answers if the text goes on with certain
pieces. -/
def Closable (H : Option Piece → Prop) (x : α → Late) (p q : Parser α) (c : Cursor) : Prop :=
  (∀ a c', p c = .done a c' → (x a).ending ∧ AtEnd c'.rest) ∧
    ∃ r, ∀ k ts d, NewLine H k → ts.map Token.kind = kindsOf r → c.Prolongs (ts ++ k) d →
      Yields (Leaves x k) (q d)

/-- A reader has no answer, and not because the text is incomplete. -/
def Lost : Outcome Cursor SyntaxError α → Prop
  | .done _ _ => False
  | .failed e _ => e.isIncomplete = false
  | .halted _ => True

/-- Whether a reader goes on from a cursor, if the text goes on. -/
def GoesOn (H : Option Piece → Prop) (x : α → Late) (p q : Parser α) (c : Cursor) : Prop :=
  Exact p q c ∨ Closable H x p q c ∨ Lost (p c)

/-- Whether a reader answers at the further lines, once the pieces `r` have been written there. -/
def Closes (going : Bool → Prop) (r : List Piece) (H : Option Piece → Prop) (x : α → Late)
    (q : Parser α) : Prop :=
  ∀ b, going b → ∀ k ts (d : Cursor), NewLine H k → ts.map Token.kind = kindsOf r →
    Stands b (ts ++ k) d.rest → Yields (Leaves x k) (q d)

/-- **Reading a text that goes on.**  `p` reads the text that ends and `q` the text that goes on.
They may be at the end of the text as told by `e`, and then the text has to go on with the pieces
`r` and one of `H`.  `x` tells in which ways they may be at the end after an answer. -/
structure Continues (e : Late) (r : List Piece) (H : Option Piece → Prop) (x : α → Late)
    (p q : Parser α) : Prop where
  goes : ∀ c, GoesOn H x p q c
  lingers : e.ending → ∀ c, AtEnd c.rest → ∀ a c', p c = .done a c' →
    (x a).ending ∧ AtEnd c'.rest
  closes : Closes e.going r H x q

theorem Leaves.mono {k : List Token} {a : α} {d : Cursor} (h : Leaves x k a d)
    (hx : ∀ b, (x a).going b → (x' a).going b) : Leaves x' k a d := by
  obtain ⟨b, hb, hs⟩ := h
  exact ⟨b, hx b hb, hs⟩

namespace GoesOn

variable {p q : Parser α} {c : Cursor}

theorem mono (h : GoesOn H x p q c) (hH : ∀ next, G next → H next) (hx : ∀ a, x a ≤ x' a) :
    GoesOn G x' p q c := by
  refine h.imp_right (.imp_left ?_)
  rintro ⟨hshort, r, hlong⟩
  refine ⟨fun a c' hp => ⟨(hx a).1 (hshort a c' hp).1, (hshort a c' hp).2⟩, r, ?_⟩
  exact fun k ts d hk hts hd => (hlong k ts d (hk.mono hH) hts hd).mono fun a d' hl =>
    hl.mono (hx a).2

/-- Where the text is wrong before its end, nothing is asked of the text that goes on. -/
theorem lost (h : Lost (p c)) : GoesOn H x p q c := .inr (.inr h)

/-- A text that goes on does not matter if it cannot, or if there is too little fuel to read it. -/
theorem of_idle (h : ∀ P more d, c.Prolongs more d → Yields P (q d)) : GoesOn H x p q c := by
  cases hp : p c with
  | done a c' => exact .inl ⟨a, c', hp, fun more d _ hd => h _ more d hd⟩
  | failed e c' =>
      cases hi : e.isIncomplete with
      | false => exact lost (by rw [hp]; exact hi)
      | true =>
          refine .inr (.inl ⟨fun a c'' h => ?_, [], fun k ts d _ _ hd => h _ _ d hd⟩)
          rw [hp] at h
          cases h
  | halted c' => exact lost (by rw [hp]; trivial)

/-- Whether a reader goes on from a cursor is told by what it does there. -/
theorem congr {p' q' : Parser α} (h : GoesOn H x p q c) (hp : p' c = p c)
    (hq : ∀ more d, c.Prolongs more d → q' d = q d) : GoesOn H x p' q' c := by
  rcases h with ⟨a, c', hdone, hlong⟩ | ⟨hshort, r, hlong⟩ | hlost
  · exact .inl ⟨a, c', hp.trans hdone, fun more d hm hd => hq more d hd ▸ hlong more d hm hd⟩
  · exact .inr (.inl ⟨hp ▸ hshort, r, fun k ts d hk hts hd => hq _ d hd ▸ hlong k ts d hk hts hd⟩)
  · exact lost (hp ▸ hlost)

/-- At the end of the text a reader needs what it needs there. -/
theorem of_closes (hat : AtEnd c.rest)
    (hs : ∀ a c', p c = .done a c' → (x a).ending ∧ AtEnd c'.rest)
    (hc : Closes (fun b => b = true) r H x q) : GoesOn H x p q c :=
  .inr (.inl ⟨hs, r, fun k ts d hk hts hd => hc true rfl k ts d hk hts (hd.tokens.stands hat)⟩)

/-- What follows an answer goes on from where the answer leaves the cursor. -/
theorem bind {f g : α → Parser β} (hp : GoesOn G x p q c)
    (hf : ∀ a c', p c = .done a c' → GoesOn H y (f a) (g a) c')
    (hl : ∀ a, (x a).ending → ∀ c, AtEnd c.rest → ∀ b c', f a c = .done b c' →
      (y b).ending ∧ AtEnd c'.rest)
    (hc : ∀ a, Closes (x a).going r H y (g a)) (hr : Fits H G r) :
    GoesOn H y (p >>= f) (q >>= g) c := by
  rcases hp with ⟨a, c₁, hp, hq⟩ | ⟨hshort, r₁, hlong⟩ | hlost
  · have short : (p >>= f) c = f a c₁ := by rw [Action.bind_apply, hp]
    rcases hf a c₁ hp with ⟨b, c₂, hfa, hga⟩ | ⟨hshort, r₂, hlong⟩ | hlost
    · refine .inl ⟨b, c₂, short.trans hfa, fun more d hm hd => (hq more d hm hd).bind ?_⟩
      rintro _ d₁ ⟨rfl, hd₁⟩
      exact hga more d₁ hm hd₁
    · refine .inr (.inl ⟨by rwa [short], r₂, fun k ts d hk hts hd => ?_⟩)
      have hm : Plain (ts ++ k) := (hk.append (.any H r₂) hts).plain
      refine (hq _ d hm hd).bind ?_
      rintro _ d₁ ⟨rfl, hd₁⟩
      exact hlong k ts d₁ hk hts hd₁
    · exact .inr (.inr (short ▸ hlost))
  · refine .inr (.inl ⟨fun b c₂ h => ?_, r₁ ++ r, fun k ts d hk hts hd => ?_⟩)
    · rw [Action.bind_apply] at h
      cases e : p c with
      | done a c₁ =>
          rw [e] at h
          obtain ⟨ha, hat⟩ := hshort a c₁ e
          exact hl a ha c₁ hat b c₂ h
      | failed e' c₁ | halted c₁ =>
          rw [e] at h
          cases h
    · obtain ⟨ts₁, ts₂, rfl, hts₁, hts₂⟩ :=
        List.map_eq_append_iff.mp (hts.trans List.flatMap_append)
      rw [List.append_assoc] at hd
      refine (hlong (ts₂ ++ k) ts₁ d (hk.append hr hts₂) hts₁ hd).bind fun a d₁ hd₁ => ?_
      obtain ⟨b, hb, hs⟩ := hd₁
      exact hc a b hb k ts₂ d₁ hk hts₂ hs
  · refine .inr (.inr ?_)
    rw [Action.bind_apply]
    cases e : p c with
    | done a c₁ =>
        rw [e] at hlost
        exact hlost.elim
    | failed e' c₁ | halted c₁ =>
        rw [e] at hlost
        exact hlost

/-- What follows an answer that is never given at the end of the text. -/
theorem andThen {f g : α → Parser β} (hp : GoesOn H (fun _ => .never) p q c)
    (hf : ∀ a c', GoesOn H y (f a) (g a) c') : GoesOn H y (p >>= f) (q >>= g) c :=
  hp.bind (r := []) (fun a c' _ => hf a c') (fun _ => False.elim) (fun _ => nofun) fun _ => id

end GoesOn

namespace Closes

variable {q : Parser α} {going : Bool → Prop}

theorem mono {going' : Bool → Prop} (h : Closes going r H x q) (hg : ∀ b, going' b → going b)
    (hH : ∀ next, G next → H next) (hx : ∀ a b, (x a).going b → (x' a).going b) :
    Closes going' r G x' q :=
  fun b hb k ts d hk hts hd => (h b (hg b hb) k ts d (hk.mono hH) hts hd).mono fun a _ hl =>
    hl.mono (hx a)

theorem bind {g : α → Parser β} (hq : Closes going r G x q)
    (hg : ∀ a, Closes (x a).going s H y (g a)) (hr : Fits H G s) :
    Closes going (r ++ s) H y (q >>= g) := by
  intro b hb k ts d hk hts hd
  obtain ⟨ts₁, ts₂, rfl, hts₁, hts₂⟩ := List.map_eq_append_iff.mp (hts.trans List.flatMap_append)
  rw [List.append_assoc] at hd
  refine (hq b hb (ts₂ ++ k) ts₁ d (hk.append hr hts₂) hts₁ hd).bind fun a d₁ hd₁ => ?_
  obtain ⟨b₁, hb₁, hs⟩ := hd₁
  exact hg a b₁ hb₁ k ts₂ d₁ hk hts₂ hs

theorem pure {a : α} (h : ∀ b, going b → (x a).going b) :
    Closes going [] H x (Pure.pure a) := by
  intro b hb k ts d hk hts hd
  obtain rfl : ts = [] := by simpa using hts
  exact ⟨b, h b hb, hd⟩

/-- A word or mark that is not there at the further lines. -/
theorem skip {q : Parser Bool} {y n : Parser α}
    (hq : Closes going r G (fun b => .given (b = false) e) q) (hn : Closes e.going s H x n)
    (hr : Fits H G s) : Closes going (r ++ s) H x (q >>= fun b => if b then y else n) := by
  refine hq.bind (fun b => ?_) hr
  cases b with
  | true => exact fun _ h => nomatch h.1
  | false => exact hn.mono (fun _ => And.right) (fun _ => id) fun _ _ => id

end Closes

namespace Continues

variable {p q : Parser α}

theorem mono (h : Continues e r H x p q) (he : e' ≤ e) (hH : ∀ next, G next → H next)
    (hx : ∀ a, x a ≤ x' a) : Continues e' r G x' p q where
  goes c := (h.goes c).mono hH hx
  lingers hl c hc a c' hp := ⟨(hx a).1 (h.lingers (he.1 hl) c hc a c' hp).1,
    (h.lingers (he.1 hl) c hc a c' hp).2⟩
  closes := h.closes.mono he.2 hH fun a => (hx a).2

/-- A reader that does not come to the further lines needs no pieces there. -/
theorem relax (h : Continues e r H x p q) (he : e'.ending → e.ending)
    (hg : ∀ b, ¬e'.going b) : Continues e' s H x p q :=
  ⟨h.goes, fun hl => h.lingers (he hl), fun b hb => (hg b hb).elim⟩

/-- A reader that does not come to the end of the text has not to cope with it. -/
theorem never (h : Continues .never r H x p q) (he : e ≤ .never) : Continues e s H x p q :=
  h.relax he.1 he.2

/-- **One reader after the other.** -/
theorem bind {f g : α → Parser β} (hp : Continues e r G x p q)
    (hf : ∀ a, Continues (x a) s H y (f a) (g a)) (hr : Fits H G s) :
    Continues e (r ++ s) H y (p >>= f) (q >>= g) where
  goes c := (hp.goes c).bind (fun a c' _ => (hf a).goes c') (fun a => (hf a).lingers)
    (fun a => (hf a).closes) hr
  lingers := by
    intro hl c hc b c₂ h
    rw [Action.bind_apply] at h
    cases e : p c with
    | done a c₁ =>
        rw [e] at h
        obtain ⟨ha, hat⟩ := hp.lingers hl c hc a c₁ e
        exact (hf a).lingers ha c₁ hat b c₂ h
    | failed e' c₁ | halted c₁ =>
        rw [e] at h
        cases h
  closes := hp.closes.bind (fun a => (hf a).closes) hr

theorem pure {a : α} (h : e ≤ x a) : Continues e [] H x (Pure.pure a) (Pure.pure a) where
  goes c := .inl ⟨a, c, rfl, fun _ _ _ hd => ⟨rfl, hd⟩⟩
  lingers := by
    rintro hl c hc _ _ ⟨⟩
    exact ⟨h.1 hl, hc⟩
  closes := .pure h.2

/-- A reader that is never satisfied. -/
theorem ofLost (h : ∀ c, Lost (p c)) (hg : ∀ b, ¬e.going b) : Continues e r H x p q where
  goes c := .lost (h c)
  lingers := by
    intro _ c _ a c' hp
    have hc := h c
    rw [hp] at hc
    exact hc.elim
  closes := fun b hb => (hg b hb).elim

/-- An error other than an unexpected end is not mended by a text that goes on. -/
theorem failAt {cause : SyntaxCause} {place : Span} {q : Parser α}
    (hc : cause ≠ .unexpectedEnd) (hg : ∀ b, ¬e.going b) :
    Continues e r H x (Parser.failAt cause place) q := by
  refine ofLost (fun c => ?_) hg
  cases cause <;> first | rfl | exact absurd rfl hc

/-- A choice that does not look at the tokens is made in both texts. -/
theorem ite {c : Prop} [Decidable c] {p p' q q' : Parser α} (h : Continues e r H x p q)
    (h' : Continues e r H x p' q') :
    Continues e r H x (if c then p else p') (if c then q else q') := by
  split
  · exact h
  · exact h'

/-- A word or mark that may be there. -/
theorem eat {p q : Parser Bool} {z : Bool → Late} {y y' n n' : Parser α}
    (hp : Continues e r G z p q) (hy : Continues (z true) s H x y y')
    (hn : Continues (z false) s H x n n') (hr : Fits H G s) :
    Continues e (r ++ s) H x (p >>= fun b => if b then y else n)
      (q >>= fun b => if b then y' else n') := by
  refine hp.bind (fun b => ?_) hr
  cases b with
  | true => exact hy
  | false => exact hn

/-- A word or mark that is not there at the end of the text. -/
theorem skip {p q : Parser Bool} {y y' n n' : Parser α}
    (hp : Continues e r G (fun b => .given (b = false) e') p q)
    (hy : Continues .never [] H x y y') (hn : Continues e' s H x n n') (hr : Fits H G s) :
    Continues e (r ++ s) H x (p >>= fun b => if b then y else n)
      (q >>= fun b => if b then y' else n') :=
  hp.eat (hy.never (Late.given_false_le nofun)) (hn.mono Late.given_le (fun _ => id)
    fun _ => Late.le_refl _) hr

theorem goesOn_map {f : α → β} {c : Cursor} (hp : GoesOn H x p q c) (h : ∀ a, x a ≤ y (f a)) :
    GoesOn H y (f <$> p) (f <$> q) c := by
  have pure : ∀ a, Continues (x a) [] H y (Pure.pure (f a)) (Pure.pure (f a)) := fun a =>
    .pure (h a)
  exact hp.bind (fun a c' _ => (pure a).goes c') (fun a => (pure a).lingers)
    (fun a => (pure a).closes) fun _ => id

theorem map {f : α → β} (hp : Continues e r H x p q) (h : ∀ a, x a ≤ y (f a)) :
    Continues e r H y (f <$> p) (f <$> q) := by
  have hf := hp.bind (fun a => .pure (h a)) (s := []) (H := H) fun _ => id
  rwa [List.append_nil] at hf

/-- What is seen of both cursors is the same. -/
theorem view {f : Cursor → α} (hf : ∀ more c d, Plain more → c.Prolongs more d → f c = f d)
    (hl : e.ending → ∀ c : Cursor, AtEnd c.rest → (x (f c)).ending)
    (hg : ∀ b, e.going b → ∀ k (d : Cursor), NewLine H k → Stands b k d.rest →
      (x (f d)).going b) :
    Continues e [] H x (Action.view f) (Action.view f) where
  goes c := .inl ⟨f c, c, rfl, fun more d hm hd => ⟨(hf more c d hm hd).symm, hd⟩⟩
  lingers := by
    rintro h c hc _ _ ⟨⟩
    exact ⟨hl h c hc, hc⟩
  closes := by
    intro b hb k ts d hk hts hd
    obtain rfl : ts = [] := by simpa using hts
    exact ⟨b, hg b hb k d hk hd, hd⟩

/-- What is seen of both cursors does not depend on the tokens. -/
theorem see {f : Cursor → α} (hf : ∀ more c d, c.Prolongs more d → f c = f d) :
    Continues e [] H (fun _ => e) (Action.view f) (Action.view f) :=
  .view (fun more c d _ => hf more c d) (fun h _ _ => h) fun _ h _ _ _ _ => h

/-- A change that leaves the tokens alone is made in both texts. -/
theorem update {f : Cursor → Cursor}
    (hf : ∀ more c d, c.Prolongs more d → (f c).Prolongs more (f d))
    (hr : ∀ c, (f c).rest = c.rest) :
    Continues e [] H (fun _ => e) (Action.update f) (Action.update f) where
  goes c := .inl ⟨(), f c, rfl, fun more d _ hd => ⟨rfl, hf more c d hd⟩⟩
  lingers := by
    rintro h c hc _ _ ⟨⟩
    exact ⟨h, (hr c).symm ▸ hc⟩
  closes := by
    intro b hb k ts d hk hts hd
    obtain rfl : ts = [] := by simpa using hts
    exact ⟨b, hb, (hr d).symm ▸ hd⟩

/-- A body is opened and closed in both texts. -/
theorem within (kind : BodyKind) (hp : Continues e r H x p q) :
    Continues e r H x (Parser.within kind p) (Parser.within kind q) := by
  have opened : Continues e [] anyPiece (fun _ => e)
      (Action.update fun c : Cursor => { c with bodies := ⟨kind, []⟩ :: c.bodies })
      (Action.update fun c : Cursor => { c with bodies := ⟨kind, []⟩ :: c.bodies }) :=
    .update (fun _ _ _ h => ⟨h.tokens, h.prev, h.names, by simp [h.bodies]⟩) fun _ => rfl
  have closed : ∀ a, Continues (x a) [] H (fun _ => x a)
      (Action.update fun c : Cursor => { c with bodies := c.bodies.tail })
      (Action.update fun c : Cursor => { c with bodies := c.bodies.tail }) := fun a =>
    .update (fun _ _ _ h => ⟨h.tokens, h.prev, h.names, by simp [h.bodies]⟩) fun _ => rfl
  have whole := opened.bind (fun _ => hp.bind (fun a => (closed a).bind
    (fun _ => .pure (Late.le_refl (x a))) (s := []) fun _ => id) fun _ => id) (.any H _)
  rwa [List.nil_append, List.append_nil, List.append_nil] at whole

/-! ### Fuel -/

/-- A reader without fuel has no answer to go on with. -/
theorem exhaust : Continues e r H x Action.exhaust Action.exhaust :=
  ⟨fun _ => .lost trivial, fun _ _ _ _ _ hp => (nomatch hp), fun _ _ _ _ _ _ _ _ => trivial⟩

/-- A reader that halts in the text that ends has no answer there. -/
theorem ofHalt (h : Closes e.going r H x q) : Continues e r H x Action.exhaust q :=
  ⟨fun _ => .lost trivial, fun _ _ _ _ _ hp => (nomatch hp), h⟩

/-- A reader that halts in the text that goes on has not rejected it. -/
theorem halt (h : Continues e r H x p q) : Continues e r H x p Action.exhaust where
  goes _ := .of_idle fun _ _ _ _ => trivial
  lingers := h.lingers
  closes := fun _ _ _ _ _ _ _ _ => trivial

/-- Another reader of the text that goes on, which answers whatever this one does. -/
theorem transfer {q' : Parser α} (h : Continues e r H x p q)
    (hq : ∀ (P : α → Cursor → Prop) d, Yields P (q d) → Yields P (q' d)) :
    Continues e r H x p q' where
  goes c := by
    rcases h.goes c with ⟨a, c', hp, hd⟩ | ⟨hend, r, hd⟩ | hl
    · exact .inl ⟨a, c', hp, fun more d hm h => hq _ d (hd more d hm h)⟩
    · exact .inr (.inl ⟨hend, r, fun k ts d hk ht h => hq _ d (hd k ts d hk ht h)⟩)
    · exact .lost hl
  lingers := h.lingers
  closes b hb k ts d hk ht hs := hq _ d (h.closes b hb k ts d hk ht hs)

/-! ### Loops -/

section chain

variable {step step' : α → Parser (Option α)} {z : α → Option α → Late} {l : Prop}
  {g : Bool → Prop} {F : α → Prop} {I : α → Cursor → Prop}

/-- Once a round has come to the end of the text, there is no further one. -/
theorem closes_chain (ht' : Shrinks step')
    (hn : ∀ b, F b → Closes g [] H (fun o => .given (o = none) (x b)) (step' b)) (a : α) :
    Closes (fun pos => F a ∧ g pos) [] H x (Parser.chain step' a) := by
  intro pos hpos
  rw [ht'.chain_eq a]
  refine Closes.bind (hn a hpos.1) (fun o => ?_) (s := []) (fun _ => id) pos hpos.2
  cases o with
  | none => exact Closes.pure fun _ => And.right
  | some b' => exact fun _ h => nomatch h.1

/-- A loop that starts at the end answers there. -/
theorem lingers_chain (ht : Shrinks step)
    (hs : ∀ a, l → ∀ c, AtEnd c.rest → ∀ o c', step a c = .done o c' →
      (z a o).ending ∧ AtEnd c'.rest)
    (hnone : ∀ a, z a none ≤ x a) (hl : ∀ a b, (z a (some b)).ending → l) :
    ∀ a c, l → AtEnd c.rest → ∀ b c', Parser.chain step a c = .done b c' →
      (x b).ending ∧ AtEnd c'.rest := by
  refine ht.induction fun a c ih hl' hc b c' h => ?_
  rw [ht.chain_eq a, Action.bind_apply] at h
  cases e : step a c with
  | failed e' c₁ | halted c₁ =>
      rw [e] at h
      cases h
  | done o c₁ =>
      rw [e] at h
      obtain ⟨ho, hat⟩ := hs a hl' c hc o c₁ e
      cases o with
      | none =>
          cases h
          exact ⟨(hnone a).1 ho, hat⟩
      | some b₁ => exact ih b₁ c₁ e (hl a b₁ ho) hat b c' h

/-- A loop goes on if its rounds do.  `I` is what a round may rely on. -/
theorem goesOn_chain (ht : Shrinks step) (ht' : Shrinks step')
    (hI : ∀ a b c c', I a c → step a c = .done (some b) c' → I b c')
    (hgo : ∀ a c, I a c → GoesOn H (z a) (step a) (step' a) c)
    (hs : ∀ a, l → ∀ c, AtEnd c.rest → ∀ o c', step a c = .done o c' →
      (z a o).ending ∧ AtEnd c'.rest)
    (hnone : ∀ a, z a none ≤ x a) (hl : ∀ a b, (z a (some b)).ending → l)
    (hg : ∀ a b pos, (z a (some b)).going pos → F b ∧ g pos)
    (hn : ∀ b, F b → Closes g [] H (fun o => .given (o = none) (x b)) (step' b)) :
    ∀ a c, I a c → GoesOn H x (Parser.chain step a) (Parser.chain step' a) c := by
  refine ht.induction fun a c ih ha => ?_
  rw [ht.chain_eq a, ht'.chain_eq a]
  have same : Fits H H [] := fun _ => id
  refine (hgo a c ha).bind (fun o c₁ e => ?_) (fun o ho c₁ hc b c' h => ?_) (fun o => ?_) same
  · cases o with
    | none => exact (pure (hnone a)).goes c₁
    | some b => exact ih b c₁ e (hI a b c c₁ ha e)
  · cases o with
    | none =>
        cases h
        exact ⟨(hnone a).1 ho, hc⟩
    | some b₁ => exact lingers_chain ht hs hnone hl b₁ c₁ (hl a b₁ ho) hc b c' h
  · cases o with
    | none => exact (pure (hnone a)).closes
    | some b => exact (closes_chain ht' hn b).mono (hg a b) (fun _ => id) fun _ _ => id

/-- **A loop goes on if its rounds do.**  After a round that has come to the end of the text, the
next one has nothing to add. -/
theorem chain (ht : Shrinks step) (ht' : Shrinks step')
    (hs : ∀ a, Continues ⟨l, fun _ => False⟩ r H (z a) (step a) (step' a))
    (hnone : ∀ a, z a none ≤ x a) (hl : ∀ a b, (z a (some b)).ending → l)
    (hg : ∀ a b pos, (z a (some b)).going pos → F b ∧ g pos)
    (hn : ∀ b, F b → Closes g [] H (fun o => .given (o = none) (x b)) (step' b)) (a : α) :
    Continues ⟨l, fun pos => F a ∧ g pos⟩ [] H x (Parser.chain step a) (Parser.chain step' a) where
  goes c := goesOn_chain (I := fun _ _ => True) ht ht' (fun _ _ _ _ _ _ => trivial)
    (fun a c _ => (hs a).goes c) (fun a => (hs a).lingers) hnone hl hg hn a c trivial
  lingers h c := lingers_chain ht (fun a => (hs a).lingers) hnone hl a c h
  closes := closes_chain ht' hn a

end chain

end Continues

end Parser

/-! ### Cursors -/

namespace Cursor

variable {more : List Token} {c d : Cursor}

/-- In place of the end of the text stands a line break. -/
theorem Prolongs.current_cases (h : c.Prolongs more d) :
    c.current = d.current ∧ c.current.kind ≠ .eof ∨
      c.current.kind = .eof ∧ d.current = ⟨.lineTerm, c.current.span⟩ := by
  obtain ⟨rest, prev, names, bodies⟩ := c
  obtain ⟨rest', prev', names', bodies'⟩ := d
  cases h.tokens with
  | @eof last brk lines hl hb hs hm =>
      cases hm
      obtain ⟨kind, span⟩ := brk
      exact .inr ⟨hl, by cases hb; cases hs; rfl⟩
  | @brk brk last lines hl hb hm =>
      cases hm
      exact .inl ⟨rfl, by simp [Cursor.current, hb]⟩
  | cons t ht h =>
      refine .inl ⟨rfl, fun he => ?_⟩
      change t.kind = .eof at he
      simp [he, TokenKind.isEof] at ht

/-- The token at the cursor is the same, or a line break in place of the end. -/
theorem Prolongs.current (h : c.Prolongs more d) : c.current.Alike d.current := by
  rcases h.current_cases with ⟨h, -⟩ | ⟨he, hd⟩
  · exact .inl h
  · exact .inr ⟨he, by rw [hd], by rw [hd]⟩

theorem Prolongs.hasGap (h : c.Prolongs more d) : c.hasGap = d.hasGap := by
  simp only [Cursor.hasGap, h.current.span, h.prev]

/-- The token after the next one stands at the same place in both texts, unless the next one ends
a line. -/
theorem Prolongs.hasGapAfter (h : c.Prolongs more d) (hb : c.current.kind.isTerm = false) :
    c.hasGapAfter = d.hasGapAfter := by
  obtain ⟨rest, prev, names, bodies⟩ := c
  obtain ⟨rest', prev', names', bodies'⟩ := d
  cases h.tokens with
  | eof hl => simp [Cursor.current, hl, TokenKind.isTerm] at hb
  | brk _ hk => simp [Cursor.current, hk, TokenKind.isTerm] at hb
  | cons t ht htail =>
      cases htail with
      | eof _ _ hs hm =>
          cases hm
          simp [Cursor.hasGapAfter, hs]
      | brk _ _ hm =>
          cases hm
          rfl
      | cons => rfl

theorem Prolongs.isSecond (h : c.Prolongs more d) (hb : c.current.kind.isTerm = false) (p : Punct) :
    c.isSecond p = d.isSecond p := by
  obtain ⟨rest, prev, names, bodies⟩ := c
  obtain ⟨rest', prev', names', bodies'⟩ := d
  cases h.tokens with
  | eof hl => simp [Cursor.current, hl, TokenKind.isTerm] at hb
  | brk _ hk => simp [Cursor.current, hk, TokenKind.isTerm] at hb
  | cons t ht htail =>
      cases htail with
      | eof hl hk _ hm =>
          cases hm
          simp [Cursor.isSecond, hl, hk, TokenKind.isPunct]
      | brk _ _ hm =>
          cases hm
          rfl
      | cons => rfl

theorem Prolongs.opensCall (h : c.Prolongs more d) : c.opensCall = d.opensCall := by
  rcases h.current with hc | ⟨he, hl, -⟩
  · simp only [Cursor.opensCall, hc, h.hasGap]
  · simp only [Cursor.opensCall, he, hl, TokenKind.isPunct, Bool.false_and]

/-- Before the end of the text the same token comes next in both texts. -/
theorem Prolongs.ahead (h : c.Prolongs more d) (hat : ¬AtEnd c.rest) : c.ahead = d.ahead := by
  rcases h.tokens.cases with ⟨hat', -⟩ | ⟨t, ts, us, -, -, -, hts, hus⟩
  · exact absurd hat' hat
  · simp [Cursor.ahead, Cursor.significant, hts, hus]

/-- Before a line break the token at the cursor is one. -/
theorem current_of_stands {H : Option Piece → Prop} {k : List Token} (hk : NewLine H k)
    (hd : Stands true k d.rest) : d.current.kind = .lineTerm := by
  obtain ⟨next, brk, t, rest, -, rfl, hb, -⟩ := hk
  obtain ⟨breaks, hbs, hd⟩ := hd
  cases breaks with
  | nil => simpa [Cursor.current, hd] using hb
  | cons b breaks =>
      have := hbs b (.head _)
      cases hkind : b.kind <;> simp_all [Cursor.current, TokenKind.isLineTerm]

/-- The next token that is not a line break is that of the next piece. -/
theorem significant_of_stands {H : Option Piece → Prop} {k : List Token} {b : Bool}
    (hk : NewLine H k) (hd : Stands b k d.rest) :
    ∃ next t rest, H next ∧ t.kind = Piece.first next ∧ k.tail = t :: rest ∧
      d.significant = t :: rest := by
  obtain ⟨next, t, rest, hn, ht, htail, hk⟩ := hk.significant
  exact ⟨next, t, rest, hn, ht, htail, hd.dropWhile.trans hk⟩

end Cursor

/-! ### Tokens -/

namespace Parser

variable {α : Type} {e : Late} {r : List Piece} {H : Option Piece → Prop} {x : α → Late}

theorem continues_prevSpan : Continues e [] H (fun _ => e) prevSpan prevSpan :=
  .see fun _ _ _ h => h.prev

theorem continues_intern (name : String) :
    Continues e [] H (fun _ => e) (intern name) (intern name) where
  goes c := by
    refine .inl ⟨(c.names.intern name).1, { c with names := (c.names.intern name).2 }, rfl, ?_⟩
    intro more d _ hd
    rw [hd.names]
    exact ⟨rfl, hd.tokens, hd.prev, rfl, hd.bodies⟩
  lingers := by
    rintro h c hc _ _ ⟨⟩
    exact ⟨h, hc⟩
  closes := by
    intro b hb k ts d hk hts hd
    obtain rfl : ts = [] := by simpa using hts
    exact ⟨b, hb, hd⟩

theorem continues_declare (name : NameId) :
    Continues e [] H (fun _ => e) (declare name) (declare name) := by
  refine .update (fun more c d h => ?_) fun c => ?_
  · unfold Cursor.declare Cursor.isLocal
    rw [h.bodies]
    split
    · exact h
    · split
      · exact ⟨h.tokens, h.prev, h.names, rfl⟩
      · exact h
  · unfold Cursor.declare
    split
    · rfl
    · split <;> rfl

/-- Before the end of the text the next token is the same in both texts. -/
theorem exact_take {c : Cursor} (h : ¬AtEnd c.rest) :
    GoesOn H (fun _ => .never) take take c := by
  by_cases hd : ∃ more d, c.Prolongs more d
  · obtain ⟨more, d, hd⟩ := hd
    rcases hd.tokens.cases with ⟨hat, -⟩ | ⟨t, ts, us, hb, he, -, hts, -⟩
    · exact absurd hat h
    · refine .inl ⟨t, { c with rest := ts, prev := t.span }, ?_, fun more' d' hm hd' => ?_⟩
      · simp [take, Cursor.significant, hts, he]
      · rcases hd'.tokens.cases with ⟨hat, -⟩ | ⟨t', ts', us', -, -, htail, hts', hus'⟩
        · exact absurd hat h
        · rw [hts] at hts'
          cases hts'
          have read : take d' = .done t { d' with rest := us', prev := t.span } := by
            simp [take, Cursor.significant, hus', he]
          rw [read]
          exact ⟨rfl, htail, rfl, hd'.names, hd'.bodies⟩
  · exact .of_idle fun _ more d hd' => (hd ⟨more, d, hd'⟩).elim

/-- What is taken at the further lines is the first token of a piece. -/
theorem closes_take {going : Bool → Prop} (piece : Piece) (hp : piece.tail = []) :
    Closes going [piece] H (fun t => .given (t.kind = piece.head) .before) take := by
  intro b hb k ts d hk hts hd
  obtain ⟨brk, ts, rfl, hbrk, hts⟩ := List.map_eq_cons_iff.mp hts
  obtain ⟨t, ts, rfl, ht, hts⟩ := List.map_eq_cons_iff.mp hts
  obtain rfl : ts = [] := by simpa [hp] using hts
  have line : NewLine anyPiece ([brk, t] ++ k) :=
    hk.append (r := [piece]) trivial (by simp [kindsOf, Piece.kinds, hbrk, ht, hp])
  obtain ⟨next, u, rest, -, -, htail, hsig⟩ := Cursor.significant_of_stands line hd
  cases htail
  have he : t.kind.isEof = false := by rw [ht]; cases piece <;> rfl
  have read : take d = .done t { d with rest := k, prev := t.span } := by simp [take, hsig, he]
  rw [read]
  exact ⟨true, ⟨ht, rfl⟩, .refl true k⟩

/-- At the end no token can be taken. -/
theorem take_of_atEnd {c c' : Cursor} {t : Token} (hat : AtEnd c.rest) : take c ≠ .done t c' := by
  obtain ⟨last, hl, hc⟩ := hat
  simp [take, Cursor.significant, hc, hl, TokenKind.isEof]

/-- The token that is missing at the end of the text is the first one of a piece. -/
theorem continues_take (piece : Piece) (hp : piece.tail = []) :
    Continues e [piece] H (fun t => .given (t.kind = piece.head) .before) take take := by
  refine ⟨fun c => ?_, fun _ c hc t c' h => (take_of_atEnd hc h).elim, closes_take piece hp⟩
  by_cases hat : AtEnd c.rest
  · exact .of_closes hat (fun t c' h => (take_of_atEnd hat h).elim) (closes_take piece hp)
  · exact (exact_take hat).mono (fun _ => id) fun _ => Late.never_le _

/-! Words and marks that may come next, line breaks aside. -/

/-- Take the next token if it is of a certain kind. -/
def eatAhead (test : TokenKind → Bool) : Parser Bool := do
  if test (← Action.view Cursor.ahead).kind then
    let _ ← take
    pure true
  else pure false

/-- Taking punctuation is taking what is ahead if it is the one. -/
theorem eatPunct_eq (p : Punct) : eatPunct p = eatAhead (·.isPunct p) := rfl

section eatAhead

variable {test : TokenKind → Bool}

/-- What is ahead is taken if it passes the test. -/
theorem eatAhead_of_significant {c : Cursor} {t : Token} {rest : List Token}
    (hc : c.significant = t :: rest) (he : t.kind.isEof = false) : eatAhead test c =
      if test t.kind then .done true { c with rest, prev := t.span } else .done false c := by
  have ahead : c.ahead = t := by simp [Cursor.ahead, hc]
  have read : take c = .done t { c with rest, prev := t.span } := by simp [take, hc, he]
  simp only [eatAhead, Action.bind_apply, Action.view, ahead]
  split
  · rw [Action.bind_apply, read]
    rfl
  · rfl

/-- At the end nothing passes. -/
theorem eatAhead_of_atEnd {c : Cursor} (he : test .eof = false) (h : AtEnd c.rest) :
    eatAhead test c = .done false c := by
  obtain ⟨last, hl, hc⟩ := h
  have ahead : c.ahead.kind = .eof := by simp [Cursor.ahead, Cursor.significant, hc, hl]
  simp only [eatAhead, Action.bind_apply, Action.view, ahead, he]
  rfl

/-- Before the end of the text the same comes next in both texts. -/
theorem exact_eatAhead {c : Cursor} (h : ¬AtEnd c.rest) :
    GoesOn H (fun _ => .never) (eatAhead test) (eatAhead test) c := by
  by_cases hd : ∃ more d, c.Prolongs more d
  · obtain ⟨more, d, hd⟩ := hd
    rcases hd.tokens.cases with ⟨hat, -⟩ | ⟨t, ts, us, hb, ht, -, hts, -⟩
    · exact absurd hat h
    · have short : eatAhead test c = _ := eatAhead_of_significant hts ht
      have long : ∀ more' d', c.Prolongs more' d' → ∃ us', Prolonged more' ts us' ∧
          d'.significant = t :: us' := by
        intro more' d' hd'
        rcases hd'.tokens.cases with ⟨hat, -⟩ | ⟨t', ts', us', -, -, htail, hts', hus'⟩
        · exact absurd hat h
        · rw [hts] at hts'
          cases hts'
          exact ⟨us', htail, hus'⟩
      cases htest : test t.kind with
      | true =>
          rw [htest, if_pos rfl] at short
          refine .inl ⟨true, _, short, fun more' d' _ hd' => ?_⟩
          obtain ⟨us', htail, hus'⟩ := long more' d' hd'
          rw [eatAhead_of_significant hus' ht, htest, if_pos rfl]
          exact ⟨rfl, htail, rfl, hd'.names, hd'.bodies⟩
      | false =>
          rw [htest, if_neg (by decide)] at short
          refine .inl ⟨false, _, short, fun more' d' _ hd' => ?_⟩
          obtain ⟨us', htail, hus'⟩ := long more' d' hd'
          rw [eatAhead_of_significant hus' ht, htest, if_neg (by decide)]
          exact ⟨rfl, hd'⟩
  · exact .of_idle fun _ more d hd' => (hd ⟨more, d, hd'⟩).elim

/-- What may come next is not there if the next piece is another one. -/
theorem closes_absent {going : Bool → Prop}
    (hH : ∀ next, H next → test (Piece.first next) = false) :
    Closes going [] H (fun b => .given (b = false) ⟨True, going⟩) (eatAhead test) := by
  intro b hb k ts d hk hts hd
  obtain rfl : ts = [] := by simpa using hts
  obtain ⟨next, t, rest, hn, ht, -, hsig⟩ := Cursor.significant_of_stands hk hd
  have ahead : d.ahead.kind = Piece.first next := by simp [Cursor.ahead, hsig, ht]
  have read : eatAhead test d = .done false d := by
    simp only [eatAhead, Action.bind_apply, Action.view, ahead, hH next hn]
    rfl
  rw [read]
  exact ⟨b, ⟨rfl, hb⟩, hd⟩

variable (test)

/-- What may come next is left out in the text that goes on. -/
theorem continues_absent (hH : ∀ next, H next → test (Piece.first next) = false)
    (he : test .eof = false) :
    Continues e [] H (fun b => .given (b = false) ⟨True, fun b => e.going b ∨ b = true⟩)
      (eatAhead test) (eatAhead test) := by
  have lingers : ∀ c : Cursor, AtEnd c.rest → ∀ b c', eatAhead test c = .done b c' →
      b = false ∧ AtEnd c'.rest := by
    intro c hc b c' h
    rw [eatAhead_of_atEnd he hc] at h
    cases h
    exact ⟨rfl, hc⟩
  refine ⟨fun c => ?_, fun _ c hc b c' h => ?_, ?_⟩
  · by_cases hat : AtEnd c.rest
    · refine .of_closes hat (fun b c' h => ?_) ((closes_absent hH).mono (fun _ => id) (fun _ => id)
        fun b _ h => ⟨h.1, .inr h.2⟩)
      exact ⟨⟨(lingers c hat b c' h).1, trivial⟩, (lingers c hat b c' h).2⟩
    · exact (exact_eatAhead hat).mono (fun _ => id) fun _ => Late.never_le _
  · exact ⟨⟨(lingers c hc b c' h).1, trivial⟩, (lingers c hc b c' h).2⟩
  · exact (closes_absent hH).mono (fun _ => id) (fun _ => id) fun b _ h => ⟨h.1, .inl h.2⟩

/-- What may come next is written in the text that goes on. -/
theorem continues_present (piece : Piece) (hp : piece.tail = []) (ht : test piece.head = true)
    (he : test .eof = false) :
    Continues e [piece] H (fun b => ⟨b = false, fun pos => b = true ∧ pos = true⟩)
      (eatAhead test) (eatAhead test) := by
  have lingers : ∀ c : Cursor, AtEnd c.rest → ∀ b c', eatAhead test c = .done b c' →
      b = false ∧ AtEnd c'.rest := by
    intro c hc b c' h
    rw [eatAhead_of_atEnd he hc] at h
    cases h
    exact ⟨rfl, hc⟩
  have closes : ∀ {going : Bool → Prop}, Closes going [piece] H
      (fun b => ⟨b = false, fun pos => b = true ∧ pos = true⟩) (eatAhead test) := by
    intro going b hb k ts d hk hts hd
    have line := hk.append (.any H [piece]) hts
    obtain ⟨brk, ts, rfl, -, hts⟩ := List.map_eq_cons_iff.mp hts
    obtain ⟨t, ts, rfl, hkind, hts⟩ := List.map_eq_cons_iff.mp hts
    obtain rfl : ts = [] := by simpa [hp] using hts
    obtain ⟨next, u, rest, -, -, htail, hsig⟩ := Cursor.significant_of_stands line hd
    cases htail
    have heof : t.kind.isEof = false := by rw [hkind]; cases piece <;> rfl
    rw [eatAhead_of_significant hsig heof, hkind, if_pos ht]
    exact ⟨true, ⟨rfl, rfl⟩, .refl true k⟩
  refine ⟨fun c => ?_, fun _ c hc => lingers c hc, closes⟩
  by_cases hat : AtEnd c.rest
  · exact .of_closes hat (lingers c hat) closes
  · exact (exact_eatAhead hat).mono (fun _ => id) fun _ => Late.never_le _

end eatAhead

/-- No piece starts with punctuation but a closing mark. -/
theorem isPunct_first {p : Punct} (h : p ≠ .rparen) (h' : p ≠ .rbracket)
    (next : Option Piece) : (Piece.first next).isPunct p = false := by
  cases next with
  | none => rfl
  | some piece => cases piece <;> simp [Piece.first, Piece.head, TokenKind.isPunct, h.symm, h'.symm]

/-- No piece starts with a keyword but `nil` and `end`. -/
theorem isKeyword_first {w : Keyword} (h : w ≠ .kNil) (h' : w ≠ .kEnd)
    (next : Option Piece) : (Piece.first next).isKeyword w = false := by
  cases next with
  | none => rfl
  | some piece =>
    cases piece <;> simp [Piece.first, Piece.head, TokenKind.isKeyword, h.symm, h'.symm]

/-- **Punctuation that is not there** at the end is not in any piece, either. -/
theorem continues_eatPunct (p : Punct) (h : p ≠ .rparen) (h' : p ≠ .rbracket) :
    Continues e [] H (fun b => .given (b = false) .always) (eatPunct p) (eatPunct p) :=
  (continues_absent (·.isPunct p) (fun next _ => isPunct_first h h' next) rfl).mono
    (Late.le_refl e) (fun _ => id) fun _ => Late.given_le_given (Late.le_always _)

theorem continues_eatKeyword (w : Keyword) (h : w ≠ .kNil) (h' : w ≠ .kEnd) :
    Continues e [] H (fun b => .given (b = false) .always) (eatKeyword w) (eatKeyword w) :=
  (continues_absent (·.isKeyword w) (fun next _ => isKeyword_first h h' next) rfl).mono
    (Late.le_refl e) (fun _ => id) fun _ => Late.given_le_given (Late.le_always _)

/-- A comma that may follow an operand. -/
theorem continues_eatComma (hg : ¬e.going false) :
    Continues e [] H (fun b => .given (b = false) .here) (eatPunct .comma) (eatPunct .comma) := by
  refine (continues_absent (·.isPunct .comma) (fun next _ => @isPunct_first .comma nofun nofun
    next) rfl).mono (Late.le_refl e) (fun _ => id) fun _ => Late.given_le_given ⟨id, fun b hb => ?_⟩
  rcases hb with hb | hb
  · cases b with
    | false => exact absurd hb hg
    | true => rfl
  · exact hb

/-- The mark that closes a list is written in the text that goes on. -/
theorem continues_eatClose {p : Punct} {piece : Piece} (hp : piece.head = .punct p)
    (ht : piece.tail = []) :
    Continues e [piece] H (fun b => ⟨b = false, fun pos => b = true ∧ pos = true⟩) (eatPunct p)
      (eatPunct p) :=
  continues_present (·.isPunct p) piece ht (by simp [hp, TokenKind.isPunct]) rfl

/-- A dot does not come next in the text that goes on. -/
theorem continues_dot : Continues e [] H (fun b => .given (b = false) e) (eatPunct .dot)
    (eatPunct .dot) := by
  rw [eatPunct_eq]
  have stays : ∀ {c : Cursor}, AtEnd c.rest → eatAhead (·.isPunct .dot) c = .done false c :=
    eatAhead_of_atEnd rfl
  refine ⟨fun c => ?_, fun hl c hc b c' h => ?_, ?_⟩
  · by_cases hat : AtEnd c.rest
    · refine .inl ⟨false, c, stays hat, fun more d hm hd => ?_⟩
      have ahead : d.ahead.kind.isPunct .dot = false := by
        have sig := (hd.tokens.stands hat).dropWhile
        unfold Cursor.ahead Cursor.significant
        rw [sig]
        cases hmore : more.dropWhile (·.kind.isLineTerm) with
        | nil => rfl
        | cons t rest => exact hm t (by simp [hmore])
      have read : eatAhead (·.isPunct .dot) d = .done false d := by
        simp only [eatAhead, Action.bind_apply, Action.view, ahead]
        rfl
      rw [read]
      exact ⟨rfl, hd⟩
    · exact (exact_eatAhead hat).mono (fun _ => id) fun _ => Late.never_le _
  · rw [stays hc] at h
    cases h
    exact ⟨⟨rfl, hl⟩, hc⟩
  · refine Closes.mono (closes_absent ?_) (fun _ => id) (fun _ => id) fun b _ => id
    exact fun next _ => (Piece.first_ne next).2

/-! The end of a statement. -/

/-- No piece starts with a separator. -/
theorem isSeparator_first (t : Token) {next : Option Piece} (h : t.kind = Piece.first next) :
    isSeparator t = false := by
  unfold isSeparator
  rw [h]
  cases next with
  | none => rfl
  | some p => cases p <;> rfl

/-- Line breaks and semicolons are skipped alike in both texts. -/
theorem separators_prolonged {more ts us : List Token} (h : Prolonged more ts us) :
    (AtEnd (ts.dropWhile isSeparator) ∧ us.dropWhile isSeparator = more.dropWhile isSeparator) ∨
      ¬AtEnd (ts.dropWhile isSeparator) ∧
        Prolonged more (ts.dropWhile isSeparator) (us.dropWhile isSeparator) ∧
        ts.takeWhile isSeparator = us.takeWhile isSeparator := by
  induction h with
  | @eof last brk lines hl hb _ hm =>
      exact .inl ⟨by simpa [isSeparator_eof last hl] using AtEnd.eof hl, rfl⟩
  | @brk brk last lines hl hb hm =>
      refine .inl ⟨?_, rfl⟩
      simpa [List.dropWhile_cons, isSeparator_lineTerm brk hb, isSeparator_eof last hl] using
        AtEnd.eof hl
  | @cons ts us t ht h ih =>
      cases hsep : isSeparator t with
      | true => simpa [List.dropWhile_cons, List.takeWhile_cons, hsep] using ih
      | false =>
          simp only [List.dropWhile_cons, List.takeWhile_cons, hsep]
          refine .inr ⟨fun hat => ?_, .cons t ht h, rfl⟩
          rcases hat.cases with ⟨last, hl, hat⟩ | ⟨brk, rest, hb, -, hat⟩
          · cases hat
            simp [hl, TokenKind.isEof] at ht
          · cases hat
            simp [isSeparator_lineTerm t hb] at hsep

/-- The pieces on new lines are no separators. -/
theorem dropWhile_separators {k : List Token} (hk : NewLine H k) :
    k.dropWhile isSeparator = k.dropWhile (·.kind.isLineTerm) := by
  obtain ⟨next, brk, t, rest, -, rfl, hb, ht⟩ := hk
  have hb' : brk.kind.isLineTerm = true := by rw [hb]; rfl
  have ht' : t.kind.isLineTerm = false := by rw [ht]; exact (Piece.first_ne next).1
  simp [isSeparator_lineTerm brk hb, isSeparator_first t ht, hb', ht']

theorem dropWhile_stands {k rest : List Token} {b : Bool} (hk : NewLine H k)
    (h : Stands b k rest) :
    rest.dropWhile isSeparator = k.dropWhile (·.kind.isLineTerm) := by
  obtain ⟨next, t, more, -, ht, -, hdrop⟩ := hk.significant
  have hs := h.dropWhile
  rw [hdrop] at hs ⊢
  have hsplit := @List.takeWhile_append_dropWhile _ (fun t : Token => t.kind.isLineTerm) rest
  rw [hs] at hsplit
  have all : ∀ u ∈ rest.takeWhile (·.kind.isLineTerm), isSeparator u = true := by
    intro u hu
    have hl : u.kind.isLineTerm = true := List.all_eq_true.mp List.all_takeWhile u hu
    cases hkind : u.kind <;> simp_all [TokenKind.isLineTerm, isSeparator, TokenKind.isTerm,
      TokenKind.isEof]
  rw [← hsplit, List.dropWhile_append_of_pos all, List.dropWhile_cons,
    isSeparator_first t ht]
  rfl

/-- Where a statement ends, line breaks are skipped. -/
theorem closes_eatTerms {going : Bool → Prop} :
    Closes going [] H (fun b => ⟨b = true, fun pos => pos = false ∧ (b = true ∨ going false)⟩)
      eatTerms := by
  intro b hb k ts d hk hts hd
  obtain rfl : ts = [] := by simpa using hts
  have hsep := dropWhile_stands hk hd
  unfold eatTerms
  split
  · refine ⟨false, ⟨rfl, .inl rfl⟩, ?_⟩
    change (d.rest.dropWhile isSeparator).dropWhile _ = _
    rw [hsep, List.dropWhile_idempotent]
  · rename_i hterm
    cases b with
    | false => exact ⟨false, ⟨rfl, .inr hb⟩, hd⟩
    | true =>
        rw [Cursor.current_of_stands hk hd] at hterm
        exact absurd rfl hterm

theorem isTerm_alike {t t' : Token} (h : t.Alike t') : t.kind.isTerm = t'.kind.isTerm := by
  rcases h with rfl | ⟨he, hl, -⟩
  · rfl
  · simp [he, hl, TokenKind.isTerm]

/-- A statement ends where nothing but separators is left. -/
theorem isTerm_of_separators {c : Cursor} (h : AtEnd (c.rest.dropWhile isSeparator)) :
    c.current.kind.isTerm = true := by
  unfold Cursor.current
  cases hc : c.rest with
  | nil => rfl
  | cons t rest =>
      rw [hc] at h
      change t.kind.isTerm = true
      cases hsep : isSeparator t with
      | true =>
          simp only [isSeparator, Bool.and_eq_true] at hsep
          exact hsep.1
      | false =>
          simp only [List.dropWhile_cons, hsep] at h
          rcases h.cases with ⟨last, hl, h⟩ | ⟨brk, rest', hb, -, h⟩
          · cases h
            simp [hl, TokenKind.isTerm]
          · cases h
            simp [hb, TokenKind.isTerm]

/-- A statement may end at the end of the text. -/
theorem continues_eatTerms :
    Continues e [] H (fun b => ⟨b = true, fun pos => pos = false ∧ (b = true ∨ e.going false)⟩)
      eatTerms eatTerms := by
  have ends : ∀ {c : Cursor}, AtEnd (c.rest.dropWhile isSeparator) → ∀ b c',
      eatTerms c = .done b c' → b = true ∧ AtEnd c'.rest := by
    intro c hat b c' h
    rw [eatTerms, if_pos (isTerm_of_separators hat)] at h
    cases h
    exact ⟨rfl, hat⟩
  refine ⟨fun c => ?_, fun _ c hc b c' h => ?_, closes_eatTerms⟩
  · by_cases hterm : c.current.kind.isTerm = true
    · by_cases hat : AtEnd (c.rest.dropWhile isSeparator)
      · refine .inr (.inl ⟨ends hat, [], fun k ks d hk hks hd => ?_⟩)
        obtain rfl : ks = [] := by simpa using hks
        rcases separators_prolonged hd.tokens with ⟨-, hdrop⟩ | ⟨hat', -⟩
        · rw [eatTerms, if_pos (isTerm_alike hd.current ▸ hterm)]
          refine ⟨false, ⟨rfl, .inl rfl⟩, ?_⟩
          change (d.rest.dropWhile isSeparator).dropWhile _ = _
          rw [hdrop, List.nil_append, dropWhile_separators hk, List.dropWhile_idempotent]
        · exact absurd hat hat'
      · refine .inl ⟨true, _, by rw [eatTerms, if_pos hterm], fun more d _ hd => ?_⟩
        rcases separators_prolonged hd.tokens with ⟨hat', -⟩ | ⟨-, htail, hw⟩
        · exact absurd hat' hat
        · rw [eatTerms, if_pos (isTerm_alike hd.current ▸ hterm)]
          refine ⟨rfl, htail, ?_, hd.names, hd.bodies⟩
          simp only [hw, hd.prev]
    · refine .inl ⟨false, c, by rw [eatTerms, if_neg hterm], fun more d _ hd => ?_⟩
      rw [eatTerms, if_neg (isTerm_alike hd.current ▸ hterm)]
      exact ⟨rfl, hd⟩
  · refine ends ?_ b c' h
    obtain ⟨last, hl, hdrop⟩ := hc.dropWhile isSeparator_lineTerm isSeparator_eof
    exact hdrop ▸ .eof hl

/-- Where no statement ends, nothing is skipped. -/
theorem eatTerms_false {c c' : Cursor} (h : eatTerms c = .done false c') :
    c' = c ∧ c.current.kind.isTerm = false := by
  unfold eatTerms at h
  split at h
  · cases h
  · rename_i ht
    cases h
    exact ⟨rfl, by simpa using ht⟩

/-- A choice by whether a statement ends. -/
theorem continues_ifTerms {y y' n n' : Parser α} (hg : ¬e.going false)
    (hy : Continues .always r H x y y')
    (hn : ∀ c, c.current.kind.isTerm = false → GoesOn H x n n' c) :
    Continues e r H x (eatTerms >>= fun b => if b then y else n)
      (eatTerms >>= fun b => if b then y' else n') := by
  have terms : Continues e [] anyPiece
      (fun b => ⟨b = true, fun pos => pos = false ∧ (b = true ∨ e.going false)⟩)
      eatTerms eatTerms :=
    continues_eatTerms
  have closes : ∀ b, Closes (fun pos => pos = false ∧ (b = true ∨ e.going false)) r H x
      (if b then y' else n') := by
    intro b pos hpos
    rcases hpos.2 with rfl | h
    · exact hy.closes pos trivial
    · exact absurd h hg
  have lingers : ∀ b, b = true → ∀ c, AtEnd c.rest → ∀ a c', (if b then y else n) c = .done a c' →
      (x a).ending ∧ AtEnd c'.rest := by
    rintro b rfl
    exact hy.lingers trivial
  refine ⟨fun c => (terms.goes c).bind (fun b c' hb => ?_) lingers closes (.any H r),
    fun hl c hc a c' h => ?_, terms.closes.bind closes (.any H r)⟩
  · cases b with
    | true => exact hy.goes c'
    | false =>
        obtain ⟨rfl, ht⟩ := eatTerms_false hb
        exact hn c' ht
  · rw [Action.bind_apply] at h
    cases e : eatTerms c with
    | done b c₁ =>
        rw [e] at h
        obtain ⟨hb, hat⟩ := terms.lingers hl c hc b c₁ e
        exact lingers b hb c₁ hat a c' h
    | failed e' c₁ | halted c₁ =>
        rw [e] at h
        cases h

/-! The token at the cursor. -/

/-- What is read from a token on that has been looked at: it may be taken first.  In the text that
goes on, a cursor before a line break sees one. -/
inductive ContinuesPast (e : Late) (r : List Piece) (H : Option Piece → Prop) (x : α → Late)
    (t t' : Token) : Parser α → Parser α → Prop where
  | before {p q : Parser α}
      (h : Continues ⟨e.ending, fun b => e.going b ∧ (b = true → t'.kind = .lineTerm)⟩ r H x p q) :
      ContinuesPast e r H x t t' p q
  | take {p q : Parser α} (hg : ¬e.going false) (ht : t' = t) (hb : t.kind.isTerm = false)
      (h : Continues .never r H x p q) :
      ContinuesPast e r H x t t' (Parser.take >>= fun _ => p) (Parser.take >>= fun _ => q)
  | advance {p q : Parser α} (hg : ¬e.going false) (ht : t' = t) (hb : t.kind.isTerm = false)
      (h : Continues .never r H x p q) :
      ContinuesPast e r H x t t' (Parser.advance >>= fun _ => p) (Parser.advance >>= fun _ => q)

theorem isTerm_of_atEnd {c : Cursor} (h : AtEnd c.rest) : c.current.kind.isTerm = true := by
  rcases Cursor.current_of_atEnd h with h | h <;> simp [h, TokenKind.isTerm]

/-- A token that does not end a statement is taken where it stands. -/
theorem take_eq_advance {c : Cursor} (h : c.current.kind.isTerm = false) :
    ∃ rest, c.rest = c.current :: rest ∧
      take c = .done c.current { c with rest, prev := c.current.span } ∧
      advance c = .done () { c with rest, prev := c.current.span } := by
  unfold Cursor.current at *
  cases hc : c.rest with
  | nil => simp [hc, TokenKind.isTerm] at h
  | cons t rest =>
      have ht : t.kind.isTerm = false := by simpa [hc] using h
      have he : t.kind.isEof = false := by
        cases hk : t.kind <;> simp_all [TokenKind.isTerm, TokenKind.isEof]
      have hl : t.kind.isLineTerm = false := by
        cases hk : t.kind <;> simp_all [TokenKind.isTerm, TokenKind.isLineTerm]
      exact ⟨rest, rfl, by simp [take, Cursor.significant, hc, hl, he], by simp [advance, hc, he]⟩

/-- Stepping over a token that ends no line is the same in both texts. -/
theorem exact_advance {c : Cursor} (h : c.current.kind.isTerm = false) :
    GoesOn H (fun _ => .never) advance advance c := by
  have hat : ¬AtEnd c.rest := fun hat => by simp [isTerm_of_atEnd hat] at h
  have eq : ∀ d : Cursor, d.current.kind.isTerm = false →
      advance d = (take >>= fun _ => pure ()) d := by
    intro d hd
    obtain ⟨rest, -, htake, hadv⟩ := take_eq_advance hd
    rw [hadv, Action.bind_apply, htake]
    rfl
  have both : GoesOn H (fun _ => .never) (take >>= fun _ => pure ())
      (take >>= fun _ => pure ()) c :=
    (exact_take hat).andThen fun _ c' => .inl ⟨(), c', rfl, fun _ _ _ hd => ⟨rfl, hd⟩⟩
  exact both.congr (eq c h) fun more d hd => eq d (isTerm_alike hd.current ▸ h)

theorem continues_byCurrent {f g : Token → Parser α}
    (hf : ∀ t t', t.Alike t' → ContinuesPast e r H x t t' (f t) (g t')) :
    Continues e r H x (current >>= f) (current >>= g) where
  goes c := by
    -- What the text that goes on has at the cursor is known from the text that ends.
    obtain ⟨t', halike, hd⟩ : ∃ t', c.current.Alike t' ∧
        ∀ more d, c.Prolongs more d → d.current = t' := by
      by_cases he : c.current.kind = .eof
      · refine ⟨⟨.lineTerm, c.current.span⟩, .inr ⟨he, rfl, rfl⟩, fun more d hd => ?_⟩
        rcases hd.current_cases with ⟨-, h⟩ | ⟨-, h⟩
        · exact absurd he h
        · exact h
      · refine ⟨c.current, .inl rfl, fun more d hd => ?_⟩
        rcases hd.current_cases with ⟨h, -⟩ | ⟨h, -⟩
        · exact h.symm
        · exact absurd h he
    have past := hf c.current t' halike
    have go : GoesOn H x (f c.current) (g t') c := by
      generalize f c.current = p at past
      generalize g t' = q at past
      cases past with
      | before h => exact h.goes c
      | take _ _ hb h =>
          refine (exact_take fun hat => ?_).andThen fun _ => h.goes
          rw [isTerm_of_atEnd hat] at hb
          cases hb
      | advance _ _ hb h => exact (exact_advance hb).andThen fun _ => h.goes
    exact go.congr rfl fun more d hd' => by rw [← hd more d hd']; rfl
  lingers := by
    intro hl c hc a c' h
    have past := hf c.current c.current (.inl rfl)
    change f c.current c = .done a c' at h
    generalize f c.current = p at past h
    generalize g c.current = q at past
    cases past with
    | before hp => exact hp.lingers hl c hc a c' h
    | take _ _ hb | advance _ _ hb => simp [isTerm_of_atEnd hc] at hb
  closes := by
    intro b hb k ts d hk hts hd
    have past := hf d.current d.current (.inl rfl)
    change Yields _ (g d.current d)
    have line : b = true → d.current.kind = .lineTerm := by
      rintro rfl
      exact Cursor.current_of_stands (hk.append (.any H r) hts) hd
    have away : ¬e.going false → d.current.kind.isTerm = false → False := by
      intro hg hterm
      cases b with
      | false => exact hg hb
      | true => simp [line rfl, TokenKind.isTerm] at hterm
    generalize f d.current = p at past
    generalize g d.current = q at past
    cases past with
    | before h => exact h.closes b ⟨hb, line⟩ k ts d hk hts hd
    | take hg _ hterm | advance hg _ hterm => exact (away hg hterm).elim

/-- A token is taken that has been seen at the cursor. -/
theorem goesOn_takeHere {f g : Token → Parser α} {c : Cursor}
    (hc : c.current.kind.isTerm = false) (hf : ∀ t c', GoesOn H x (f t) (g t) c') :
    GoesOn H x (take >>= f) (take >>= g) c := by
  refine (exact_take fun hat => ?_).andThen hf
  rw [isTerm_of_atEnd hat] at hc
  cases hc

theorem closes_ifHere {f : Cursor → Bool} {y n : Parser α} {g : Bool → Prop}
    (ht : ∀ c, f c = true → c.current.kind.isTerm = false) (hg : ¬g false)
    (hn : Closes g r H x n) :
    Closes g r H x (Action.view f >>= fun b => if b then y else n) := by
  intro b hb k ts d hk hts hd
  have no : f d = false := by
    cases b with
    | false => exact absurd hb hg
    | true =>
        by_contra hyes
        have := ht d (by simpa using hyes)
        rw [Cursor.current_of_stands (hk.append (.any H r) hts) hd] at this
        cases this
  have same : (Action.view f >>= fun b => if b then y else n) d = n d := by
    simp [Action.bind_apply, Action.view, no]
  rw [same]
  exact hn b hb k ts d hk hts hd

/-- A choice by what is seen at the cursor, which is not there at the end of a line. -/
theorem continues_ifHere {f : Cursor → Bool} {y y' n n' : Parser α}
    (hf : ∀ more c d, c.Prolongs more d → f c = f d)
    (ht : ∀ c, f c = true → c.current.kind.isTerm = false) (hg : ¬e.going false)
    (hy : ∀ c, c.current.kind.isTerm = false → GoesOn H x y y' c)
    (hn : Continues e r H x n n') :
    Continues e r H x (Action.view f >>= fun b => if b then y else n)
      (Action.view f >>= fun b => if b then y' else n') where
  goes c := by
    cases hc : f c with
    | true =>
        refine (hy c (ht c hc)).congr ?_ fun more d hd => ?_
        · simp [Action.bind_apply, Action.view, hc]
        · simp [Action.bind_apply, Action.view, ← hf more c d hd, hc]
    | false =>
        refine (hn.goes c).congr ?_ fun more d hd => ?_
        · simp [Action.bind_apply, Action.view, hc]
        · simp [Action.bind_apply, Action.view, ← hf more c d hd, hc]
  lingers := by
    intro hl c hc a c' h
    have no : f c = false := by
      by_contra hyes
      have := ht c (by simpa using hyes)
      rw [isTerm_of_atEnd hc] at this
      cases this
    refine hn.lingers hl c hc a c' ?_
    simpa [Action.bind_apply, Action.view, no] using h
  closes := closes_ifHere ht hg hn.closes

/-- A test of the token at the cursor, which is not there at the end of the text. -/
theorem continues_here {f g : Token → Parser Bool} (test : TokenKind → Bool)
    (hb : test .lineTerm = false) (he : test .eof = false)
    (hyes : ∀ t, test t.kind = true →
      ContinuesPast e [] H (fun b => .given (b = false) e) t t (f t) (g t))
    (hf : ∀ t, test t.kind = false → f t = pure false)
    (hg : ∀ t, test t.kind = false → g t = pure false) :
    Continues e [] H (fun b => .given (b = false) e) (current >>= f) (current >>= g) := by
  have no : ∀ {t t'}, test t.kind = false → test t'.kind = false →
      ContinuesPast e [] H (fun b => .given (b = false) e) t t' (f t) (g t') := by
    intro t t' ht ht'
    rw [hf t ht, hg t' ht']
    exact .before (.pure ⟨fun h => ⟨rfl, h⟩, fun _ h => ⟨rfl, h.1⟩⟩)
  refine continues_byCurrent fun t t' h => ?_
  rcases h with rfl | ⟨hkind, hkind', -⟩
  · cases ht : test t.kind with
    | true => exact hyes t ht
    | false => exact no ht ht
  · exact no (hkind ▸ he) (hkind' ▸ hb)

theorem continues_eatPunctHere (p : Punct) (hp : (TokenKind.punct p).isTerm = false)
    (hg : ¬e.going false) :
    Continues e [] H (fun b => .given (b = false) e) (eatPunctHere p) (eatPunctHere p) := by
  refine continues_here (·.isPunct p) rfl rfl (fun t ht => ?_) (fun t ht => ?_) fun t ht => ?_
  · rw [if_pos ht]
    refine .take hg rfl ?_ (.pure (Late.never_le _))
    cases hk : t.kind <;> simp_all [TokenKind.isPunct]
  · rw [if_neg (by simp [ht])]
  · rw [if_neg (by simp [ht])]

theorem continues_eatKeywordHere (w : Keyword) (hg : ¬e.going false) :
    Continues e [] H (fun b => .given (b = false) e) (eatKeywordHere w) (eatKeywordHere w) := by
  refine continues_here (·.isKeyword w) rfl rfl (fun t ht => ?_) (fun t ht => ?_) fun t ht => ?_
  · rw [if_pos ht]
    refine .advance hg rfl ?_ (.pure (Late.never_le _))
    cases hk : t.kind <;> simp_all [TokenKind.isKeyword, TokenKind.isTerm]
  · rw [if_neg (by simp [ht])]
  · rw [if_neg (by simp [ht])]

theorem continues_eatAssignOp (hg : ¬e.going false) :
    Continues e [] H (fun o => .given (o = none) e) eatAssignOp eatAssignOp := by
  refine continues_byCurrent fun t t' h => ?_
  rcases h with rfl | ⟨he, hl, -⟩
  · split
    · rename_i hk
      exact .advance hg rfl (by simp [hk, TokenKind.isTerm]) (.pure (Late.never_le _))
    · exact .before (.pure ⟨fun h => ⟨rfl, h⟩, fun _ h => ⟨rfl, h.1⟩⟩)
  · simp only [he, hl]
    exact .before (.pure ⟨fun h => ⟨rfl, h⟩, fun _ h => ⟨rfl, h.1⟩⟩)

/-- A token that has to come next is written in the text that goes on. -/
theorem continues_expect (test : TokenKind → Bool) (cause : SyntaxCause) {piece : Piece}
    (ht : piece.tail = []) (hp : test piece.head = true) (hc : cause ≠ .unexpectedEnd) :
    Continues e [piece] H (fun _ => .before)
      (take >>= fun t => if test t.kind then pure () else failAt cause t.span)
      (take >>= fun t => if test t.kind then pure () else failAt cause t.span) := by
  refine (continues_take (H := H) piece ht).bind (s := []) (fun t => ?_) fun _ => id
  split
  · exact .pure Late.given_le
  · rename_i hk
    refine .failAt hc fun b hb => hk ?_
    rw [hb.1]
    exact hp

/-- **A missing `end`** is a piece. -/
theorem continues_expectEnd :
    Continues e [.end] H (fun _ => .before) (expectKeyword .kEnd) (expectKeyword .kEnd) :=
  continues_expect (·.isKeyword .kEnd) (.expectedKeyword .kEnd) rfl rfl nofun

/-- A missing closing mark is a piece. -/
theorem continues_expectPunct {p : Punct} {piece : Piece} (hp : piece.head = .punct p)
    (ht : piece.tail = []) :
    Continues e [piece] H (fun _ => .before) (expectPunct p) (expectPunct p) :=
  continues_expect (·.isPunct p) .unexpectedToken ht (by simp [hp, TokenKind.isPunct]) nofun

/-- A missing name is a piece. -/
theorem continues_expectIdent (piece : Piece) (ht : piece.tail = [])
    (hp : ∃ name, piece.head = .ident name) :
    Continues e [piece] H (fun _ => .before) expectIdent expectIdent := by
  refine (continues_take (H := H) piece ht).bind (s := []) (fun t => ?_) fun _ => id
  split
  · exact (continues_intern _).mono Late.given_le (fun _ => id) fun _ => Late.le_refl _
  · rename_i hk
    obtain ⟨name, hp⟩ := hp
    exact .failAt nofun fun b hb => hk name (hb.1.trans hp)

end Parser

end MiniRuby
