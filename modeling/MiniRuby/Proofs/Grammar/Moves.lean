import MiniRuby.Grammar.Program
import MiniRuby.Proofs.Name
import MiniRuby.Proofs.Syntax.Variables
import Mathlib.Data.List.Forall2

/-!
# The cursor moves on

Reading moves the cursor forward over the tokens and never past the last one, which marks the end
of the text.  Meanwhile names are added to the table, and variables become known in the bodies that
are open; a body that is opened on the way is closed again.  What a tree sets in the frame at hand
is known once the tree has been read.

Reading also comes to an end.  A rule of the grammar takes a token before it comes back to another
rule, and a chain goes on only if it has taken a token, so the fuel that reading is given is never
used up.

A reader is followed from any cursor on (`Parser.Moves`).  It says after which answers a token has
been taken, which variables are known after which answer, and how many tokens must be left for it to
run out of fuel.

* `Parser.Moves.bind`: what follows an answer may rely on the variables of the answer, and if a
  token has been taken it has one token less to care for.
* `Parser.moves_rule`: all rules move the cursor on, and all but one take a token.
* `Parser.Loop.shrinks`: each round of a loop of the grammar takes a token.
* `parseTokens_ne_halted`: reading a program ends with a tree or with an error.
-/

namespace MiniRuby

/-! ### Cursors -/

/-- Bodies of which each knows the variables that it did, and perhaps more. -/
abbrev Body.Grow (bs bs' : List Body) : Prop :=
  List.Forall₂ (fun b b' => b.kind = b'.kind ∧ b.locals ⊆ b'.locals) bs bs'

/-- Bodies may know what they know. -/
theorem Body.Grow.refl (bs : List Body) : Body.Grow bs bs :=
  List.forall₂_same.mpr fun _ _ => ⟨rfl, List.Subset.refl _⟩

theorem Body.Grow.trans {bs bs₁ bs₂ : List Body} (h₁ : Grow bs bs₁) (h₂ : Grow bs₁ bs₂) :
    Grow bs bs₂ := by
  induction h₁ generalizing bs₂ with
  | nil => exact h₂
  | cons hb _ ih =>
      cases h₂ with
      | cons hb' hs' => exact .cons ⟨hb.1.trans hb'.1, List.Subset.trans hb.2 hb'.2⟩ (ih hs')

namespace Cursor

variable {c c₁ c₂ : Cursor}

/-- The cursor at the first of some tokens. -/
abbrev start (tokens : List Token) (names : NameTable) (locals : List NameId) : Cursor :=
  ⟨tokens, ⟨0, 0⟩, names, [⟨.top, locals⟩]⟩

/-- Whether the last token that is left marks the end of the text. -/
def Ended (c : Cursor) : Prop := ∃ last, c.rest.getLast? = some last ∧ last.kind = .eof

/-- The end of the text is left as long as only tokens of other kinds have been passed. -/
theorem Ended.of_append {passed : List Token} (hp : ∀ t ∈ passed, t.kind.isEof = false)
    (h : c.Ended) (hr : c.rest = passed ++ c₁.rest) : c₁.Ended := by
  obtain ⟨last, hlast, he⟩ := h
  rw [hr, List.getLast?_append] at hlast
  cases hc : c₁.rest.getLast? with
  | some t =>
      rw [hc] at hlast
      cases hlast
      exact ⟨last, hc, he⟩
  | none =>
      rw [hc] at hlast
      have other := hp last (List.mem_of_getLast? hlast)
      rw [he] at other
      cases other

/-- A cursor to which another one has been moved, in the middle of reading. -/
structure Leads (c c' : Cursor) : Prop where
  rest : c'.rest <:+ c.rest
  ended : c.Ended → c'.Ended
  names : c.names.Grows c'.names

/-- A cursor leads to itself. -/
theorem Leads.refl (c : Cursor) : c.Leads c := ⟨List.suffix_refl _, id, .refl⟩

theorem Leads.trans (h₁ : c.Leads c₁) (h₂ : c₁.Leads c₂) : c.Leads c₂ :=
  ⟨h₂.rest.trans h₁.rest, h₂.ended ∘ h₁.ended, h₁.names.trans h₂.names⟩

/-- A cursor to which another one has been moved by something that has been read.  `took` says that
a token has been taken. -/
structure Moved (took : Bool) (c c' : Cursor) : Prop extends Leads c c' where
  shorter : took = true → c'.rest.length < c.rest.length
  bodies : Body.Grow c.bodies c'.bodies

/-- A cursor that is moved twice has taken a token if either move has. -/
theorem Moved.trans {took took' : Bool} (h₁ : c.Moved took c₁) (h₂ : c₁.Moved took' c₂) :
    c.Moved (took || took') c₂ := by
  refine ⟨h₁.toLeads.trans h₂.toLeads, fun h => ?_, h₁.bodies.trans h₂.bodies⟩
  have le₁ := h₁.rest.length_le
  have le₂ := h₂.rest.length_le
  rcases Bool.or_eq_true _ _ ▸ h with h | h
  · exact Nat.lt_of_le_of_lt le₂ (h₁.shorter h)
  · exact Nat.lt_of_lt_of_le (h₂.shorter h) le₁

/-- A move that has taken a token is a move. -/
theorem Moved.weaken {took took' : Bool} (h : c.Moved took c₁) (ht : took' = true → took = true) :
    c.Moved took' c₁ :=
  ⟨h.toLeads, fun h' => h.shorter (ht h'), h.bodies⟩

/-- A change that concerns neither the tokens nor the bodies. -/
theorem Moved.stay (hr : c₁.rest = c.rest) (hn : c.names.Grows c₁.names)
    (hb : Body.Grow c.bodies c₁.bodies) : c.Moved false c₁ :=
  ⟨⟨hr ▸ List.suffix_refl _, fun ⟨last, hl, he⟩ => ⟨last, hr ▸ hl, he⟩, hn⟩, nofun, hb⟩

theorem Moved.refl (c : Cursor) : c.Moved false c := .stay rfl .refl (.refl _)

/-- A variable stays known when the bodies around it know more. -/
theorem isLocal_of_grow (h : Body.Grow c.bodies c₁.bodies) {name : NameId}
    (hl : c.isLocal name = true) : c₁.isLocal name = true := by
  simp only [isLocal, List.any_eq_true, List.contains_iff_mem] at hl ⊢
  obtain ⟨b, hb, hn⟩ := hl
  have all : ∀ {bs bs' : List Body}, Body.Grow bs bs' → ∀ b ∈ bs, name ∈ b.locals →
      ∃ b' ∈ bs', name ∈ b'.locals := by
    intro bs bs' h
    induction h with
    | nil => nofun
    | @cons b₁ b₁' bs bs' hb₁ _ ih =>
        intro b hb hn
        rcases List.mem_cons.mp hb with rfl | hb
        · exact ⟨b₁', .head _, hb₁.2 hn⟩
        · obtain ⟨b', hb', hn'⟩ := ih b hb hn
          exact ⟨b', .tail _ hb', hn'⟩
  exact all h b hb hn

/-- Whether variables are known, in the body at hand or in one around it. -/
structure Knows (N : NameId → Prop) (c : Cursor) : Prop where
  bodies_ne_nil : c.bodies ≠ []
  known : ∀ name, N name → c.isLocal name = true

/-- A cursor that knows of some names knows of fewer. -/
theorem Knows.mono {N N' : NameId → Prop} (h : c.Knows N) (hN : ∀ name, N' name → N name) :
    c.Knows N' :=
  ⟨h.bodies_ne_nil, fun name hn => h.known name (hN name hn)⟩

/-- What was known stays known. -/
theorem Knows.grown {N : NameId → Prop} (h : c.Knows N) (hb : Body.Grow c.bodies c₁.bodies) :
    c₁.Knows N := by
  refine ⟨fun hn => h.bodies_ne_nil ?_, fun name hn => isLocal_of_grow hb (h.known name hn)⟩
  rw [hn] at hb
  exact List.forall₂_nil_right_iff.mp hb

/-- What was known stays known, and what else is known is known too. -/
theorem Knows.grow {N Q : NameId → Prop} (h : c.Knows N) (hb : Body.Grow c.bodies c₁.bodies)
    (hq : ∀ name, Q name → c₁.isLocal name = true) : c₁.Knows fun name => N name ∨ Q name := by
  have grown := h.grown hb
  refine ⟨grown.bodies_ne_nil, ?_⟩
  rintro name (hn | hn)
  · exact grown.known name hn
  · exact hq name hn

end Cursor

/-! ### Readers -/

namespace Parser

variable {α β : Type} {n n' : Nat} {k : α → Bool} {j : β → Bool} {N N' : NameId → Prop}
  {Q Q' : α → NameId → Prop} {R : β → NameId → Prop}

/-- Where reading has come to from a cursor.  After an answer `a` a token has been taken if `k a`,
and the variables of `Q a` are known if those of `N` were.  There has been fuel enough if fewer than
`n` tokens were left. -/
def Went (n : Nat) (k : α → Bool) (N : NameId → Prop) (Q : α → NameId → Prop) (c : Cursor) :
    Outcome Cursor SyntaxError α → Prop
  | .done a c' => c.Moved (k a) c' ∧ (c.Knows N → ∀ name, Q a name → c'.isLocal name = true)
  | .failed _ c' => c.Leads c'
  | .halted c' => c.Leads c' ∧ n ≤ c.rest.length

/-- **Whether a reader moves the cursor on**, and comes to an end when fewer than `n` tokens are
left. -/
def Moves (n : Nat) (k : α → Bool) (N : NameId → Prop) (Q : α → NameId → Prop) (p : Parser α) :
    Prop :=
  ∀ c : Cursor, Went n k N Q c (p c)

/-- No variable in particular. -/
abbrev unnamed {α : Type} : α → NameId → Prop := fun _ _ => False

/-- Whether a reader moves the cursor on, and takes a token when it answers. -/
abbrev MovesOn (n : Nat) (N : NameId → Prop) (Q : α → NameId → Prop) (p : Parser α) : Prop :=
  Moves n (fun _ => true) N Q p

/-- Whether a reader moves the cursor on, by whatever number of tokens. -/
abbrev MovesBy (n : Nat) (N : NameId → Prop) (Q : α → NameId → Prop) (p : Parser α) : Prop :=
  Moves n (fun _ => false) N Q p

/-- What is read with a further body open. -/
theorem within_apply (kind : BodyKind) (p : Parser α) (c : Cursor) :
    Parser.within kind p c = match p { c with bodies := ⟨kind, []⟩ :: c.bodies } with
      | .done a s => .done a { s with bodies := s.bodies.tail }
      | .failed e s => .failed e s
      | .halted s => .halted s := by
  simp only [Parser.within, Action.bind_apply, Action.update]
  cases p { c with bodies := ⟨kind, []⟩ :: c.bodies } <;> rfl

namespace Moves

/-- Fewer tokens may be cared for. -/
theorem lower {p : Parser α} (h : Moves n k N Q p) (hn : n' ≤ n) : Moves n' k N Q p := by
  intro c
  have hp := h c
  cases e : p c with
  | done a c' | failed e' c' =>
      rw [e] at hp
      exact hp
  | halted c' =>
      rw [e] at hp
      exact ⟨hp.1, Nat.le_trans hn hp.2⟩

/-- One token less may be cared for. -/
theorem fewer {p : Parser α} (h : Moves n k N Q p) : Moves (n - 1) k N Q p :=
  h.lower (Nat.sub_le n 1)

/-- Less may be said of an answer, and more variables be known before. -/
theorem mono {p : Parser α} {k' : α → Bool} (h : Moves n k N Q p)
    (hk : ∀ a, k' a = true → k a = true)
    (hN : ∀ name, N name → N' name) (hQ : ∀ a name, Q' a name → Q a name) :
    Moves n k' N' Q' p := by
  intro c
  have hp := h c
  cases e : p c with
  | done a c' =>
      rw [e] at hp
      exact ⟨hp.1.weaken (hk a), fun hc name hn => hp.2 (hc.mono hN) name (hQ a name hn)⟩
  | failed e' c' | halted c' =>
      rw [e] at hp
      exact hp

/-- What has been taken may not matter. -/
theorem any {p : Parser α} (h : Moves n k N Q p) : MovesBy n N Q p :=
  h.mono nofun (fun _ => id) fun _ _ => id

/-- Which variables are set may not matter. -/
theorem forget {p : Parser α} (h : Moves n k N Q p) : Moves n k N unnamed p :=
  h.mono (fun _ => id) (fun _ => id) nofun

/-- What reads nothing has taken no token. -/
theorem pure {a : α} (hk : k a = false) (h : ∀ name, Q a name → N name) :
    Moves n k N Q (Pure.pure a) := by
  intro c
  refine ⟨?_, fun hc name hn => hc.known name (h name hn)⟩
  rw [hk]
  exact .refl c

/-- An error leaves the cursor, so there is nothing to show. -/
theorem failAt {cause : SyntaxCause} {place : Span} : Moves n k N Q (Parser.failAt cause place) :=
  fun c => .refl c

/-- Running out of fuel is no fault of a reader that no token is left for. -/
theorem exhaust : Moves 0 k N Q Action.exhaust := fun c => ⟨.refl c, Nat.zero_le _⟩

/-- However reading ends, the cursor has been moved on. -/
theorem leads {p : Parser α} (h : Moves n k N Q p) (c : Cursor) :
    c.Leads (p c).state := by
  have went := h c
  cases e : p c with
  | done a c' =>
      rw [e] at went
      exact went.1.toLeads
  | failed e' c' =>
      rw [e] at went
      exact went
  | halted c' =>
      rw [e] at went
      exact went.1

/-- A reader with fuel enough does not run out of it. -/
theorem ne_halted {p : Parser α} (h : Moves n k N Q p) {c : Cursor} (hc : c.rest.length < n)
    (c' : Cursor) : p c ≠ .halted c' := by
  intro e
  have went := h c
  rw [e] at went
  exact Nat.not_le_of_lt hc went.2

/-- Where there has been fuel enough, there has been for any number of tokens. -/
theorem went_of_enough {c : Cursor} {o : Outcome Cursor SyntaxError α} (h : Went n k N Q c o)
    (hc : c.rest.length < n) : Went n' k N Q c o := by
  cases o with
  | done a c' | failed e c' => exact h
  | halted c' => exact absurd h.2 (Nat.not_le_of_lt hc)

/-- What has been read and moved the cursor on is followed by something else, which has one token
less to care for if one has been taken. -/
theorem went_after {took : Bool} {c c₁ : Cursor} {o : Outcome Cursor SyntaxError α}
    (moved : c.Moved took c₁) (known : c.Knows N → c₁.Knows N')
    (h : Went (n - took.toNat) (fun a => k a && !took) N' Q c₁ o) : Went n k N Q c o := by
  cases o with
  | done a c₂ =>
      refine ⟨(moved.trans h.1).weaken fun hk => ?_, fun hc => h.2 (known hc)⟩
      cases took <;> simp [hk]
  | failed e c₂ => exact moved.toLeads.trans h
  | halted c₂ =>
      refine ⟨moved.toLeads.trans h.1, ?_⟩
      have left := h.2
      cases took with
      | true =>
          have shorter := moved.shorter rfl
          simp only [Bool.toNat_true] at left
          omega
      | false => exact Nat.le_trans left moved.rest.length_le

/-- What follows an answer may rely on the variables of the answer.  If a token has been taken it
need not take one, and it has one token less to care for. -/
theorem bind {p : Parser α} {f : α → Parser β} (hp : Moves n k N Q p)
    (hyes : ∀ a, k a = true → MovesBy (n - 1) (fun name => N name ∨ Q a name) R (f a))
    (hno : ∀ a, k a = false → Moves n j (fun name => N name ∨ Q a name) R (f a)) :
    Moves n j N R (p >>= f) := by
  intro c
  have hp := hp c
  rw [Action.bind_apply]
  cases e : p c with
  | failed e' c₁ | halted c₁ =>
      rw [e] at hp
      exact hp
  | done a c₁ =>
      rw [e] at hp
      obtain ⟨moved, known⟩ := hp
      have hf : Moves (n - (k a).toNat) (fun b => j b && !k a) (fun name => N name ∨ Q a name) R
          (f a) := by
        cases hk : k a with
        | true => exact (hyes a hk).mono (by simp) (fun _ => id) fun _ _ => id
        | false => exact (hno a hk).mono (by simp) (fun _ => id) fun _ _ => id
      exact went_after moved (fun hc => hc.grow moved.bodies (known hc)) (hf c₁)

/-- A token that is taken first. -/
theorem first {p : Parser α} {f : α → Parser β} (hp : MovesOn n N Q p)
    (hf : ∀ a, MovesBy (n - 1) (fun name => N name ∨ Q a name) R (f a)) : Moves n j N R (p >>= f) :=
  hp.bind (fun a _ => hf a) nofun

/-- What is taken first may not matter. -/
theorem andThen {p : Parser α} {f : α → Parser β} (hp : Moves n k N Q p)
    (hf : ∀ a, Moves n j (fun name => N name ∨ Q a name) R (f a)) : Moves n j N R (p >>= f) :=
  hp.any.bind nofun fun a _ => hf a

/-- A mark that is taken if it is there. -/
theorem eat {p : Parser Bool} {x y : Parser β} (hp : ∀ N, Moves n id N unnamed p)
    (hx : MovesBy (n - 1) N R x) (hy : Moves n j N R y) :
    Moves n j N R (p >>= fun a => if a then x else y) := by
  refine (hp N).bind ?_ ?_
  · rintro _ rfl
    exact hx.mono (fun _ => id) (fun _ => .inl) fun _ _ => id
  · rintro _ rfl
    exact hy.mono (fun _ => id) (fun _ => .inl) fun _ _ => id

/-- A choice moves as both branches do. -/
theorem ite {c : Prop} [Decidable c] {p q : Parser α} (hp : Moves n k N Q p)
    (hq : Moves n k N Q q) :
    Moves n k N Q (if c then p else q) := by
  split
  · exact hp
  · exact hq

/-- What is made of a result sets the same names. -/
theorem map {f : α → β} {p : Parser α} (hp : Moves n k N Q p)
    (h : ∀ a name, R (f a) name → Q a name) :
    MovesBy n N R (f <$> p) :=
  hp.andThen fun a => .pure rfl fun name hn => .inr (h a name hn)

/-- A look at the cursor does not move it. -/
theorem view (f : Cursor → α) : MovesBy n N unnamed (Action.view f) :=
  fun c => ⟨.refl c, nofun⟩

/-- A body is opened, and closed again when what is read in it has been read. -/
theorem within {p : Parser α} (kind : BodyKind) (hp : MovesBy n N unnamed p) :
    MovesBy n N unnamed (Parser.within kind p) := by
  intro c
  have hp := hp { c with bodies := ⟨kind, []⟩ :: c.bodies }
  rw [within_apply]
  cases e : p { c with bodies := ⟨kind, []⟩ :: c.bodies } with
  | done a c₁ =>
      rw [e] at hp
      obtain ⟨⟨⟨rest, ended, names⟩, -, bodies⟩, -⟩ := hp
      refine ⟨⟨⟨rest, ended, names⟩, nofun, ?_⟩, nofun⟩
      change Body.Grow c.bodies c₁.bodies.tail
      generalize c₁.bodies = bs at bodies
      cases bodies with
      | cons _ hs => exact hs
  | failed e' c₁ =>
      rw [e] at hp
      exact ⟨hp.rest, hp.ended, hp.names⟩
  | halted c₁ =>
      rw [e] at hp
      exact ⟨⟨hp.1.rest, hp.1.ended, hp.1.names⟩, hp.2⟩

/-- A chain moves the cursor on if its steps do, and it comes to an end if they take a token when
they add something. -/
theorem chain {step : α → Parser (Option α)} {a : α}
    (hs : ∀ a N, (∀ name, Q a name → N name) →
      Moves n Option.isSome N (fun r name => ∃ b, r = some b ∧ Q b name) (step a))
    (ha : ∀ name, Q a name → N name) : MovesBy n N Q (Parser.chain step a) := by
  -- A list as long as the tokens that are left is enough, as each round takes a token.
  have all : ∀ tokens a N, ∀ {n'}, n' ≤ n → n' ≤ List.length tokens + 1 →
      (∀ name, Q a name → N name) → MovesBy n' N Q (iterate step tokens a) := by
    intro tokens
    induction tokens with
    | nil =>
        intro a N n' hn ht ha
        refine ((hs a N ha).lower hn).bind (fun r hr => ?_) fun r hr => ?_
        · cases r with
          | none => cases hr
          | some b =>
              have last : n' - 1 = 0 := Nat.sub_eq_zero_of_le ht
              rw [last]
              exact exhaust
        · cases r with
          | none => exact .pure rfl fun name hn => .inl (ha name hn)
          | some b => cases hr
    | cons t tokens ih =>
        intro a N n' hn ht ha
        simp only [List.length_cons] at ht
        refine ((hs a N ha).lower hn).bind (fun r hr => ?_) fun r hr => ?_
        · cases r with
          | none => cases hr
          | some b => exact ih b _ (by omega) (by omega) fun name hn => .inr ⟨b, rfl, hn⟩
        · cases r with
          | none => exact .pure rfl fun name hn => .inl (ha name hn)
          | some b => cases hr
  intro c
  have went := all c.rest a N (Nat.min_le_left n (c.rest.length + 1)) (Nat.min_le_right _ _) ha c
  change Went n _ N Q c (iterate step c.rest a c)
  cases e : iterate step c.rest a c with
  | done b c' | failed e' c' =>
      rw [e] at went
      exact went
  | halted c' =>
      rw [e] at went
      have left := went.2
      exact ⟨went.1, by omega⟩

/-- A step that has nothing to add. -/
theorem none : Moves n Option.isSome N (fun r name => ∃ b, r = some b ∧ Q b name)
    (Pure.pure none : Parser (Option α)) :=
  .pure rfl nofun

/-- A step that has something to add, when a token has been taken for it. -/
theorem some {b : α} (h : ∀ name, Q b name → N name) :
    MovesBy n N (fun r name => ∃ b, r = some b ∧ Q b name) (Pure.pure (some b)) := by
  refine .pure rfl ?_
  rintro name ⟨_, ⟨⟩, hn⟩
  exact h name hn

end Moves

/-! ### Tokens -/

variable {n : Nat} {N : NameId → Prop}

/-- A cursor that has passed some tokens, none of which is the end of the text. -/
theorem moved_of_passed {c c' : Cursor} {passed : List Token} (hr : c.rest = passed ++ c'.rest)
    (hp : ∀ t ∈ passed, t.kind.isEof = false) (hn : c'.names = c.names)
    (hb : c'.bodies = c.bodies) : c.Moved (!passed.isEmpty) c' := by
  refine ⟨⟨⟨passed, hr.symm⟩, fun h => h.of_append hp hr, hn ▸ .refl⟩, fun h => ?_, hb ▸ .refl _⟩
  cases passed with
  | nil => cases h
  | cons t passed =>
      rw [hr, List.length_append, List.length_cons]
      omega

/-- The token that is taken stands after line breaks, and it is not the end of the text. -/
theorem take_done {c c' : Cursor} {t : Token} (h : take c = .done t c') :
    ∃ breaks, c.rest = breaks ++ t :: c'.rest ∧ (∀ b ∈ breaks, b.kind.isLineTerm = true) ∧
      t.kind.isEof = false ∧ c' = { c with rest := c'.rest, prev := t.span } := by
  unfold take at h
  split at h
  · rename_i u rest hs
    split at h
    · cases h
    · rename_i he
      cases h
      refine ⟨c.rest.takeWhile (·.kind.isLineTerm), ?_, ?_, by simpa using he, rfl⟩
      · have whole := @List.takeWhile_append_dropWhile _ (·.kind.isLineTerm) c.rest
        rw [← hs]
        exact whole.symm
      · exact fun b hb => List.all_eq_true.mp List.all_takeWhile b hb
  · cases h

theorem isEof_of_isLineTerm {t : Token} (h : t.kind.isLineTerm = true) :
    t.kind.isEof = false := by
  cases hk : t.kind <;> simp_all [TokenKind.isLineTerm, TokenKind.isEof]

/-- **Taking a token** moves on, if it is not the end of the text. -/
theorem moves_take : MovesOn n N unnamed take := by
  intro c
  cases e : take c with
  | done t c' =>
      obtain ⟨breaks, hr, hb, ht, hc⟩ := take_done e
      refine ⟨?_, nofun⟩
      have hr : c.rest = (breaks ++ [t]) ++ c'.rest := by simpa using hr
      refine (moved_of_passed hr ?_ (by rw [hc]) (by rw [hc])).weaken (by simp)
      intro u hu
      rcases List.mem_append.mp hu with hu | hu
      · exact isEof_of_isLineTerm (hb u hu)
      · exact List.mem_singleton.mp hu ▸ ht
  | failed e' c' =>
      unfold take at e
      split at e
      · split at e <;> cases e
        exact .refl c
      · cases e
        exact .refl c
  | halted c' =>
      unfold take at e
      split at e
      · split at e <;> cases e
      · cases e

/-- What stands at the cursor is taken unless it is the end of the text. -/
theorem advance_of_current {c : Cursor} (h : c.current.kind.isEof = false) :
    ∃ c', advance c = .done () c' ∧ c.rest = c.current :: c'.rest ∧
      c' = { c with rest := c'.rest, prev := c.current.span } := by
  unfold Cursor.current at *
  unfold advance
  cases hc : c.rest with
  | nil => simp [hc, TokenKind.isEof] at h
  | cons t rest =>
      have ht : t.kind.isEof = false := by simpa [hc] using h
      exact ⟨{ c with rest := rest, prev := t.span }, by simp [ht], by simp, by simp⟩

/-- Stepping over a token that is not the end moves on. -/
theorem moved_of_advance {c c' : Cursor} (h : c.current.kind.isEof = false)
    (e : advance c = .done () c') : c.Moved true c' := by
  obtain ⟨c₁, e₁, hr, hc⟩ := advance_of_current h
  rw [e] at e₁
  cases e₁
  have hr : c.rest = [c.current] ++ c'.rest := hr
  refine moved_of_passed hr ?_ (by rw [hc]) (by rw [hc])
  intro t ht
  exact List.mem_singleton.mp ht ▸ h

/-- What is read from a token on that has been looked at: it may be taken first. -/
inductive MovesPast (n : Nat) (k : α → Bool) (N : NameId → Prop) (Q : α → NameId → Prop)
    (t : Token) : Parser α → Prop where
  | before {p : Parser α} (h : Moves n k N Q p) : MovesPast n k N Q t p
  | after {p : Parser α} (he : t.kind.isEof = false) (h : MovesBy (n - 1) N Q p) :
      MovesPast n k N Q t (advance >>= fun _ => p)

/-- A choice by the token at the cursor. -/
theorem moves_byCurrent {k : α → Bool} {Q : α → NameId → Prop} {f : Token → Parser α}
    (hf : ∀ t, MovesPast n k N Q t (f t)) : Moves n k N Q (current >>= f) := by
  intro c
  change Went n k N Q c (f c.current c)
  have hf := hf c.current
  generalize f c.current = p at hf
  cases hf with
  | before h => exact h c
  | @after p he h =>
      obtain ⟨c₁, e, -⟩ := advance_of_current he
      have moved := moved_of_advance he e
      have hp : Moves (n - 1) (fun a => k a && !true) N Q p :=
        h.mono (by simp) (fun _ => id) fun _ _ => id
      rw [Action.bind_apply, e]
      exact Moves.went_after moved (fun hc => hc.grown moved.bodies) (hp c₁)

theorem moves_current : MovesBy n N unnamed current := .view _

theorem moves_prevSpan : MovesBy n N unnamed prevSpan := .view _

/-- An answer that tells the place of the token taken last. -/
theorem moves_placed {Q : α → NameId → Prop} {f : Span → α}
    (h : ∀ place name, Q (f place) name → N name) :
    MovesBy n N Q (prevSpan >>= fun place => pure (f place)) :=
  moves_prevSpan.andThen fun place => .pure rfl fun name hn => .inl (h place name hn)

theorem moves_intern (text : String) : MovesBy n N unnamed (intern text) :=
  fun _ => ⟨.stay rfl (.intern .refl text) (.refl _), nofun⟩

/-- What has been declared is known. -/
theorem moves_declare (name : NameId) :
    MovesBy n N (fun _ declared => declared = name) (declare name) := by
  intro c
  change c.Moved false (c.declare name) ∧ (c.Knows N → ∀ declared, declared = name →
    (c.declare name).isLocal declared = true)
  unfold Cursor.declare
  split
  · rename_i hl
    exact ⟨.refl c, fun _ _ h => h ▸ hl⟩
  · split
    · rename_i b bs hb
      refine ⟨.stay rfl .refl ?_, ?_⟩
      · rw [hb]
        exact .cons ⟨rfl, List.subset_cons_self _ _⟩ (Body.Grow.refl bs)
      · rintro - _ rfl
        simp [Cursor.isLocal]
    · rename_i hb
      exact ⟨.refl c, fun hc => (hc.bodies_ne_nil hb).elim⟩

/-- Passing over line ends may move or not. -/
theorem moves_eatTerms : MovesBy n N unnamed eatTerms := by
  intro c
  unfold eatTerms
  split
  · have whole : c.rest = c.rest.takeWhile isSeparator ++ c.rest.dropWhile isSeparator :=
      List.takeWhile_append_dropWhile.symm
    have others : ∀ t ∈ c.rest.takeWhile isSeparator, t.kind.isEof = false := by
      intro t ht
      have sep := List.all_eq_true.mp List.all_takeWhile t ht
      simp only [isSeparator, Bool.and_eq_true, Bool.not_eq_true'] at sep
      exact sep.2
    exact ⟨(@moved_of_passed c ⟨_, _, _, _⟩ _ whole others rfl rfl).weaken nofun, nofun⟩
  · exact ⟨.refl c, nofun⟩

/-- Punctuation that is taken is a token that is taken. -/
theorem moves_eatPunct (p : Punct) : Moves n id N unnamed (eatPunct p) :=
  .andThen (.view _) fun _ => .ite (moves_take.first fun _ => .pure rfl nofun) (.pure rfl nofun)

theorem moves_eatPunctHere (p : Punct) : Moves n id N unnamed (eatPunctHere p) :=
  moves_current.andThen fun _ => .ite (moves_take.first fun _ => .pure rfl nofun) (.pure rfl nofun)

theorem moves_eatKeyword (w : Keyword) : Moves n id N unnamed (eatKeyword w) :=
  .andThen (.view _) fun _ => .ite (moves_take.first fun _ => .pure rfl nofun) (.pure rfl nofun)

theorem moves_eatKeywordHere (w : Keyword) : Moves n id N unnamed (eatKeywordHere w) := by
  refine moves_byCurrent fun t => ?_
  split
  · rename_i hw
    refine .after ?_ (.pure rfl nofun)
    cases hk : t.kind <;> simp_all [TokenKind.isKeyword, TokenKind.isEof]
  · exact .before (.pure rfl nofun)

theorem moves_eatAssignOp : Moves n Option.isSome N unnamed eatAssignOp := by
  refine moves_byCurrent fun t => ?_
  split
  · rename_i hk
    exact .after (by simp [hk, TokenKind.isEof]) (.pure rfl nofun)
  · exact .before (.pure rfl nofun)

theorem moves_expectKeyword (w : Keyword) : MovesOn n N unnamed (expectKeyword w) :=
  moves_take.first fun _ => .ite (.pure rfl nofun) .failAt

theorem moves_expectPunct (p : Punct) : MovesOn n N unnamed (expectPunct p) :=
  moves_take.first fun _ => .ite (.pure rfl nofun) .failAt

theorem moves_expectIdent : MovesOn n N unnamed expectIdent := by
  refine moves_take.first fun t => ?_
  split
  · exact moves_intern _
  · exact .failAt

/-- Whether evaluating a tree may set a variable. -/
abbrev sets (node : Node) (name : NameId) : Prop := name ∈ node.vars

/-- Whether evaluating one of several trees may set a variable. -/
abbrev setsAny (nodes : List Node) (name : NameId) : Prop := name ∈ Node.varsAll nodes

end Parser

/-- Readers for the rules that move the cursor on, and come to an end when fewer than `n` tokens are
left.  All rules but that for statements take a token; the branches of a condition are read after
the word before them, so they have one token less to care for. -/
structure Rules.Move (n : Nat) (rules : Rules) : Prop where
  stmts {N : NameId → Prop} : Parser.MovesBy n N Parser.sets (rules .stmts)
  expr {N : NameId → Prop} : Parser.MovesOn n N Parser.sets (rules .expr)
  arg {N : NameId → Prop} : Parser.MovesOn n N Parser.sets (rules .arg)
  signed {N : NameId → Prop} : Parser.MovesOn n N Parser.sets (rules .signed)
  unary {N : NameId → Prop} : Parser.MovesOn n N Parser.sets (rules .unary)
  branch (place : Span) {N : NameId → Prop} :
    Parser.MovesOn (n - 1) N Parser.sets (rules (.branch place))

/-- Readers that move the cursor on, whatever fuel they have. -/
theorem Rules.Move.any {n : Nat} {rules : Rules} (h : rules.Move n) : rules.Move 0 where
  stmts := h.stmts.lower (Nat.zero_le n)
  expr := h.expr.lower (Nat.zero_le n)
  arg := h.arg.lower (Nat.zero_le n)
  signed := h.signed.lower (Nat.zero_le n)
  unary := h.unary.lower (Nat.zero_le n)
  branch place := (h.branch place).lower (Nat.zero_le _)

namespace Parser

variable {n : Nat} {N : NameId → Prop} {rules : Rules} (hr : rules.Move n)

include hr

/-! ### Calls -/

/-- A round of an argument list takes an argument or the end of the list. -/
theorem moves_argOrClose (close : Punct) (args : List Node) (more : Bool)
    (ha : ∀ name, setsAny args name → N name) :
    Moves n Option.isSome N (fun r name => ∃ b, r = some b ∧ setsAny b.1 name)
      (argOrClose rules close (args, more)) := by
  refine .ite .none (.eat (fun _ => moves_eatPunct close) (.some ha) (hr.arg.first fun arg => ?_))
  have both : ∀ name, setsAny (arg :: args) name → N name ∨ sets arg name := by
    intro name hn
    rcases List.mem_append.mp hn with hn | hn
    · exact .inr hn
    · exact .inl (ha name hn)
  refine .eat (fun _ => moves_eatPunct .comma) (.some both) ?_
  exact (moves_expectPunct close).andThen fun _ => .some fun name hn => .inl (both name hn)

theorem moves_argsUntil (close : Punct) : MovesBy n N setsAny (argsUntil rules close) := by
  refine .andThen (Q := fun b name => setsAny b.1 name) (.chain (fun (args, more) N =>
    moves_argOrClose hr close args more) nofun) fun (args, more) => .pure rfl fun name hn => ?_
  exact .inr (by simpa using hn)

theorem moves_commandArg (args : List Node) (more : Bool)
    (ha : ∀ name, setsAny args name → N name) :
    Moves n Option.isSome N (fun r name => ∃ b, r = some b ∧ setsAny b.1 name)
      (commandArg rules (args, more)) := by
  refine .ite .none (hr.arg.first fun arg => ?_)
  refine (moves_eatPunctHere .comma).andThen fun comma => .some fun name hn => ?_
  rcases List.mem_append.mp hn with hn | hn
  · exact .inl (.inr hn)
  · exact .inl (.inl (ha name hn))

theorem moves_commandArgs : MovesBy n N setsAny (commandArgs rules) := by
  refine .andThen (Q := fun b name => setsAny b.1 name) (.chain (fun (args, more) N =>
    moves_commandArg hr args more) nofun) fun (args, more) => .pure rfl fun name hn => ?_
  exact .inr (by simpa using hn)

omit hr in
theorem moves_operatorName (p : Punct) : MovesBy n N unnamed (operatorName p) := by
  unfold operatorName
  refine .ite (.eat (fun _ => moves_eatPunctHere .rbracket) ?_ ?_) ?_
  · refine .andThen (.view _) fun _ => .ite ?_ (.pure rfl nofun)
    exact .eat (fun _ => moves_eatPunctHere .assign) (.pure rfl nofun) (.pure rfl nofun)
  · exact moves_current.andThen fun _ => .failAt
  · split
    · exact moves_intern _
    · exact moves_prevSpan.andThen fun _ => .failAt

omit hr in
theorem moves_calledName (t : Token) : MovesBy n N unnamed (calledName t) := by
  unfold calledName
  split
  · exact moves_intern _
  · exact moves_intern _
  · exact moves_intern _
  · exact moves_operatorName _
  · exact .failAt

omit hr in
theorem moves_methodName : MovesOn n N unnamed methodName :=
  moves_take.first fun t => (moves_calledName t).andThen fun _ => moves_placed nofun

theorem moves_callArgs : MovesBy n N setsAny (callArgs rules) := by
  refine .andThen (.view _) fun _ => .ite ?_ (.andThen (.view _) fun _ => .ite ?_ ?_)
  · exact moves_take.andThen fun _ => moves_argsUntil hr .rparen
  · exact moves_commandArgs hr
  · exact .pure rfl nofun

theorem moves_methodCall (receiver : Node) (ho : ∀ name, sets receiver name → N name) :
    MovesOn n N sets (methodCall rules receiver) := by
  refine moves_methodName.first fun _ => (moves_callArgs hr).fewer.andThen fun args =>
    moves_placed ?_
  intro place name hn
  rw [sets, Node.vars_ofSend] at hn
  rcases List.mem_append.mp hn with hn | hn
  · exact .inl (.inl (ho name hn))
  · exact .inr hn

theorem moves_indexing (receiver : Node) (ho : ∀ name, sets receiver name → N name) :
    MovesOn n N sets (indexing rules receiver) := by
  refine moves_take.first fun _ => (moves_argsUntil hr .rbracket).fewer.andThen fun args =>
    moves_placed ?_
  intro place name hn
  rw [sets, Node.vars_ofSend] at hn
  rcases List.mem_append.mp hn with hn | hn
  · exact .inl (.inl (ho name hn))
  · exact .inr hn

/-- A link of a chain takes its point or its bracket. -/
theorem moves_link (node : Node) (hn : ∀ name, sets node name → N name) :
    Moves n Option.isSome N (fun r name => ∃ b, r = some b ∧ sets b name) (link rules node) := by
  have more : ∀ b name, (∃ b', some b = some b' ∧ sets b' name) → sets b name := by
    rintro b name ⟨_, ⟨⟩, h⟩
    exact h
  refine .eat (fun _ => moves_eatPunct .dot) ?_ (.andThen (.view _) fun _ => .ite ?_ .none)
  · exact (moves_methodCall hr node hn).fewer.map more
  · exact (moves_indexing hr node fun name h => .inl (hn name h)).first fun b =>
      .some fun name h => .inr h

theorem moves_chained (node : Node) (hn : ∀ name, sets node name → N name) :
    MovesBy n N sets (chained rules node) :=
  .chain (fun node _ => moves_link hr node) hn

theorem moves_functionCall (name : NameId) (place : Span) :
    MovesBy n N sets (functionCall rules name place) := by
  refine moves_take.andThen fun _ => (moves_argsUntil hr .rparen).andThen fun args =>
    moves_placed fun place name hn => ?_
  rw [sets, Node.vars_ofCall] at hn
  exact .inr hn

/-- An identifier sets no name, as reading it is no assignment. -/
theorem moves_identifier (text : String) (place : Span) :
    MovesBy n N sets (identifier rules text place) := by
  have bare : ∀ {N : NameId → Prop} {id : NameId}, MovesBy n N sets (pure (.ident place id)) :=
    fun {_ _} => .pure rfl fun name hn => by simp [sets, Node.vars] at hn
  refine (moves_intern text).andThen fun id => .andThen (.view _) fun _ => ?_
  refine .ite (moves_functionCall hr id place) (.andThen (.view _) fun _ => .ite bare ?_)
  refine .andThen (.view _) fun _ => .ite ?_ bare
  refine (moves_commandArgs hr).andThen fun args => .pure rfl fun name hn => ?_
  rw [sets, Node.vars_ofCall] at hn
  exact .inr hn

theorem moves_constant (text : String) (place : Span) :
    MovesBy n N sets (constant rules text place) :=
  (moves_intern text).andThen fun id => .andThen (.view _) fun _ =>
    .ite (moves_functionCall hr id place)
      (.pure rfl fun name hn => by simp [sets, Node.vars] at hn)

/-! ### Blocks -/

omit hr in
theorem moves_opening (w : Keyword) : MovesBy n N unnamed (opening w) :=
  moves_eatTerms.andThen fun _ => .ite ((moves_eatKeyword w).andThen fun _ => .pure rfl nofun)
    (moves_expectKeyword w).any

theorem moves_elseBranch : MovesBy n N sets (elseBranch rules) := by
  refine .eat (fun _ => moves_eatKeyword .kElse) hr.stmts.fewer (moves_current.andThen fun t => ?_)
  exact .pure rfl fun name hn => by simp [sets] at hn

theorem moves_otherBranch : MovesBy n N sets (otherBranch rules) :=
  .eat (fun _ => moves_eatKeyword .kElsif)
    (moves_prevSpan.andThen fun place => (hr.branch place).any) (moves_elseBranch hr)

theorem moves_branches (place : Span) : MovesOn n N sets (branches rules place) := by
  refine hr.expr.first fun test => (moves_opening .kThen).andThen fun _ =>
    hr.stmts.fewer.andThen fun yes => (moves_otherBranch hr).fewer.andThen fun no => .pure rfl ?_
  intro name hn
  simp only [sets, Node.vars_ofCond, List.mem_append] at hn ⊢
  tauto

theorem moves_unlessBlock (place : Span) : MovesBy n N sets (unlessBlock rules place) := by
  refine hr.expr.andThen fun test => (moves_opening .kThen).andThen fun _ =>
    hr.stmts.andThen fun no => (moves_elseBranch hr).andThen fun yes =>
      (moves_expectKeyword .kEnd).andThen fun _ => .pure rfl ?_
  intro name hn
  simp only [sets, Node.vars_ofCond, List.mem_append] at hn ⊢
  tauto

theorem moves_whileBlock (place : Span) : MovesBy n N sets (whileBlock rules place) := by
  refine hr.expr.andThen fun test => (moves_opening .kDo).andThen fun _ =>
    hr.stmts.andThen fun body => (moves_expectKeyword .kEnd).andThen fun _ => moves_placed ?_
  intro place name hn
  simp only [sets, Node.vars_ofLoop, List.mem_append] at hn ⊢
  tauto

theorem moves_jumpValue (place : Span) : MovesBy n N sets (jumpValue rules place) :=
  moves_current.andThen fun _ => .ite
    (.pure rfl fun name hn => by simp [sets, Node.vars] at hn) hr.arg.any

theorem moves_rescueClasses : MovesBy n N setsAny (rescueClasses rules) :=
  moves_current.andThen fun _ => .ite (.pure rfl nofun) (moves_commandArgs hr)

omit hr in
/-- The name for an exception is set by its clause. -/
theorem moves_rescueBinder :
    MovesBy n N (fun r name => r = some name) rescueBinder := by
  refine .eat (fun _ => moves_eatPunctHere .arrow) (moves_expectIdent.andThen fun id => ?_)
    (.pure rfl nofun)
  refine (moves_declare id).andThen fun _ => .pure rfl ?_
  rintro name ⟨⟩
  exact .inr rfl

theorem moves_rescueClause :
    MovesBy n N (fun c name => name ∈ Node.ofClause c) (rescueClause rules) := by
  refine moves_eatTerms.andThen fun _ => .ite ?_ ?_
  · refine hr.stmts.andThen fun body => .pure rfl fun name hn => .inr ?_
    simpa [Node.ofClause, Node.varsAll] using hn
  · refine (moves_rescueClasses hr).andThen fun classes => moves_rescueBinder.andThen fun binder? =>
      (moves_opening .kThen).andThen fun _ => hr.stmts.andThen fun body => .pure rfl ?_
    intro name hn
    simp only [Node.ofClause, List.mem_append, Option.mem_toList] at hn
    tauto

theorem moves_nextRescue (clauses : List (RescueClause Node))
    (hc : ∀ name, name ∈ Node.varsRescues clauses → N name) :
    Moves n Option.isSome N (fun r name => ∃ b, r = some b ∧ name ∈ Node.varsRescues b)
      (nextRescue rules clauses) := by
  refine .eat (fun _ => moves_eatKeyword .kRescue) ?_ .none
  refine (moves_rescueClause hr).fewer.andThen fun clause => .some fun name hn => ?_
  obtain ⟨c, hmem, hn⟩ := Node.mem_varsRescues.mp hn
  rcases List.mem_append.mp hmem with hmem | hmem
  · exact .inl (hc name (Node.mem_varsRescues.mpr ⟨c, hmem, hn⟩))
  · exact .inr (List.mem_singleton.mp hmem ▸ hn)

theorem moves_rescueClauses :
    MovesBy n N (fun b name => name ∈ Node.varsRescues b) (rescueClauses rules) :=
  .chain (fun clauses _ => moves_nextRescue hr clauses) nofun

theorem moves_otherwiseClause (rescued : Bool) :
    MovesBy n N (fun r name => ∃ b, r = some b ∧ sets b name) (otherwiseClause rules rescued) := by
  refine .eat (fun _ => moves_eatKeyword .kElse) (.ite (hr.stmts.fewer.map ?_) ?_) (.pure rfl nofun)
  · rintro b name ⟨_, ⟨⟩, h⟩
    exact h
  · exact moves_prevSpan.andThen fun _ => .failAt

theorem moves_ensureClause :
    MovesBy n N (fun r name => ∃ b, r = some b ∧ sets b name) (ensureClause rules) := by
  refine .eat (fun _ => moves_eatKeyword .kEnsure) (hr.stmts.fewer.map ?_) (.pure rfl nofun)
  rintro b name ⟨_, ⟨⟩, h⟩
  exact h

omit hr in
/-- A part that is missing sets no name. -/
theorem sets_getD {part? : Option Node} {place : Span} {name : NameId}
    (h : sets (part?.getD (.nop place)) name) : ∃ b, part? = some b ∧ sets b name := by
  cases part? with
  | none => simp [sets] at h
  | some b => exact ⟨b, rfl, h⟩

theorem moves_guardedBody : MovesBy n N sets (guardedBody rules) := by
  refine hr.stmts.andThen fun body => (moves_rescueClauses hr).andThen fun rescues =>
    (moves_otherwiseClause hr _).andThen fun otherwise =>
      (moves_ensureClause hr).andThen fun cleanup => .ite (.pure rfl ?_) (moves_placed ?_)
  · intro name hn
    exact .inl (.inl (.inl (.inr hn)))
  · intro place name hn
    simp only [sets, Node.vars, List.mem_append] at hn
    rcases hn with ((hn | hn) | hn) | hn
    · exact .inl (.inl (.inl (.inr hn)))
    · exact .inl (.inl (.inr hn))
    · exact .inl (.inr (sets_getD hn))
    · exact .inr (sets_getD hn)

theorem moves_beginBlock (place : Span) : MovesBy n N sets (beginBlock rules place) := by
  refine (moves_guardedBody hr).andThen fun node => (moves_expectKeyword .kEnd).andThen fun _ => ?_
  split
  · exact .pure rfl fun name hn => .inl (.inr hn)
  · refine moves_placed fun place name hn => .inl (.inr ?_)
    simpa [sets, Node.varsAll] using hn

/-! ### Definitions -/

omit hr in
theorem moves_setterName (text : String) : MovesBy n N unnamed (setterName text) := by
  refine .andThen (.view _) fun _ => .ite ?_ (moves_intern text)
  exact moves_take.andThen fun _ => moves_intern _

omit hr in
theorem moves_definedName (t : Token) : MovesBy n N unnamed (definedName t) := by
  unfold definedName
  split
  · exact moves_setterName _
  · exact moves_setterName _
  · exact moves_setterName _
  · exact moves_operatorName _
  · exact .failAt

theorem moves_param (params : List (Param Node)) : MovesOn n N unnamed (param rules params) := by
  refine moves_current.andThen fun _ => moves_expectIdent.first fun name => .ite .failAt ?_
  refine (moves_declare name).andThen fun _ => .eat (fun _ => moves_eatPunctHere .assign) ?_ ?_
  · exact hr.arg.fewer.fewer.andThen fun _ => .pure rfl nofun
  · exact .ite .failAt (.pure rfl nofun)

theorem moves_nextParam (params : List (Param Node)) (more : Bool) :
    Moves n Option.isSome N (fun r name => ∃ b, r = some b ∧ unnamed b name)
      (nextParam rules (params, more)) := by
  refine .ite .none ((moves_param hr params).first fun p => ?_)
  exact (moves_eatPunct .comma).andThen fun _ => .some nofun

theorem moves_someParams : MovesBy n N unnamed (someParams rules) :=
  .andThen (.chain (fun (params, more) _ _ => moves_nextParam hr params more) nofun)
    fun _ => .pure rfl nofun

theorem moves_anyParams : MovesBy n N unnamed (anyParams rules) := by
  refine .eat (fun _ => moves_eatPunctHere .lparen) (.eat (fun _ => moves_eatPunct .rparen) ?_ ?_)
    (moves_current.andThen fun t => ?_)
  · exact .pure rfl nofun
  · exact (moves_someParams hr).fewer.andThen fun _ => (moves_expectPunct .rparen).andThen fun _ =>
      .pure rfl nofun
  · split
    · exact moves_someParams hr
    · exact .pure rfl nofun

theorem moves_paramList : MovesBy n N unnamed (paramList rules) :=
  moves_eatTerms.andThen fun _ => .ite (.pure rfl nofun)
    ((moves_anyParams hr).andThen fun _ => moves_eatTerms.andThen fun _ => .pure rfl nofun)

omit hr in
theorem moves_definitionTarget (t : Token) :
    MovesBy n N (fun r name => ∃ b, r = some b ∧ sets b name) (definitionTarget t) := by
  unfold definitionTarget
  refine moves_current.andThen fun cur => ?_
  dsimp only
  split
  · refine .pure rfl ?_
    rintro name ⟨b, hb, hn⟩
    split at hb <;> cases hb
    simp [sets, Node.vars] at hn
  · refine .ite ((moves_intern _).andThen fun id => .pure rfl ?_) (.pure rfl nofun)
    rintro name ⟨b, ⟨⟩, hn⟩
    simp [sets, Node.vars] at hn
  · exact .pure rfl nofun

omit hr in
theorem moves_definitionName (t : Token) (target? : Option Node) :
    MovesBy n N unnamed (definitionName t target?) := by
  cases target? with
  | some target =>
      exact moves_take.andThen fun _ => moves_take.andThen fun t' => moves_definedName t'
  | none => exact moves_definedName t

/-- A method sets no name outside of its body. -/
theorem moves_methodParts : MovesBy n N unnamed (methodParts rules) :=
  (moves_paramList hr).andThen fun _ => (moves_guardedBody hr).andThen fun _ => .pure rfl nofun

theorem moves_methodDefinition (place : Span) :
    MovesBy n N sets (methodDefinition rules place) := by
  refine moves_take.andThen fun t => (moves_definitionTarget t).andThen fun target? =>
    (moves_definitionName t target?).andThen fun name =>
      (Moves.within .methodBody (moves_methodParts hr)).andThen fun parts =>
        (moves_expectKeyword .kEnd).andThen fun _ => moves_prevSpan.andThen fun _ => ?_
  cases target? with
  | some target =>
      refine .pure rfl fun name hn => .inl (.inl (.inl (.inl (.inr ⟨target, rfl, ?_⟩))))
      simpa [sets, Node.vars] using hn
  | none => exact .pure rfl fun name hn => by simp [sets, Node.vars] at hn

omit hr in
theorem moves_className (t : Token) : MovesBy n N unnamed (className t) := by
  unfold className
  split
  · exact moves_intern _
  · exact .failAt

theorem moves_classParent :
    MovesBy n N (fun r name => ∃ b, r = some b ∧ sets b name) (classParent rules) := by
  refine .eat (fun _ => moves_eatPunctHere .less) (hr.expr.fewer.map ?_) (.pure rfl nofun)
  rintro b name ⟨_, ⟨⟩, h⟩
  exact h

theorem moves_classDefinition (place : Span) : MovesBy n N sets (classDefinition rules place) := by
  refine moves_take.andThen fun t => (moves_className t).andThen fun id =>
    (moves_classParent hr).andThen fun parent? => moves_eatTerms.andThen fun _ =>
      (Moves.within .classBody (moves_guardedBody hr).forget).andThen fun body =>
        (moves_expectKeyword .kEnd).andThen fun _ => moves_placed fun place name hn => ?_
  cases parent? with
  | some parent =>
      refine .inl (.inl (.inl (.inr ⟨parent, rfl, ?_⟩)))
      simpa [sets, Node.vars] using hn
  | none => simp [sets, Node.vars] at hn

/-! ### Operands -/

/-- **Every primary** takes a token before it comes back to other rules, so it cares for one token
more than they do. -/
theorem moves_primary : MovesOn (n + 1) N sets (primary rules) := by
  have leaf : ∀ {N : NameId → Prop} {node : Node}, node.vars = [] →
      MovesBy n N sets (pure node) :=
    fun {_ _} hv => .pure rfl fun name hn => by simp [sets, hv] at hn
  have jump : ∀ {N : NameId → Prop} {f : Node → Node} {place : Span},
      (∀ value, (f value).vars = value.vars) →
      MovesBy n N sets (f <$> jumpValue rules place) :=
    fun {_ f place} hf => (moves_jumpValue hr place).map fun value name hn => by
      rwa [sets, hf value] at hn
  unfold primary
  refine moves_take.first fun t => ?_
  dsimp only
  split
  · exact moves_identifier hr _ _
  · exact (moves_intern _).andThen fun _ => leaf (by simp [Node.vars])
  · exact moves_constant hr _ _
  · exact .ite (leaf (by simp [Node.vars])) .failAt
  · exact leaf (by simp [Node.vars])
  · exact leaf (by simp [Node.vars])
  · exact (moves_intern _).andThen fun _ => leaf (by simp [Node.vars])
  · exact hr.stmts.andThen fun node => (moves_expectPunct .rparen).andThen fun _ =>
      .pure rfl fun name hn => .inl (.inr hn)
  · refine (moves_argsUntil hr .rbracket).andThen fun elements =>
      moves_placed fun place name hn => ?_
    rw [sets, Node.vars] at hn
    exact .inr hn
  · split
    · exact leaf (by simp [Node.vars])
    · exact leaf (by simp [Node.vars])
    · exact leaf (by simp [Node.vars])
    · exact leaf (by simp [Node.vars])
    · exact (moves_branches hr _).andThen fun node => (moves_expectKeyword .kEnd).andThen fun _ =>
        .pure rfl fun name hn => .inl (.inr hn)
    · exact moves_unlessBlock hr _
    · exact moves_whileBlock hr _
    · exact moves_methodDefinition hr _
    · exact .andThen (.view _) fun _ => .ite .failAt (moves_classDefinition hr _)
    · exact moves_beginBlock hr _
    · exact jump (by simp)
    · exact jump (by simp)
    · exact jump (by simp)
    · exact .failAt
  · exact .failAt

omit hr in
/-- What is read of a negated expression. -/
theorem moves_negated {p : Parser Node} (hp : ∀ {N}, MovesOn n N sets p) :
    MovesBy n N sets (prevSpan >>= fun place => .ofNot place <$> p) :=
  moves_prevSpan.andThen fun place => hp.map fun node name hn => by
    rwa [sets, Node.vars_ofNot] at hn

theorem moves_unary : MovesOn (n + 1) N sets (unary rules) := by
  refine .eat (fun _ => moves_eatPunct .bang) (moves_negated hr.unary) ?_
  exact (moves_primary hr).first fun node => moves_chained hr node fun _ => .inr

omit hr in
/-- A call by an operator sets what its sides set. -/
theorem moves_infixCall (p : Punct) {left right : Node} (hl : ∀ name, sets left name → N name)
    (ho : ∀ name, sets right name → N name) : MovesBy n N sets (infixCall p left right) := by
  refine (moves_intern _).andThen fun id => .pure rfl fun name hn => .inl ?_
  rw [sets, Node.vars_ofInfix] at hn
  rcases List.mem_append.mp hn with hn | hn
  · exact hl name hn
  · exact ho name hn

theorem moves_power : MovesOn (n + 1) N sets (power rules) := by
  refine (moves_unary hr).first fun left => .eat (fun _ => moves_eatPunctHere .power) ?_
    (.pure rfl fun _ => .inr)
  exact hr.signed.fewer.andThen fun right => moves_infixCall .power (fun _ hn => .inl (.inr hn))
    fun _ => .inr

omit hr in
/-- A sign is looked at before it is taken. -/
theorem moves_signedNumber (place : Span) :
    MovesBy n N (fun r name => ∃ b, r = some b ∧ sets b name) (signedNumber? place) := by
  have leaf : ∀ {N : NameId → Prop} {node : Node}, node.vars = [] →
      MovesBy n N (fun r name => ∃ b, r = some b ∧ sets b name) (pure (some node)) :=
    fun {_ _} hv => .some fun name hn => by simp [sets, hv] at hn
  unfold signedNumber?
  refine moves_byCurrent fun t => ?_
  dsimp only
  split
  · rename_i n hk
    split
    · exact .after (by simp [hk, TokenKind.isEof]) (leaf (by simp [Node.vars]))
    · exact .before .failAt
  · rename_i x hk
    exact .after (by simp [hk, TokenKind.isEof]) (leaf (by simp [Node.vars]))
  · exact .before (.pure rfl nofun)

omit hr in
theorem moves_signedLiteral (place : Span) :
    MovesBy n N (fun r name => ∃ b, r = some b ∧ sets b name) (signedLiteral? place) :=
  .andThen (.view _) fun _ => .ite (.pure rfl nofun) (moves_signedNumber place)

theorem moves_signed : MovesOn (n + 1) N sets (signed rules) := by
  refine .eat (fun _ => moves_eatPunct .minus) (moves_prevSpan.andThen fun place => ?_)
    (moves_power hr)
  refine (moves_signedLiteral place).andThen fun literal? => ?_
  cases literal? with
  | some literal => exact moves_chained hr literal fun name hn => .inr ⟨literal, rfl, hn⟩
  | none =>
      refine hr.signed.andThen fun operand => .pure rfl fun name hn => .inr ?_
      simpa [sets, Node.varsAll] using hn

/-! ### Operators -/

omit hr in
theorem moves_eatOperator (level : Level) :
    Moves n Option.isSome N unnamed (eatOperator level) := by
  refine moves_current.andThen fun t => ?_
  split
  · exact .ite (moves_take.first fun _ => .pure rfl nofun) (.pure rfl nofun)
  · exact .pure rfl nofun

omit hr in
theorem moves_join (level : Level) (p : Punct) {left right : Node}
    (hl : ∀ name, sets left name → N name) (ho : ∀ name, sets right name → N name) :
    MovesBy n N sets (level.join p left right) := by
  have both : ∀ name, name ∈ left.vars ++ right.vars → N name := by
    intro name hn
    rcases List.mem_append.mp hn with hn | hn
    · exact hl name hn
    · exact ho name hn
  unfold Level.join
  split
  · exact .pure rfl fun name hn => both name (by rwa [sets, Node.vars_ofOr] at hn)
  · exact .pure rfl fun name hn => both name (by rwa [sets, Node.vars_ofAnd] at hn)
  · exact moves_infixCall p hl ho

omit hr in
theorem moves_extend (level : Level) {operand : Parser Node} (ho : ∀ {N}, MovesOn n N sets operand)
    (left : Node) (hl : ∀ name, sets left name → N name) :
    Moves n Option.isSome N (fun r name => ∃ b, r = some b ∧ sets b name)
      (level.extend operand left) := by
  refine (moves_eatOperator level).bind (fun r hr => ?_) fun r hr => ?_
  · cases r with
    | none => cases hr
    | some p =>
        refine ho.fewer.andThen fun right => Moves.map (moves_join level p
          (fun name hn => .inl (.inl (hl name hn))) fun _ => .inr) ?_
        rintro b name ⟨_, ⟨⟩, hn⟩
        exact hn
  · cases r with
    | none => exact .none
    | some p => cases hr

/-- **Operators** move on with their first operand. -/
theorem moves_operation (levels : List Level) :
    MovesOn (n + 1) N sets (operation rules levels) := by
  induction levels generalizing N with
  | nil => exact moves_signed hr
  | cons level tighter ih =>
      have extend : ∀ {N : NameId → Prop} left, (∀ name, sets left name → N name) →
          Moves n Option.isSome N (fun r name => ∃ b, r = some b ∧ sets b name)
            (level.extend (operation rules tighter) left) :=
        fun {_} left => moves_extend level (ih.lower (Nat.le_succ n)) left
      refine ih.first fun left => ?_
      split
      · refine (extend left fun _ => .inr).andThen fun r => ?_
        cases r with
        | none => exact .pure rfl fun _ hn => .inl (.inr hn)
        | some node => exact .pure rfl fun _ hn => .inr ⟨node, rfl, hn⟩
      · exact .chain (fun left _ => extend left) fun _ => .inr

omit hr in
/-- A variable that is assigned to is known from then on. -/
theorem moves_checkTarget (target : Node) :
    MovesBy n N (fun _ name => name ∈ target.assigned) (checkTarget target) := by
  cases target with
  | ident place name =>
      refine (moves_declare name).mono (fun _ => id) (fun _ => id) fun _ name' hn => ?_
      simpa [Node.assigned] using hn
  | instanceVar => exact .pure rfl nofun
  | const => exact .andThen (.view _) fun _ => .ite .failAt (.pure rfl nofun)
  | send place receiver? name args =>
      cases receiver? with
      | some receiver => exact .ite (.pure rfl nofun) .failAt
      | none => exact .failAt
  | _ => exact .failAt

/-- **An assignment** sets its target. -/
theorem moves_assignment : MovesOn (n + 1) N sets (assignment rules) := by
  refine (moves_operation hr levels).first fun left => .eat (fun _ => moves_eatPunctHere .assign)
    ?_ (moves_eatAssignOp.andThen fun op? => ?_)
  · refine (moves_checkTarget left).andThen fun _ => hr.arg.fewer.andThen fun right => .pure rfl ?_
    intro name hn
    simp only [sets, Node.vars_ofAssign, List.mem_append] at hn ⊢
    tauto
  · cases op? with
    | none => exact .pure rfl fun _ hn => .inl (.inr hn)
    | some op =>
        refine (moves_checkTarget left).andThen fun _ => hr.arg.andThen fun right =>
          (moves_intern _).andThen fun id => .pure rfl fun name hn => ?_
        simp only [sets, Node.vars_ofAssign, Node.vars_ofInfix, List.mem_append] at hn ⊢
        tauto

/-! ### Statements -/

theorem moves_expression : MovesOn (n + 1) N sets (expression rules) :=
  .eat (fun _ => moves_eatKeyword .kNot) (moves_negated hr.expr) (moves_assignment hr)

/-- A modifier is a token more. -/
theorem moves_modified (node : Node) (hn : ∀ name, sets node name → N name) :
    Moves n Option.isSome N (fun r name => ∃ b, r = some b ∧ sets b name)
      (modified rules node) := by
  have modifier : ∀ {f : Span → Node → Node}, (∀ place test name, sets (f place test) name →
      sets test name ∨ sets node name) →
      MovesBy (n - 1) N (fun r name => ∃ b, r = some b ∧ sets b name) (do
        let place ← prevSpan
        let test ← rules .expr
        pure (some (f place test))) := by
    intro f hf
    refine moves_prevSpan.andThen fun place =>
      hr.expr.fewer.andThen fun test => .some fun name h => ?_
    rcases hf place test name h with h | h
    · exact .inr h
    · exact .inl (.inl (hn name h))
  refine .eat (fun _ => moves_eatKeywordHere .kIf) (modifier ?_) ?_
  · intro place test name h
    simpa [sets] using h
  refine .eat (fun _ => moves_eatKeywordHere .kUnless) (modifier ?_) ?_
  · intro place test name h
    simpa [sets] using h
  refine .eat (fun _ => moves_eatKeywordHere .kWhile) (modifier ?_) .none
  intro place test name h
  simpa [sets] using h

theorem moves_statement : MovesOn (n + 1) N sets (statement rules) :=
  (moves_expression hr).first fun _ =>
    .chain (fun node _ => moves_modified hr node) fun _ => .inr

/-- A round of statements takes a statement or stops. -/
theorem moves_nextStatement (body : List Node) (more : Bool)
    (hb : ∀ name, setsAny body name → N name) :
    Moves (n + 1) Option.isSome N (fun r name => ∃ b, r = some b ∧ setsAny b.1 name)
      (nextStatement rules (body, more)) := by
  refine .ite .none (.andThen (.view _) fun _ => .ite .none ((moves_statement hr).first fun node =>
    moves_eatTerms.andThen fun more => .some fun name hn => ?_))
  rcases List.mem_append.mp hn with hn | hn
  · exact .inl (.inr hn)
  · exact .inl (.inl (.inl (hb name hn)))

theorem moves_statements : MovesBy (n + 1) N sets (statements rules) := by
  refine moves_eatTerms.andThen fun _ => moves_current.andThen fun _ => ?_
  refine .andThen (Q := fun b name => setsAny b.1 name) (.chain (fun (body, more) N =>
    moves_nextStatement hr body more) nofun) fun (body, more) => .pure rfl fun name hn => .inr ?_
  simpa [sets] using hn

/-- **All rules** move on, and care for one token more than the rules that they come back to. -/
theorem moves_ofRule : Rules.Move (n + 1) (ofRule rules) :=
  ⟨moves_statements hr, moves_expression hr, moves_assignment hr, moves_signed hr, moves_unary hr,
    fun place => moves_branches hr place⟩

omit hr in
/-- **A rule moves the cursor on**, and comes to an end when there is more fuel than tokens are
left. -/
theorem moves_rule (fuel : Nat) : Rules.Move fuel (rule fuel) := by
  induction fuel with
  | zero => exact ⟨.exhaust, .exhaust, .exhaust, .exhaust, .exhaust, fun _ => .exhaust⟩
  | succ fuel ih => exact moves_ofRule ih

omit hr in
/-- A whole program is read to its end if it has fewer tokens than there is fuel. -/
theorem moves_program (fuel : Nat) : MovesBy fuel N sets (program fuel) :=
  (moves_rule fuel).stmts.andThen fun _ => .andThen (.view _) fun _ =>
    .ite (.pure rfl fun _ hn => .inl (.inr hn)) .failAt

omit hr in
/-- Readers that come to an end however many tokens are left. -/
theorem ne_halted (h : ∀ n, rules.Move (n + 1)) (r : Rule) (c c' : Cursor) :
    rules r c ≠ .halted c' := by
  have enough := Nat.lt_succ_self c.rest.length
  cases r with
  | stmts => exact ((h _).stmts (N := fun _ => False)).ne_halted enough c'
  | expr => exact ((h _).expr (N := fun _ => False)).ne_halted enough c'
  | arg => exact ((h _).arg (N := fun _ => False)).ne_halted enough c'
  | signed => exact ((h _).signed (N := fun _ => False)).ne_halted enough c'
  | unary => exact ((h _).unary (N := fun _ => False)).ne_halted enough c'
  | branch place =>
      exact ((h (c.rest.length + 1)).branch place (N := fun _ => False)).ne_halted enough c'

/-! ### Loops -/

/-- Whether each round of a loop leaves fewer tokens. -/
def Shrinks {α : Type} (step : α → Parser (Option α)) : Prop :=
  ∀ a b c c', step a c = .done (some b) c' → c'.rest.length < c.rest.length

omit hr in
/-- A loop has as many rounds as it needs. -/
theorem Shrinks.iterate_eq {α : Type} {step : α → Parser (Option α)} (hs : Shrinks step)
    (ts us : List Token) (a : α) (c : Cursor) (ht : c.rest.length ≤ ts.length)
    (hu : c.rest.length ≤ us.length) : iterate step ts a c = iterate step us a c := by
  induction ts generalizing us a c with
  | nil =>
      cases us with
      | nil => rfl
      | cons u us =>
          simp only [iterate, Action.bind_apply]
          cases e : step a c with
          | failed | halted => rfl
          | done o c' =>
              cases o with
              | none => rfl
              | some b =>
                  have fewer := hs a b c c' e
                  simp only [List.length_nil] at ht
                  omega
  | cons t ts ih =>
      cases us with
      | nil =>
          simp only [iterate, Action.bind_apply]
          cases e : step a c with
          | failed | halted => rfl
          | done o c' =>
              cases o with
              | none => rfl
              | some b =>
                  have fewer := hs a b c c' e
                  simp only [List.length_nil] at hu
                  omega
      | cons u us =>
          simp only [iterate, Action.bind_apply]
          cases e : step a c with
          | failed | halted => rfl
          | done o c' =>
              cases o with
              | none => rfl
              | some b =>
                  have fewer := hs a b c c' e
                  simp only [List.length_cons] at ht hu
                  exact ih us b c' (by omega) (by omega)

omit hr in
/-- A loop is one round and then the loop again. -/
theorem Shrinks.chain_eq {α : Type} {step : α → Parser (Option α)} (hs : Shrinks step) (a : α) :
    chain step a = step a >>= fun o => match o with
      | some b => chain step b
      | none => pure a := by
  funext c
  have enough : chain step a c = iterate step (⟨.eof, default⟩ :: c.rest) a c :=
    hs.iterate_eq _ _ a c (Nat.le_refl _) (Nat.le_succ _)
  rw [enough]
  simp only [iterate, Action.bind_apply]
  cases e : step a c with
  | failed | halted => rfl
  | done o c' =>
      cases o with
      | none => rfl
      | some b => exact hs.iterate_eq _ _ b c' (Nat.le_of_lt (hs a b c c' e)) (Nat.le_refl _)

omit hr in
/-- A loop that has gone on does so with one round fewer. -/
theorem Shrinks.chain_some {α : Type} {step : α → Parser (Option α)} (hs : Shrinks step) {a b : α}
    {c c' : Cursor} (h : step a c = .done (some b) c') : chain step a c = chain step b c' := by
  rw [hs.chain_eq, Action.bind_apply, h]

omit hr in
/-- A loop stops where its step has nothing to add. -/
theorem Shrinks.chain_none {α : Type} {step : α → Parser (Option α)} (hs : Shrinks step) {a : α}
    {c c' : Cursor} (h : step a c = .done none c') : chain step a c = .done a c' := by
  rw [hs.chain_eq, Action.bind_apply, h]
  rfl

omit hr in
/-- What holds at a round if it holds at the next one holds at all of them. -/
theorem Shrinks.induction {α : Type} {step : α → Parser (Option α)} (hs : Shrinks step)
    {P : α → Cursor → Prop}
    (h : ∀ a c, (∀ b c', step a c = .done (some b) c' → P b c') → P a c) (a : α) (c : Cursor) :
    P a c := by
  induction hn : c.rest.length using Nat.strongRecOn generalizing a c with
  | ind n ih => exact h a c fun b c' e => ih _ (hn ▸ hs a b c c' e) b c' rfl

/-- The loops of the grammar, each with its step. -/
inductive Loop (rules : Rules) : {α : Type} → (α → Parser (Option α)) → Prop where
  | args (close : Punct) : Loop rules (argOrClose rules close)
  | commandArgs : Loop rules (commandArg rules)
  | links : Loop rules (link rules)
  | rescues : Loop rules (nextRescue rules)
  | params : Loop rules (nextParam rules)
  | operators (level : Level) (tighter : List Level) :
      Loop rules (level.extend (operation rules tighter))
  | modifiers : Loop rules (modified rules)
  | statements : Loop rules (nextStatement rules)

/-- **Each round of a loop takes a token.** -/
theorem Loop.shrinks {α : Type} {step : α → Parser (Option α)} (hl : Loop rules step) :
    Shrinks step := by
  have shorter : ∀ {β : Type} {n : Nat} {N : NameId → Prop} {Q : Option β → NameId → Prop}
      {p : Parser (Option β)} {b : β} {c c' : Cursor}, Moves n Option.isSome N Q p →
        p c = .done (some b) c' → c'.rest.length < c.rest.length := by
    intro β n N Q p b c c' hp e
    have went := hp c
    rw [e] at went
    exact went.1.shorter rfl
  intro a b c c' h
  cases hl with
  | args close => exact shorter (moves_argOrClose hr close a.1 a.2 fun _ => id) h
  | commandArgs => exact shorter (moves_commandArg hr a.1 a.2 fun _ => id) h
  | links => exact shorter (moves_link hr a fun _ => id) h
  | rescues => exact shorter (moves_nextRescue hr a fun _ => id) h
  | params => exact shorter (moves_nextParam hr a.1 a.2 (N := fun _ => True)) h
  | operators level tighter =>
      exact shorter (moves_extend level (moves_operation hr tighter) a fun _ => id) h
  | modifiers => exact shorter (moves_modified hr a fun _ => id) h
  | statements => exact shorter (moves_nextStatement hr a.1 a.2 fun _ => id) h

end Parser

/-- **Reading comes to an end**, with a tree or with an error. -/
theorem parseTokens_ne_halted (tokens : List Token) (names : NameTable) (locals : List NameId)
    (c : Cursor) : parseTokens tokens names locals ≠ .halted c :=
  (Parser.moves_program (N := fun _ => False) (tokens.length + 1)).ne_halted (Nat.lt_succ_self _) c

end MiniRuby
