import MiniRuby.Proofs.Grammar.Complete
import MiniRuby.Proofs.Grammar.Tracks

/-!
# As much fuel as is needed

Fuel is only there to let the reader end.  A rule that is given more fuel than there are tokens left
reads what it would read with any other amount, and that is a reader that knows no fuel
(`Parser.limit`): it is its own rule.

* `Parser.yields_of_tracks`: readers that go side by side answer the same from the same cursor.
* `Parser.continues_limit`: every rule goes on when the text does, with as much fuel as is needed.
-/

namespace MiniRuby

namespace Cursor

variable {c d : Cursor}

theorem Along.refl (c : Cursor) : Along .same 0 true c c where
  rest := List.forall₂_same.mpr fun _ _ => ⟨rfl, rfl, fun _ _ => trivial⟩
  ended := .inl rfl
  prev _ := rfl
  valid := rfl
  bodies := List.forall₂_same.mpr fun _ _ => ⟨rfl, rfl⟩

/-- Cursors at the same place of the same text are the same. -/
theorem Along.eq (h : Along .same 0 true c d) : d = c := by
  have rest : d.rest = c.rest := by
    have all := h.rest.imp fun t t' ht => show t = t' by
      obtain ⟨kind, span⟩ := t
      obtain ⟨kind', span'⟩ := t'
      obtain ⟨hk, hs, -⟩ := ht
      cases hk
      cases hs
      rfl
    exact (List.forall₂_eq_eq_eq ▸ all).symm
  have bodies : d.bodies = c.bodies := by
    have all := h.bodies.imp fun b b' hb => show b = b' by
      obtain ⟨kind, locals⟩ := b
      obtain ⟨kind', locals'⟩ := b'
      obtain ⟨hk, hl⟩ := hb
      cases hk
      cases hl
      rfl
    exact (List.forall₂_eq_eq_eq ▸ all).symm
  have prev := h.prev rfl
  have names : c.names = d.names := h.valid
  obtain ⟨_, _, _, _⟩ := c
  obtain ⟨_, _, _, _⟩ := d
  cases rest
  cases bodies
  cases prev
  cases names
  rfl

end Cursor

namespace Rules.Track

variable {N : Naming} {n : Nat} {rules rules' : Rules}

/-- From the same cursor, each rule goes side by side with itself. -/
theorem rule (h : Track .same 0 rules rules') (r : Rule)
    (w : Tables) : Parser.TracksOn .same 0 w (Naming.same.node 0) (rules r) (rules' r) := by
  cases r with
  | stmts => exact h.stmts
  | expr => exact h.expr.any
  | arg => exact h.arg.any
  | signed => exact h.signed.any
  | unary => exact h.unary.any
  | branch place => exact (h.branch place).any

/-- The readers may be other ones at each cursor. -/
theorem of_cursors (s s' : Cursor → Rules)
    (h : ∀ c d, Track N n (s c) (s' d)) (hs : ∀ r c, rules r c = s c r c)
    (hs' : ∀ r d, rules' r d = s' d r d) : Track N n rules rules' where
  stmts c d hw hcd := hs _ c ▸ hs' _ d ▸ (h c d).stmts c d hw hcd
  expr c d hw hcd := hs _ c ▸ hs' _ d ▸ (h c d).expr c d hw hcd
  arg c d hw hcd := hs _ c ▸ hs' _ d ▸ (h c d).arg c d hw hcd
  signed c d hw hcd := hs _ c ▸ hs' _ d ▸ (h c d).signed c d hw hcd
  unary c d hw hcd := hs _ c ▸ hs' _ d ▸ (h c d).unary c d hw hcd
  branch place c d hw hcd := hs _ c ▸ hs' _ d ▸ (h c d).branch place c d hw hcd

end Rules.Track

namespace Parser

/-- **Readers that go side by side answer the same** from the same cursor. -/
theorem yields_of_tracks {p q : Parser Node} {w : Tables} {d : Cursor} {P : Node → Cursor → Prop}
    (hp : TracksOn .same 0 w (Naming.same.node 0) p p)
    (hq : TracksOn .same 0 w (Naming.same.node 0) p q) (hw : w ≤ d.both d)
    (hn : ∀ c, p d ≠ .halted c) (h : Yields P (p d)) : Yields P (q d) := by
  have same {a b : Node} {w : Tables} (h : Naming.same.node 0 w a b) : b = a.shift 0 :=
    h.eq_shift (fun _ _ => Eq.symm) fun _ _ => Eq.symm
  have alone := hp d d hw (.refl d)
  have along := hq d d hw (.refl d)
  cases e : p d with
  | failed e' c =>
      rw [e] at h
      exact h.elim
  | halted c => exact (hn c e).elim
  | done a c =>
      rw [e] at h alone along
      have fixed : a = a.shift 0 := by
        cases alone with
        | done _ _ ha => exact same ha
      generalize q d = o at along
      cases along with
      | done _ hcd ha =>
          rw [same ha, ← fixed, hcd.eq]
          exact h
      | haltedRight => trivial

/-! ### Readers without fuel -/

/-- What a rule reads with as much fuel as it needs. -/
def limit : Rules := fun r c => rule (c.rest.length + 2) r c

/-- They move the cursor on, and come to an end however many tokens are left. -/
theorem moves_limit (n : Nat) : limit.Move n where
  stmts c := Moves.went_of_enough ((moves_rule (c.rest.length + 2)).stmts c) (by omega)
  expr c := Moves.went_of_enough ((moves_rule (c.rest.length + 2)).expr c) (by omega)
  arg c := Moves.went_of_enough ((moves_rule (c.rest.length + 2)).arg c) (by omega)
  signed c := Moves.went_of_enough ((moves_rule (c.rest.length + 2)).signed c) (by omega)
  unary c := Moves.went_of_enough ((moves_rule (c.rest.length + 2)).unary c) (by omega)
  branch place _ c :=
    Moves.went_of_enough ((moves_rule (c.rest.length + 2)).branch place c) (by omega)

section tracks

variable {N : Naming} {n : Nat}

theorem tracks_limit_rule (m : Nat) : Rules.Track N n limit (rule m) :=
  .of_cursors (fun c => rule (c.rest.length + 2)) (fun _ => rule m) (fun _ _ => tracks_rule _ m)
    (fun _ _ => rfl) fun _ _ => rfl

theorem tracks_limit : Rules.Track N n limit limit :=
  .of_cursors (fun _ => limit) (fun d => rule (d.rest.length + 2)) (fun _ _ => tracks_limit_rule _)
    (fun _ _ => rfl) fun _ _ => rfl

/-- The rules come back to themselves. -/
theorem tracks_ofRule_limit : Rules.Track N n (ofRule limit) limit :=
  .of_cursors (fun _ => ofRule limit) (fun d => rule (d.rest.length + 2))
    (fun _ _ => tracks_ofRule (tracks_limit_rule _)) (fun _ _ => rfl) fun _ _ => rfl

end tracks

theorem yields_of_limit (m : Nat) (r : Rule) {d : Cursor} {P : Node → Cursor → Prop}
    (h : Yields P (limit r d)) : Yields P (rule m r d) :=
  yields_of_tracks (tracks_limit.rule r _) ((tracks_limit_rule m).rule r _) le_rfl
    (ne_halted (fun n => moves_limit (n + 1)) r d) h

theorem limit_yields (r : Rule) {d : Cursor} {P : Node → Cursor → Prop}
    (h : Yields P (ofRule limit r d)) : Yields P (limit r d) :=
  yields_of_tracks ((tracks_ofRule tracks_limit).rule r _) (tracks_ofRule_limit.rule r _) le_rfl
    (ne_halted (fun n => moves_ofRule (moves_limit n)) r d) h

/-- **Every rule goes on when the text does**, with as much fuel as is needed. -/
theorem continues_limit (n : Nat) : Rules.Continue (rule n) limit := by
  induction n with
  | zero =>
      have h := fun m => continues_rule 0 m
      exact ⟨moves_rule 0, moves_limit 0,
        .ofHalt fun b hb k ts d => (h (d.rest.length + 2)).stmts.closes b hb k ts d,
        .ofHalt fun b hb k ts d => (h (d.rest.length + 2)).expr.closes b hb k ts d,
        .ofHalt fun b hb k ts d => (h (d.rest.length + 2)).arg.closes b hb k ts d,
        .ofHalt fun b hb k ts d => (h (d.rest.length + 2)).signed.closes b hb k ts d,
        .ofHalt fun b hb k ts d => (h (d.rest.length + 2)).unary.closes b hb k ts d,
        fun place => .ofHalt fun b hb k ts d =>
          ((h (d.rest.length + 2)).branch place).closes b hb k ts d⟩
  | succ n ih =>
      have h := continues_ofRule ih (moves_rule (n + 1)).any (moves_ofRule (moves_limit 0)).any
      exact ⟨(moves_rule (n + 1)).any, moves_limit 0, h.stmts.transfer fun _ _ => limit_yields _,
        h.expr.transfer fun _ _ => limit_yields _, h.arg.transfer fun _ _ => limit_yields _,
        h.signed.transfer fun _ _ => limit_yields _, h.unary.transfer fun _ _ => limit_yields _,
        fun place => (h.branch place).transfer fun _ _ => limit_yields _⟩

end Parser

end MiniRuby
