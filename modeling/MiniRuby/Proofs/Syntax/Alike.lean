import MiniRuby.Syntax.Printer
import Mathlib.Data.List.Forall2
import Mathlib.Data.Option.Basic

/-!
# Trees that are alike

The same construct read at another place of a text, or with another table of names, is the same but
for its spans and the positions of its names (`Node.Alike`).

* `Node.Alike.eq_shift`: trees with the same names are the same, but for their place.
* `Node.Alike.render_eq`: trees whose names are spelled alike are printed alike.
-/

namespace MiniRuby

/-- The span that stands `n` characters later. -/
def Span.shift (n : Nat) (s : Span) : Span := ⟨s.first + n, s.last + n⟩

/-- Spans may be moved before they are joined or after. -/
theorem Span.shift_merge (n : Nat) (s t : Span) :
    (s.merge t).shift n = (s.shift n).merge (t.shift n) := by
  simp only [shift, merge, Span.mk.injEq]
  omega

/-- How names correspond in two trees.  Names that may be those of variables correspond as words. -/
structure Likeness where
  same : NameId → NameId → Prop
  word : NameId → NameId → Prop

/-- More names correspond. -/
instance : LE Likeness :=
  ⟨fun k k' => (∀ m n, k.same m n → k'.same m n) ∧ ∀ m n, k.word m n → k'.word m n⟩

/-- Options are related by what follows from their relation. -/
theorem rel_imp {α : Type} {R R' : α → α → Prop} (h : ∀ a b, R a b → R' a b) {x y : Option α} :
    Option.Rel R x y → Option.Rel R' x y
  | .some hr => .some (h _ _ hr)
  | .none => .none

/-- A likeness asks for no less than itself. -/
theorem Likeness.le_refl (k : Likeness) : k ≤ k := ⟨fun _ _ => id, fun _ _ => id⟩

namespace Node

variable {k k' : Likeness} {n : Nat}

/-- Parameters with names that correspond. -/
inductive AlikeParam {ν : Type} (k : Likeness) (R : ν → ν → Prop) : Param ν → Param ν → Prop where
  | mk {name name' : NameId} {default? default?' : Option ν} (hn : k.word name name')
      (hd : Option.Rel R default? default?') : AlikeParam k R ⟨name, default?⟩ ⟨name', default?'⟩

/-- Parameters that are alike are so if less is asked for. -/
theorem AlikeParam.mono {ν : Type} {R R' : ν → ν → Prop} (hk : k ≤ k') (hR : ∀ a b, R a b → R' a b)
    {p q : Param ν} : AlikeParam k R p q → AlikeParam k' R' p q
  | .mk hn hd => .mk (hk.2 _ _ hn) (rel_imp hR hd)

/-- Clauses with names that correspond. -/
inductive AlikeClause {ν : Type} (k : Likeness) (R : ν → ν → Prop) :
    RescueClause ν → RescueClause ν → Prop where
  | mk {classes classes' : List ν} {binder? binder?' : Option NameId} {body body' : ν}
      (hc : List.Forall₂ R classes classes') (hn : Option.Rel k.word binder? binder?')
      (hb : R body body') : AlikeClause k R ⟨classes, binder?, body⟩ ⟨classes', binder?', body'⟩

/-- So are rescue clauses. -/
theorem AlikeClause.mono {ν : Type} {R R' : ν → ν → Prop} (hk : k ≤ k') (hR : ∀ a b, R a b → R' a b)
    {c d : RescueClause ν} : AlikeClause k R c d → AlikeClause k' R' c d
  | .mk hc hn hb => .mk (hc.imp hR) (rel_imp hk.2 hn) (hR _ _ hb)

/-- Two nodes of the same construct, of which the second one stands `n` characters later, with names
that correspond and with parts in the relation `R`. -/
inductive Congr (k : Likeness) (n : Nat) (R : Node → Node → Prop) : Node → Node → Prop where
  | self (s : Span) : Congr k n R (.self s) (.self (s.shift n))
  | nil (s : Span) : Congr k n R (.nil s) (.nil (s.shift n))
  | int (s : Span) (i : Int64) : Congr k n R (.int s i) (.int (s.shift n) i)
  | float (s : Span) (x : Float) : Congr k n R (.float s x) (.float (s.shift n) x)
  | bool (s : Span) (b : Bool) : Congr k n R (.bool s b) (.bool (s.shift n) b)
  | str (s : Span) (text : String) : Congr k n R (.str s text) (.str (s.shift n) text)
  | symbol (s : Span) {x y : NameId} (hn : k.same x y) :
      Congr k n R (.symbol s x) (.symbol (s.shift n) y)
  | array (s : Span) {as bs : List Node} (h : List.Forall₂ R as bs) :
      Congr k n R (.array s as) (.array (s.shift n) bs)
  | ident (s : Span) {x y : NameId} (hn : k.word x y) :
      Congr k n R (.ident s x) (.ident (s.shift n) y)
  | instanceVar (s : Span) {x y : NameId} (hn : k.same x y) :
      Congr k n R (.instanceVar s x) (.instanceVar (s.shift n) y)
  | const (s : Span) {x y : NameId} (hn : k.same x y) :
      Congr k n R (.const s x) (.const (s.shift n) y)
  | assign (s : Span) {a a' b b' : Node} (ha : R a a') (hb : R b b') :
      Congr k n R (.assign s a b) (.assign (s.shift n) a' b')
  | and (s : Span) {a a' b b' : Node} (ha : R a a') (hb : R b b') :
      Congr k n R (.and s a b) (.and (s.shift n) a' b')
  | or (s : Span) {a a' b b' : Node} (ha : R a a') (hb : R b b') :
      Congr k n R (.or s a b) (.or (s.shift n) a' b')
  | not (s : Span) {a a' : Node} (ha : R a a') :
      Congr k n R (.not s a) (.not (s.shift n) a')
  | stmts (s : Span) {as bs : List Node} (h : List.Forall₂ R as bs) :
      Congr k n R (.stmts s as) (.stmts (s.shift n) bs)
  | cond (s : Span) {a a' b b' c c' : Node} (ha : R a a') (hb : R b b')
      (hc : R c c') : Congr k n R (.cond s a b c) (.cond (s.shift n) a' b' c')
  | loop (s : Span) {a a' b b' : Node} (ha : R a a') (hb : R b b') :
      Congr k n R (.loop s a b) (.loop (s.shift n) a' b')
  | guarded (s : Span) {a a' b b' c c' : Node} {rs rs' : List (RescueClause Node)}
      (ha : R a a') (hr : List.Forall₂ (AlikeClause k R) rs rs') (hb : R b b')
      (hc : R c c') :
      Congr k n R (.guarded s a rs b c) (.guarded (s.shift n) a' rs' b' c')
  | breakWith (s : Span) {a a' : Node} (ha : R a a') :
      Congr k n R (.breakWith s a) (.breakWith (s.shift n) a')
  | nextWith (s : Span) {a a' : Node} (ha : R a a') :
      Congr k n R (.nextWith s a) (.nextWith (s.shift n) a')
  | returnWith (s : Span) {a a' : Node} (ha : R a a') :
      Congr k n R (.returnWith s a) (.returnWith (s.shift n) a')
  | methodDef (s : Span) {x y : NameId} {ps ps' : List (Param Node)} {a a' : Node}
      (hn : k.same x y) (hp : List.Forall₂ (AlikeParam k R) ps ps') (ha : R a a') :
      Congr k n R (.methodDef s x ps a) (.methodDef (s.shift n) y ps' a')
  | singletonDef (s : Span) {x y : NameId} {ps ps' : List (Param Node)} {a a' b b' : Node}
      (ha : R a a') (hn : k.same x y) (hp : List.Forall₂ (AlikeParam k R) ps ps')
      (hb : R b b') :
      Congr k n R (.singletonDef s a x ps b) (.singletonDef (s.shift n) a' y ps' b')
  | classDef (s : Span) {x y : NameId} {p p' : Option Node} {a a' : Node} (hn : k.same x y)
      (hp : Option.Rel R p p') (ha : R a a') :
      Congr k n R (.classDef s x p a) (.classDef (s.shift n) y p' a')
  | send (s : Span) {x y : NameId} {r r' : Option Node} {as bs : List Node}
      (hr : Option.Rel R r r') (hn : k.same x y) (h : List.Forall₂ R as bs) :
      Congr k n R (.send s r x as) (.send (s.shift n) r' y bs)

/-- Nodes of the same construct stay so when more names correspond and more parts are related. -/
theorem Congr.mono {R R' : Node → Node → Prop} (hk : k ≤ k') (hR : ∀ a b, R a b → R' a b)
    {a b : Node} (h : Congr k n R a b) : Congr k' n R' a b := by
  have opt {x y : Option Node} (h : Option.Rel R x y) : Option.Rel R' x y := rel_imp hR h
  have params {ps qs : List (Param Node)} (h : List.Forall₂ (AlikeParam k R) ps qs) :
      List.Forall₂ (AlikeParam k' R') ps qs := h.imp fun _ _ h => h.mono hk hR
  have clauses {rs qs : List (RescueClause Node)} (h : List.Forall₂ (AlikeClause k R) rs qs) :
      List.Forall₂ (AlikeClause k' R') rs qs := h.imp fun _ _ h => h.mono hk hR
  cases h with
  | self s => exact .self s
  | nil s => exact .nil s
  | int s i => exact .int s i
  | float s x => exact .float s x
  | bool s b => exact .bool s b
  | str s text => exact .str s text
  | symbol s hn => exact .symbol s (hk.1 _ _ hn)
  | array s h => exact .array s (h.imp hR)
  | ident s hn => exact .ident s (hk.2 _ _ hn)
  | instanceVar s hn => exact .instanceVar s (hk.1 _ _ hn)
  | const s hn => exact .const s (hk.1 _ _ hn)
  | assign s ha hb => exact .assign s (hR _ _ ha) (hR _ _ hb)
  | and s ha hb => exact .and s (hR _ _ ha) (hR _ _ hb)
  | or s ha hb => exact .or s (hR _ _ ha) (hR _ _ hb)
  | not s ha => exact .not s (hR _ _ ha)
  | stmts s h => exact .stmts s (h.imp hR)
  | cond s ha hb hc => exact .cond s (hR _ _ ha) (hR _ _ hb) (hR _ _ hc)
  | loop s ha hb => exact .loop s (hR _ _ ha) (hR _ _ hb)
  | guarded s ha hr hb hc => exact .guarded s (hR _ _ ha) (clauses hr) (hR _ _ hb) (hR _ _ hc)
  | breakWith s ha => exact .breakWith s (hR _ _ ha)
  | nextWith s ha => exact .nextWith s (hR _ _ ha)
  | returnWith s ha => exact .returnWith s (hR _ _ ha)
  | methodDef s hn hp ha => exact .methodDef s (hk.1 _ _ hn) (params hp) (hR _ _ ha)
  | singletonDef s ha hn hp hb =>
      exact .singletonDef s (hR _ _ ha) (hk.1 _ _ hn) (params hp) (hR _ _ hb)
  | classDef s hn hp ha => exact .classDef s (hk.1 _ _ hn) (opt hp) (hR _ _ ha)
  | send s hr hn h => exact .send s (opt hr) (hk.1 _ _ hn) (h.imp hR)

/-- **Trees that are alike**: in every relation that nodes of the same construct are in if their
parts are. -/
def Alike (k : Likeness) (n : Nat) (a b : Node) : Prop :=
  ∀ R : Node → Node → Prop, (∀ a b, Congr k n R a b → R a b) → R a b

/-- Several trees that are alike, each to each. -/
abbrev AlikeAll (k : Likeness) (n : Nat) : List Node → List Node → Prop := List.Forall₂ (Alike k n)

abbrev AlikeParams (k : Likeness) (n : Nat) : List (Param Node) → List (Param Node) → Prop :=
  List.Forall₂ (AlikeParam k (Alike k n))

abbrev AlikeClauses (k : Likeness) (n : Nat) :
    List (RescueClause Node) → List (RescueClause Node) → Prop :=
  List.Forall₂ (AlikeClause k (Alike k n))

/-- Nodes of the same construct are alike if their parts are. -/
theorem Congr.alike {a b : Node} (h : Congr k n (Alike k n) a b) : Alike k n a b :=
  fun R hR => hR a b (h.mono (Likeness.le_refl k) fun _ _ h => h R hR)

/-- Trees that are alike are of the same construct, and so are their parts. -/
theorem Alike.congr {a b : Node} (h : Alike k n a b) : Congr k n (Alike k n) a b :=
  h _ fun _ _ h => h.mono (Likeness.le_refl k) fun _ _ => Congr.alike

/-- What is alike stays so when more names correspond. -/
theorem Alike.mono {a b : Node} (hk : k ≤ k') (h : Alike k n a b) : Alike k' n a b :=
  h _ fun _ _ h => (h.mono hk fun _ _ => id).alike

/-- Trees that are alike are at the same places, moved. -/
theorem Alike.span_eq {a b : Node} (h : Alike k n a b) : b.span = a.span.shift n := by
  cases h.congr <;> rfl

/-! ### Nodes from parts -/

/-- Lists that are related have related heads. -/
theorem rel_head? {α : Type} {R : α → α → Prop} {as bs : List α} (h : List.Forall₂ R as bs) :
    Option.Rel R as.head? bs.head? := by
  cases h with
  | nil => exact .none
  | cons h _ => exact .some h

theorem rel_getLast? {α : Type} {R : α → α → Prop} {as bs : List α} (h : List.Forall₂ R as bs) :
    Option.Rel R as.getLast? bs.getLast? := by
  have first := rel_head? (List.forall₂_reverse_iff.mpr h)
  rwa [List.head?_reverse, List.head?_reverse] at first

section parts

variable {a a' b b' c c' : Node} {as as' : List Node} {x y : NameId} (place : Span)

theorem alike_nop : Alike k n (nop place) (nop (place.shift n)) := (Congr.stmts _ .nil).alike

/-- **Statements** of trees that are alike are alike, and so on for every construct. -/
theorem alike_ofStmts (h : AlikeAll k n as as') :
    Alike k n (ofStmts place as) (ofStmts (place.shift n) as') := by
  have head := rel_head? h
  have last := rel_getLast? h
  unfold ofStmts
  generalize as.head? = f at head ⊢
  generalize as'.head? = f' at head ⊢
  generalize as.getLast? = l at last ⊢
  generalize as'.getLast? = l' at last ⊢
  cases head with
  | none => exact (Congr.stmts _ h).alike
  | some hf =>
      cases last with
      | none => exact (Congr.stmts _ h).alike
      | some hl =>
          simp only [hf.span_eq, hl.span_eq, ← Span.shift_merge]
          exact (Congr.stmts _ h).alike

theorem alike_ofAssign (ha : Alike k n a a') (hb : Alike k n b b') :
    Alike k n (ofAssign a b) (ofAssign a' b') := by
  unfold ofAssign
  rw [ha.span_eq, hb.span_eq, ← Span.shift_merge]
  exact (Congr.assign _ ha hb).alike

theorem alike_ofAnd (ha : Alike k n a a') (hb : Alike k n b b') :
    Alike k n (ofAnd a b) (ofAnd a' b') := by
  unfold ofAnd
  rw [ha.span_eq, hb.span_eq, ← Span.shift_merge]
  exact (Congr.and _ ha hb).alike

theorem alike_ofOr (ha : Alike k n a a') (hb : Alike k n b b') :
    Alike k n (ofOr a b) (ofOr a' b') := by
  unfold ofOr
  rw [ha.span_eq, hb.span_eq, ← Span.shift_merge]
  exact (Congr.or _ ha hb).alike

theorem alike_ofNot (ha : Alike k n a a') :
    Alike k n (ofNot place a) (ofNot (place.shift n) a') := by
  unfold ofNot
  rw [ha.span_eq, ← Span.shift_merge]
  exact (Congr.not _ ha).alike

/-- A call is alike if its receiver, its name and its arguments are. -/
theorem alike_ofSend {r r' : Option Node} (hr : Option.Rel (Alike k n) r r') (hn : k.same x y)
    (h : AlikeAll k n as as') :
    Alike k n (ofSend place r x as) (ofSend (place.shift n) r' y as') := by
  have parts := fun s => (Congr.send s hr hn h).alike
  have last := rel_getLast? h
  simp only [ofSend]
  generalize as.getLast? = l at last ⊢
  generalize as'.getLast? = l' at last ⊢
  cases last with
  | none =>
      cases hr with
      | none => exact parts _
      | some ha =>
          simp only [ha.span_eq, ← Span.shift_merge]
          exact parts _
  | some hl =>
      cases hr with
      | none =>
          simp only [hl.span_eq, ← Span.shift_merge]
          exact parts _
      | some ha =>
          simp only [hl.span_eq, ha.span_eq, ← Span.shift_merge]
          exact parts _

theorem alike_ofInfix (hn : k.same x y) (ha : Alike k n a a') (hb : Alike k n b b') :
    Alike k n (ofInfix x a b) (ofInfix y a' b') := by
  unfold ofInfix
  rw [ha.span_eq]
  exact alike_ofSend _ (.some ha) hn (.cons hb .nil)

theorem alike_ofCond (ha : Alike k n a a') (hb : Alike k n b b') (hc : Alike k n c c') :
    Alike k n (ofCond place a b c) (ofCond (place.shift n) a' b' c') := by
  unfold ofCond
  rw [hb.span_eq, hc.span_eq, ← Span.shift_merge, ← Span.shift_merge]
  exact (Congr.cond _ ha hb hc).alike

theorem alike_ofLoop (ha : Alike k n a a') (hb : Alike k n b b') :
    Alike k n (ofLoop place a b) (ofLoop (place.shift n) a' b') := by
  unfold ofLoop
  rw [hb.span_eq, ← Span.shift_merge]
  exact (Congr.loop _ ha hb).alike

theorem alike_ofBreak (ha : Alike k n a a') :
    Alike k n (ofBreak place a) (ofBreak (place.shift n) a') := by
  unfold ofBreak
  rw [ha.span_eq, ← Span.shift_merge]
  exact (Congr.breakWith _ ha).alike

theorem alike_ofNext (ha : Alike k n a a') :
    Alike k n (ofNext place a) (ofNext (place.shift n) a') := by
  unfold ofNext
  rw [ha.span_eq, ← Span.shift_merge]
  exact (Congr.nextWith _ ha).alike

theorem alike_ofReturn (ha : Alike k n a a') :
    Alike k n (ofReturn place a) (ofReturn (place.shift n) a') := by
  unfold ofReturn
  rw [ha.span_eq, ← Span.shift_merge]
  exact (Congr.returnWith _ ha).alike

end parts

/-! ### The same names -/

mutual

/-- The tree that stands `n` characters later. -/
def shift (n : Nat) : Node → Node
  | self s => self (s.shift n)
  | nil s => nil (s.shift n)
  | int s i => int (s.shift n) i
  | float s x => float (s.shift n) x
  | bool s b => bool (s.shift n) b
  | str s text => str (s.shift n) text
  | symbol s name => symbol (s.shift n) name
  | array s elements => array (s.shift n) (shiftAll n elements)
  | ident s name => ident (s.shift n) name
  | instanceVar s name => instanceVar (s.shift n) name
  | const s name => const (s.shift n) name
  | assign s target value => assign (s.shift n) (target.shift n) (value.shift n)
  | and s left right => and (s.shift n) (left.shift n) (right.shift n)
  | or s left right => or (s.shift n) (left.shift n) (right.shift n)
  | not s operand => not (s.shift n) (operand.shift n)
  | stmts s body => stmts (s.shift n) (shiftAll n body)
  | cond s test yes no => cond (s.shift n) (test.shift n) (yes.shift n) (no.shift n)
  | loop s test body => loop (s.shift n) (test.shift n) (body.shift n)
  | guarded s body rescues otherwise cleanup =>
    guarded (s.shift n) (body.shift n) (shiftRescues n rescues) (otherwise.shift n)
      (cleanup.shift n)
  | breakWith s value => breakWith (s.shift n) (value.shift n)
  | nextWith s value => nextWith (s.shift n) (value.shift n)
  | returnWith s value => returnWith (s.shift n) (value.shift n)
  | methodDef s name params body =>
    methodDef (s.shift n) name (shiftParams n params) (body.shift n)
  | singletonDef s target name params body =>
    singletonDef (s.shift n) (target.shift n) name (shiftParams n params) (body.shift n)
  | classDef s name none body => classDef (s.shift n) name none (body.shift n)
  | classDef s name (some parent) body =>
    classDef (s.shift n) name (some (parent.shift n)) (body.shift n)
  | send s none name args => send (s.shift n) none name (shiftAll n args)
  | send s (some receiver) name args =>
    send (s.shift n) (some (receiver.shift n)) name (shiftAll n args)

/-- Several trees, each `n` characters later. -/
def shiftAll (n : Nat) : List Node → List Node
  | [] => []
  | a :: as => a.shift n :: shiftAll n as

/-- Parameters with defaults that stand later. -/
def shiftParams (n : Nat) : List (Param Node) → List (Param Node)
  | [] => []
  | ⟨name, none⟩ :: ps => ⟨name, none⟩ :: shiftParams n ps
  | ⟨name, some d⟩ :: ps => ⟨name, some (d.shift n)⟩ :: shiftParams n ps

/-- Clauses that stand later. -/
def shiftRescues (n : Nat) : List (RescueClause Node) → List (RescueClause Node)
  | [] => []
  | ⟨classes, binder?, body⟩ :: rs =>
    ⟨shiftAll n classes, binder?, body.shift n⟩ :: shiftRescues n rs

end

/-- **Trees with the same names** are the same, but for their place. -/
theorem Alike.eq_shift (hs : ∀ x y, k.same x y → y = x) (hw : ∀ x y, k.word x y → y = x)
    {a b : Node} (h : Alike k n a b) : b = a.shift n := by
  have all {as bs : List Node} (h : List.Forall₂ (fun a b => b = a.shift n) as bs) :
      bs = shiftAll n as := by
    induction h with
    | nil => rw [shiftAll]
    | cons h _ ih => rw [shiftAll, h, ih]
  have params {ps qs : List (Param Node)}
      (h : List.Forall₂ (AlikeParam k fun a b => b = a.shift n) ps qs) : qs = shiftParams n ps := by
    induction h with
    | nil => rw [shiftParams]
    | cons h _ ih =>
        obtain ⟨hn, hd | _⟩ := h
        · rw [shiftParams, hw _ _ hn, hd, ih]
        · rw [shiftParams, hw _ _ hn, ih]
  have clauses {rs qs : List (RescueClause Node)}
      (h : List.Forall₂ (AlikeClause k fun a b => b = a.shift n) rs qs) :
      qs = shiftRescues n rs := by
    induction h with
    | nil => rw [shiftRescues]
    | cons h _ ih =>
        obtain ⟨hc, hn | _, hb⟩ := h
        · rw [shiftRescues, all hc, hw _ _ hn, hb, ih]
        · rw [shiftRescues, all hc, hb, ih]
  refine h (fun a b => b = a.shift n) fun a b h => ?_
  cases h with
  | symbol s hn => rw [shift, hs _ _ hn]
  | array s h => rw [shift, all h]
  | ident s hn => rw [shift, hw _ _ hn]
  | instanceVar s hn => rw [shift, hs _ _ hn]
  | const s hn => rw [shift, hs _ _ hn]
  | assign s ha hb | and s ha hb | or s ha hb | loop s ha hb => rw [shift, ha, hb]
  | not s ha | breakWith s ha | nextWith s ha | returnWith s ha => rw [shift, ha]
  | stmts s h => rw [shift, all h]
  | cond s ha hb hc => rw [shift, ha, hb, hc]
  | guarded s ha hr hb hc => rw [shift, ha, clauses hr, hb, hc]
  | methodDef s hn hp ha => rw [shift, hs _ _ hn, params hp, ha]
  | singletonDef s ha hn hp hb => rw [shift, ha, hs _ _ hn, params hp, hb]
  | classDef s hn hp ha =>
      obtain hp | _ := hp
      · rw [shift, hs _ _ hn, hp, ha]
      · rw [shift, hs _ _ hn, ha]
  | send s hr hn h =>
      obtain hr | _ := hr
      · rw [shift, hr, hs _ _ hn, all h]
      · rw [shift, hs _ _ hn, all h]
  | _ => rw [shift]

/-- Trees with the same names are alike if they are the same, moved. -/
theorem AlikeAll.eq_map_shift (hs : ∀ x y, k.same x y → y = x) (hw : ∀ x y, k.word x y → y = x)
    {as bs : List Node} (h : AlikeAll k n as bs) : bs = as.map (shift n) := by
  induction h with
  | nil => rfl
  | cons h _ ih => rw [h.eq_shift hs hw, ih, List.map_cons]

/-! ### Names that are spelled alike -/

/-- **Trees whose names are spelled alike** are printed alike. -/
theorem Alike.render_eq {t t' : NameTable} (hs : ∀ x y, k.same x y → t'.text y = t.text x)
    (hw : ∀ x y, k.word x y → t'.text y = t.text x) {a b : Node} (h : Alike k n a b) :
    b.render t' = a.render t := by
  -- Whether a part is left out depends on what it is.
  let R : Node → Node → Prop := fun a b => b.render t' = a.render t ∧ b.isNop = a.isNop
  have all {as bs : List Node} (h : List.Forall₂ R as bs) : renderAll t' bs = renderAll t as := by
    induction h with
    | nil => rw [renderAll, renderAll]
    | cons h _ ih => rw [renderAll, renderAll, h.1, ih]
  have params {ps qs : List (Param Node)} (h : List.Forall₂ (AlikeParam k R) ps qs) :
      renderParams t' qs = renderParams t ps := by
    induction h with
    | nil => rw [renderParams, renderParams]
    | cons h _ ih =>
        obtain ⟨hn, hd | _⟩ := h
        · rw [renderParams, renderParams, hw _ _ hn, hd.1, ih]
        · rw [renderParams, renderParams, hw _ _ hn, ih]
  have clauses {rs qs : List (RescueClause Node)} (h : List.Forall₂ (AlikeClause k R) rs qs) :
      renderRescues t' qs = renderRescues t rs := by
    induction h with
    | nil => rw [renderRescues, renderRescues]
    | cons h _ ih =>
        obtain ⟨hc, hn, hb⟩ := h
        have binder : ∀ {x y : Option NameId}, Option.Rel k.word x y →
            y.map t'.text = x.map t.text := by
          rintro _ _ (hn | _)
          · rw [Option.map_some, Option.map_some, hw _ _ hn]
          · rfl
        rw [renderRescues, renderRescues, all hc, binder hn, hb.1, ih]
  refine (h R fun a b h => ?_).1
  cases h with
  | symbol s hn => exact ⟨by rw [render, render, hs _ _ hn], rfl⟩
  | array s h => exact ⟨by rw [render, render, all h], rfl⟩
  | ident s hn => exact ⟨by rw [render, render, hw _ _ hn], rfl⟩
  | instanceVar s hn => exact ⟨by rw [render, render, hs _ _ hn], rfl⟩
  | const s hn => exact ⟨by rw [render, render, hs _ _ hn], rfl⟩
  | assign s ha hb | and s ha hb | or s ha hb | loop s ha hb =>
      exact ⟨by rw [render, render, ha.1, hb.1], rfl⟩
  | not s ha | breakWith s ha | nextWith s ha | returnWith s ha =>
      exact ⟨by rw [render, render, ha.1], rfl⟩
  | stmts s h => exact ⟨by rw [render, render, all h], by cases h <;> rfl⟩
  | cond s ha hb hc => exact ⟨by rw [render, render, ha.1, hb.1, hc.1], rfl⟩
  | guarded s ha hr hb hc =>
      exact ⟨by rw [render, render, ha.1, clauses hr, hb.1, hb.2, hc.1, hc.2], rfl⟩
  | methodDef s hn hp ha => exact ⟨by rw [render, render, hs _ _ hn, params hp, ha.1], rfl⟩
  | singletonDef s ha hn hp hb =>
      exact ⟨by rw [render, render, ha.1, hs _ _ hn, params hp, hb.1], rfl⟩
  | classDef s hn hp ha =>
      obtain hp | _ := hp
      · exact ⟨by rw [render, render, hs _ _ hn, hp.1, ha.1], rfl⟩
      · exact ⟨by rw [render, render, hs _ _ hn, ha.1], rfl⟩
  | send s hr hn h =>
      obtain hr | _ := hr
      · exact ⟨by rw [render, render, hr.1, hs _ _ hn, all h], rfl⟩
      · exact ⟨by rw [render, render, hs _ _ hn, all h], rfl⟩
  | _ => exact ⟨by rw [render, render], rfl⟩

end Node

end MiniRuby
