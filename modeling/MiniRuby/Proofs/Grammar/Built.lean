import MiniRuby.Proofs.Syntax.All
import MiniRuby.Proofs.Name
import MiniRuby.Proofs.Evaluator.Program

/-!
# How trees are built

The reader checks the left side of an assignment (`Parser.checkTarget_done_iff`), and it builds all
other nodes from nodes that it has read.  So all assignments of a program that has been read are to
something that can be assigned to.  A constant is not assigned to within a method, and where a call
on a receiver is assigned to, the name of its method has been read after a dot, or it is that of an
index operation or of the minus sign.  A parameter is checked against those before it, so the
parameters of a method have names of their own, and those with a default come last.  The names in a
tree come from tokens: from those that are names, from reserved words and operators where a method
is named, and from setters, which have an equals sign after them.  The span of a node is put
together from the spans of tokens and of nodes below it, and errors are told at such a span.  So
whatever holds of the spans of all tokens, and of the span that covers two of which it holds, holds
of all nodes and of all errors.

A rule of the grammar is followed from the nodes that the rules which it comes back to may give to
those that it gives itself (`Parser.Gives`); of the cursor, the tokens that are left matter, and the
bodies that are open.  What a name is spelled like is a matter of the table of names in the end: as
the table only grows, the names that a rule has looked up keep their places in it.

* `Parser.gives_rule`: the nodes that a rule gives are well built, at whatever depth rules are
  nested.
* `built_parseTokens`: and so are those of a whole program.
* `gave_parseTokens`: what this says about spans.
-/

namespace MiniRuby

/-- A property of spans that passes to the span that covers two of them. -/
structure Span.Closed (S : Span → Prop) : Prop where
  default : S default
  merge : ∀ {a b : Span}, S a → S b → S (a.merge b)

/-! ### What is known of a text -/

/-- What holds of a text and of the names that are known once it has been read. -/
structure Setting where
  /-- Where tokens stand. -/
  spans : Span → Prop
  /-- What tokens there are. -/
  kinds : TokenKind → Prop
  names : NameTable

namespace Setting

variable (w : Setting)

/-- Whether a name comes from a token of a kind. -/
abbrev Reads (kind : String → TokenKind) : NameId → Prop :=
  w.names.Spells fun s => w.kinds (kind s)

/-- A word that may stand where a method is called: a name, a reserved word or an operator. -/
inductive Word : String → Prop where
  | ident {s : String} (h : w.kinds (.ident s)) : Word s
  | const {s : String} (h : w.kinds (.const s)) : Word s
  | keyword (k : Keyword) : Word k.text
  | operator {p : Punct} {s : String} (h : p.method? = some s) : Word s

/-- What an operator that combines with an assignment calls. -/
theorem word_method (op : ArithOp) : w.Word op.method := by
  cases op with
  | add => exact .operator (p := .plus) rfl
  | sub => exact .operator (p := .minus) rfl
  | mul => exact .operator (p := .star) rfl
  | div => exact .operator (p := .slash) rfl

/-- Whether a name is one that methods are called by: it comes from a word, or it belongs to an
operation that is not named. -/
def Calls (name : NameId) : Prop :=
  (name = NameId.subscript ∨ name = NameId.subscriptAssign ∨ name = NameId.minus) ∨
    w.names.Spells w.Word name

/-- Whether a name is one that methods are defined by: they may be setters, too. -/
def Defines (name : NameId) : Prop :=
  w.Calls name ∨ w.names.Spells (fun s => ∃ word, w.Word word ∧ s = word ++ "=") name

/-- Whether a token is one of the text, and stands where it should. -/
def Has (t : Token) : Prop := w.spans t.span ∧ w.kinds t.kind

/-- What a setting says of tokens it also says of what is made of them. -/
structure Closed : Prop extends Span.Closed w.spans where
  eof : w.kinds .eof

end Setting

/-- Whether a method's body is among some open bodies. -/
abbrev BodyKind.inMethod (ks : List BodyKind) : Bool := ks.contains .methodBody

/-- Whether the tokens that are left, and the one taken last, are those of a setting, and certain
bodies are open. -/
structure Cursor.Fits (w : Setting) (ks : List BodyKind) (c : Cursor) : Prop where
  rest : ∀ t ∈ c.rest, w.Has t
  prev : w.spans c.prev
  bodies : c.bodies.map (·.kind) = ks

/-- Whether the cursor is in a method is told by the bodies that are open. -/
theorem Cursor.Fits.inMethod_eq {w : Setting} {ks : List BodyKind} {c : Cursor} (h : c.Fits w ks) :
    c.inMethod = BodyKind.inMethod ks := by
  rw [← h.bodies, Cursor.inMethod, BodyKind.inMethod, List.contains_eq_any_beq, List.any_map]
  congr 1
  funext b
  exact decide_eq_decide.mpr eq_comm

namespace Parser

variable {w : Setting} {ks : List BodyKind} {P P' : Prop} {α β : Type} {Q : α → Prop}
  {R : β → Prop}

/-- What has been read from `c` on, if the names that are known by then are still those of the
setting in the end, and if `P` holds. -/
def Came (w : Setting) (ks : List BodyKind) (P : Prop) (Q : α → Prop) (c : Cursor) :
    Outcome Cursor SyntaxError α → Prop
  | .done a c' => c.names.Extends c'.names ∧ c'.Fits w ks ∧ (c'.names.Extends w.names → P → Q a)
  | .failed e c' => c.names.Extends c'.names ∧ (c'.names.Extends w.names → P → w.spans e.span)
  | .halted c' => c.names.Extends c'.names

/-- Whether all that a reader answers is of a kind, and its errors are told where they should be,
if `P` holds. -/
def Gives (w : Setting) (ks : List BodyKind) (P : Prop) (Q : α → Prop) (p : Parser α) : Prop :=
  ∀ c : Cursor, c.Fits w ks → Came w ks P Q c (p c)

/-- Whether a reader tells its errors where they should be, whatever it answers. -/
abbrev Passes (w : Setting) (ks : List BodyKind) (P : Prop) (p : Parser α) : Prop :=
  Gives w ks P (fun _ => True) p

namespace Gives

/-- What is built without reading has to be as it should on its own. -/
theorem pure {a : α} (h : P → Q a) : Gives w ks P Q (Pure.pure a) :=
  fun _ hc => ⟨.refl _, hc, fun _ => h⟩

/-- An error is at a place of the text. -/
theorem failAt {cause : SyntaxCause} {place : Span} (h : P → w.spans place) :
    Gives w ks P Q (Parser.failAt cause place) := fun _ _ => ⟨.refl _, fun _ => h⟩

/-- Running out of fuel builds nothing. -/
theorem exhaust : Gives w ks P Q Action.exhaust := fun _ _ => .refl _

/-- What follows an answer may rely on it. -/
theorem bind {p : Parser α} {f : α → Parser β} (hp : Gives w ks P Q p)
    (hf : ∀ a, Gives w ks (P ∧ Q a) R (f a)) : Gives w ks P R (p >>= f) := by
  intro c hc
  have came := hp c hc
  rw [Action.bind_apply]
  cases e : p c with
  | done a c₁ =>
      rw [e] at came
      obtain ⟨grown, fits, given⟩ := came
      have after := hf a c₁ fits
      dsimp only
      cases e' : f a c₁ with
      | done b c₂ =>
          rw [e'] at after
          obtain ⟨grown', fits', given'⟩ := after
          exact ⟨grown.trans grown', fits', fun last hP =>
            given' last ⟨hP, given (grown'.trans last) hP⟩⟩
      | failed e'' c₂ =>
          rw [e'] at after
          obtain ⟨grown', told⟩ := after
          exact ⟨grown.trans grown', fun last hP => told last ⟨hP, given (grown'.trans last) hP⟩⟩
      | halted c₂ =>
          rw [e'] at after
          exact grown.trans after
  | failed e' c₁ | halted c₁ =>
      rw [e] at came
      exact came

/-- More may be assumed, and less be asked of the result. -/
theorem mono {Q' : α → Prop} {p : Parser α} (hp : Gives w ks P Q p) (hP : P' → P)
    (h : ∀ a, P' → Q a → Q' a) : Gives w ks P' Q' p := by
  intro c hc
  have came := hp c hc
  cases e : p c with
  | done a c₁ =>
      rw [e] at came
      exact ⟨came.1, came.2.1, fun last hP' => h a hP' (came.2.2 last (hP hP'))⟩
  | failed e' c₁ =>
      rw [e] at came
      exact ⟨came.1, fun last hP' => came.2 last (hP hP')⟩
  | halted c₁ =>
      rw [e] at came
      exact came

/-- More may be known. -/
theorem under {p : Parser α} (hp : Gives w ks P Q p) (hP : P' → P) : Gives w ks P' Q p :=
  hp.mono hP fun _ _ => id

/-- What is answered may not matter. -/
theorem any {p : Parser α} (hp : Gives w ks P Q p) : Passes w ks P p :=
  hp.mono id fun _ _ _ => trivial

/-- What is answered first may not matter. -/
theorem andThen {p : Parser α} {f : α → Parser β} (hp : Passes w ks P p)
    (hf : ∀ a, Gives w ks P R (f a)) : Gives w ks P R (p >>= f) :=
  hp.bind fun a => (hf a).under And.left

/-- What is made of a result is as it should if it is made of one that is. -/
theorem map {f : α → β} {p : Parser α} (hp : Gives w ks P Q p) (h : ∀ a, P → Q a → R (f a)) :
    Gives w ks P R (f <$> p) :=
  hp.bind fun a => pure fun known => h a known.1 known.2

theorem ite {c : Prop} [Decidable c] {p p' : Parser α} (hp : Gives w ks P Q p)
    (hp' : Gives w ks P Q p') : Gives w ks P Q (if c then p else p') := by
  split
  · exact hp
  · exact hp'

/-- A look at the cursor says nothing of the text. -/
theorem view (f : Cursor → α) : Passes w ks P (Action.view f) :=
  fun _ hc => ⟨.refl _, hc, fun _ _ => trivial⟩

/-- What is read with a further body open. -/
theorem within {p : Parser α} (kind : BodyKind) (hp : Gives w (kind :: ks) P Q p) :
    Gives w ks P Q (Parser.within kind p) := by
  intro c hc
  have came := hp { c with bodies := ⟨kind, []⟩ :: c.bodies }
    ⟨hc.rest, hc.prev, congrArg (kind :: ·) hc.bodies⟩
  simp only [Parser.within, Action.bind_apply, Action.update]
  cases e : p { c with bodies := ⟨kind, []⟩ :: c.bodies } with
  | done a c₁ =>
      rw [e] at came
      obtain ⟨grown, fits, given⟩ := came
      refine ⟨grown, ⟨fits.rest, fits.prev, ?_⟩, given⟩
      rw [List.map_tail, fits.bodies, List.tail_cons]
  | failed e' c₁ | halted c₁ =>
      rw [e] at came
      exact came

/-- What a chain gives is what it starts from, or what a step makes of it. -/
theorem chain {step : α → Parser (Option α)} {a : α}
    (hs : ∀ a, Gives w ks (Q a) (fun r => ∀ b, r = some b → Q b) (step a)) (ha : P → Q a) :
    Gives w ks P Q (Parser.chain step a) := by
  -- The tokens that are left bound the length of a chain.
  have all : ∀ tokens a, Gives w ks (Q a) Q (iterate step tokens a) := by
    intro tokens
    induction tokens with
    | nil =>
        intro a
        refine (hs a).bind fun r => ?_
        cases r with
        | none => exact pure And.left
        | some b => exact exhaust
    | cons t tokens ih =>
        intro a
        refine (hs a).bind fun r => ?_
        cases r with
        | none => exact pure And.left
        | some b => exact (ih b).under fun known => known.2 b rfl
  exact fun c => (all c.rest a).under ha c

/-- A step that has something to add. -/
theorem more {p : Parser α} (hp : Gives w ks P Q p) :
    Gives w ks P (fun r => ∀ b, r = some b → Q b) (some <$> p) :=
  hp.map fun _ _ ha => by
    rintro _ ⟨⟩
    exact ha

theorem pureSome {a : α} (h : P → Q a) :
    Gives w ks P (fun r => ∀ b, r = some b → Q b) (Pure.pure (some a) : Parser (Option α)) :=
  pure fun hP => by
    rintro _ ⟨⟩
    exact h hP

theorem pureNone :
    Gives w ks P (fun r => ∀ b, r = some b → Q b) (Pure.pure none : Parser (Option α)) :=
  pure fun _ => nofun

end Gives

/-! ### Tokens and names -/

/-- **A name that is looked up** is spelled in the end as it was then. -/
theorem gives_intern {ok : String → Prop} {name : String} (h : P → ok name) :
    Gives w ks P (w.names.Spells ok) (intern name) :=
  fun c hc => ⟨c.names.extends_intern name, ⟨hc.rest, hc.prev, hc.bodies⟩,
    fun last hP => NameTable.spells_intern (h hP) last⟩

/-- A name that is looked up for a token comes from it. -/
theorem gives_reads (kind : String → TokenKind) {text : String} (h : P → w.kinds (kind text)) :
    Gives w ks P (w.Reads kind) (intern text) :=
  gives_intern h

theorem has_significant {c : Cursor} (hc : c.Fits w ks) : ∀ t ∈ c.significant, w.Has t :=
  fun t ht => hc.rest t ((List.dropWhile_suffix _).subset ht)

section

variable (hw : w.Closed)

include hw

/-- The first of some tokens is as it should be, and so is the end of the text. -/
theorem has_headD {ts : List Token} (h : ∀ t ∈ ts, w.Has t) : w.Has (ts.headD ⟨.eof, default⟩) := by
  cases ts with
  | nil => exact ⟨hw.default, hw.eof⟩
  | cons t ts => exact h t (.head _)

/-- A token that is looked at is one of the text. -/
theorem gives_current : Gives w ks P w.Has current :=
  fun _ hc => ⟨.refl _, hc, fun _ _ => has_headD hw hc.rest⟩

theorem gives_ahead : Gives w ks P w.Has (Action.view Cursor.ahead) :=
  fun _ hc => ⟨.refl _, hc, fun _ _ => has_headD hw (has_significant hc)⟩

/-- A token that is taken is one of the text. -/
theorem gives_take : Gives w ks P w.Has take := by
  intro c hc
  have places := has_significant hc
  unfold take
  cases hs : c.significant with
  | nil => exact ⟨.refl _, fun _ _ => (has_headD hw places).1⟩
  | cons t rest =>
      rw [hs] at places
      have here := places t (.head _)
      dsimp only
      split
      · exact ⟨.refl _, fun _ _ => here.1⟩
      · exact ⟨.refl _, ⟨fun u hu => places u (.tail _ hu), here.1, hc.bodies⟩, fun _ _ => here⟩

theorem passes_take : Passes w ks P take := (gives_take hw).any

theorem passes_eatPunct (p : Punct) : Passes w ks P (eatPunct p) :=
  (Gives.view _).andThen fun _ => .ite ((passes_take hw).andThen fun _ => .pure fun _ => trivial)
    (.pure fun _ => trivial)

theorem passes_eatPunctHere (p : Punct) : Passes w ks P (eatPunctHere p) :=
  (Gives.view _).andThen fun _ => .ite ((passes_take hw).andThen fun _ => .pure fun _ => trivial)
    (.pure fun _ => trivial)

theorem passes_eatKeyword (k : Keyword) : Passes w ks P (eatKeyword k) :=
  (Gives.view _).andThen fun _ => .ite ((passes_take hw).andThen fun _ => .pure fun _ => trivial)
    (.pure fun _ => trivial)

theorem passes_expectKeyword (k : Keyword) : Passes w ks P (expectKeyword k) :=
  (gives_take hw).bind fun _ => .ite (.pure fun _ => trivial) (.failAt fun ⟨_, ht⟩ => ht.1)

theorem passes_expectPunct (p : Punct) : Passes w ks P (expectPunct p) :=
  (gives_take hw).bind fun _ => .ite (.pure fun _ => trivial) (.failAt fun ⟨_, ht⟩ => ht.1)

/-- The name of an identifier is read from one of the text. -/
theorem gives_expectIdent : Gives w ks P (w.Reads .ident) expectIdent := by
  refine (gives_take hw).bind fun t => ?_
  split
  · rename_i hk
    exact gives_intern fun ⟨_, ht⟩ => hk ▸ ht.2
  · exact .failAt fun ⟨_, ht⟩ => ht.1

end

/-- The place of the last token is one of the text. -/
theorem gives_prevSpan : Gives w ks P w.spans prevSpan :=
  fun _ hc => ⟨.refl _, hc, fun _ _ => hc.prev⟩

theorem passes_advance : Passes w ks P advance := by
  intro c hc
  have same : Came w ks P (fun _ => True) c (.done () c) := ⟨.refl _, hc, fun _ _ => trivial⟩
  unfold advance
  split
  · rename_i t rest hr
    have places := hr ▸ hc.rest
    split
    · exact same
    · exact ⟨.refl _, ⟨fun u hu => places u (.tail _ hu), (places t (.head _)).1, hc.bodies⟩,
        fun _ _ => trivial⟩
  · exact same

theorem passes_eatKeywordHere (k : Keyword) : Passes w ks P (eatKeywordHere k) :=
  (Gives.view _).andThen fun _ => .ite (passes_advance.andThen fun _ => .pure fun _ => trivial)
    (.pure fun _ => trivial)

theorem passes_eatAssignOp : Passes w ks P eatAssignOp := by
  refine (Gives.view _).andThen fun t => ?_
  split
  · exact passes_advance.andThen fun _ => .pure fun _ => trivial
  · exact .pure fun _ => trivial

theorem passes_eatTerms : Passes w ks P eatTerms := by
  intro c hc
  unfold eatTerms
  split
  · refine ⟨.refl _, ⟨fun t ht => hc.rest t ((List.dropWhile_suffix _).subset ht), ?_, hc.bodies⟩,
      fun _ _ => trivial⟩
    dsimp only
    split
    · rename_i t ht
      exact (hc.rest t ((List.takeWhile_sublist _).subset (List.mem_of_getLast? ht))).1
    · exact hc.prev
  · exact ⟨.refl _, hc, fun _ _ => trivial⟩

theorem passes_declare (name : NameId) : Passes w ks P (declare name) := by
  intro c hc
  have same : Came w ks P (fun _ => True) c (.done () c) := ⟨.refl _, hc, fun _ _ => trivial⟩
  change Came w ks P _ c (.done () (c.declare name))
  unfold Cursor.declare
  split
  · exact same
  · split
    · rename_i b bs hb
      refine ⟨.refl _, ⟨hc.rest, hc.prev, ?_⟩, fun _ _ => trivial⟩
      rw [← hc.bodies, hb]
      rfl
    · exact same

end Parser

/-! ### Nodes from parts -/

namespace Node

/-- Whether a node stands where it should, and an assignment is to something that can be assigned
to. -/
def InOrder (S : Span → Prop) (n : Node) : Prop := n.AimsWell ∧ S n.span

/-- Whether all nodes of a tree are in order. -/
abbrev WellBuilt (S : Span → Prop) (n : Node) : Prop := n.All (InOrder S)

/-- Whether the names of a node, and its number if it is a decimal, come from tokens. -/
def Named (w : Setting) : Node → Prop
  | float _ x => w.kinds (.float x) ∨ ∃ y, w.kinds (.float y) ∧ x = -y
  | symbol _ name => w.Reads .symbol name
  | ident _ name => w.Reads .ident name
  | instanceVar _ name => w.Reads .instanceVar name
  | const _ name | classDef _ name _ _ => w.Reads .const name
  | send _ _ name _ => w.Calls name
  | guarded _ _ rescues _ _ => ∀ r ∈ rescues, ∀ name, r.binder? = some name → w.Reads .ident name
  | methodDef _ name params _ | singletonDef _ _ name params _ =>
    w.Defines name ∧ ∀ p ∈ params, w.Reads .ident p.name
  | _ => True

/-- What may stand on the left side of an assignment: a variable, a constant unless a method's body
is open, an index operation, or a call on a receiver without arguments. -/
def Accepted (inMethod : Bool) : Node → Prop
  | ident _ _ | instanceVar _ _ => True
  | const _ _ => inMethod = false
  | send _ (some _) name args => args = [] ∨ name = NameId.subscript
  | _ => False

/-- Whether a node, if it is an assignment, is one to what may stand on the left side of it, by
names that have been read. -/
def AimsAt (w : Setting) (inMethod : Bool) : Node → Prop
  | assign _ target _ => target.Accepted inMethod ∧ target.Named w
  | _ => True

/-- Whether a node is an assignment to a constant. -/
def SetsConstant : Node → Prop
  | assign _ (const _ _) _ => True
  | _ => False

/-- Whether a node is no definition of a method that assigns to constants. -/
def DefinesWell : Node → Prop
  | methodDef _ _ params body | singletonDef _ _ _ params body =>
    AllParams (¬ SetsConstant ·) params ∧ body.All (¬ SetsConstant ·)
  | _ => True

/-- Whether parameters have names of their own, and none without a default follows one with it. -/
def InRow (params : List (Param Node)) : Prop :=
  params.Pairwise fun p q => p.name ≠ q.name ∧ (p.default?.isSome = true → q.default?.isSome = true)

/-- Whether a node, if it is the definition of a method, has its parameters in a row. -/
def DeclaresWell : Node → Prop
  | methodDef _ _ params _ | singletonDef _ _ _ params _ => InRow params
  | _ => True

variable {w : Setting} {m : Bool} {ks : List BodyKind} {place : Span} {a b n : Node}
  {nodes : List Node}

/-- What holds of a node that has been read.  `m` tells whether a method's body was open. -/
structure Sits (w : Setting) (m : Bool) (n : Node) : Prop where
  aims : n.AimsAt w m
  place : w.spans n.span
  named : n.Named w
  defines : n.DefinesWell
  declares : n.DeclaresWell

/-- Whether all nodes of a tree are such as are read while certain bodies are open. -/
abbrev Built (w : Setting) (ks : List BodyKind) (n : Node) : Prop :=
  n.All (Sits w (BodyKind.inMethod ks))

/-- Nodes of which it matters only where they stand and how they are named. -/
def IsPlain : Node → Prop
  | assign .. | methodDef .. | singletonDef .. => False
  | _ => True

/-- A plain node has no parts that might be out of place. -/
theorem Sits.of_isPlain (h : n.IsPlain) (hs : w.spans n.span) (named : n.Named w) :
    n.Sits w m := by
  cases n with
  | assign | methodDef | singletonDef => exact h.elim
  | _ => exact ⟨trivial, hs, named, trivial, trivial⟩

/-- What may be a target inside a method may be one anywhere. -/
theorem Accepted.assignable (h : n.Accepted m) : n.Assignable := by
  cases n with
  | ident | instanceVar | const => exact trivial
  | send s receiver? name args =>
      cases receiver? with
      | none => exact h
      | some r => exact trivial
  | _ => exact h

/-- What may be assigned to in a method may be outside. -/
theorem Accepted.outside (h : n.Accepted true) : n.Accepted m := by
  cases n with
  | const => cases h
  | send s receiver? name args => cases receiver? <;> exact h
  | _ => exact h

/-- What has been read within a method could also have been read around it. -/
theorem Sits.outside (h : n.Sits w true) : n.Sits w m := by
  refine ⟨?_, h.place, h.named, h.defines, h.declares⟩
  cases n with
  | assign s target value => exact ⟨Accepted.outside h.aims.1, h.aims.2⟩
  | _ => exact trivial

/-- Within a method no constant is assigned to. -/
theorem Sits.not_setsConstant (h : n.Sits w true) : ¬ n.SetsConstant := by
  intro sets
  cases n with
  | assign s target value =>
      cases target with
      | const => cases h.aims.1
      | _ => exact sets
  | _ => exact sets

/-- A node that sits in its place has its parts in order. -/
theorem Sits.inOrder (h : n.Sits w m) : n.InOrder w.spans := by
  refine ⟨?_, h.place⟩
  cases n with
  | assign s target value => exact Accepted.assignable h.aims.1
  | _ => exact trivial

theorem Built.span (h : a.Built w ks) : w.spans a.span := (all_here h).place

theorem Built.wellBuilt (h : a.Built w ks) : a.WellBuilt w.spans := fun k hk => (h k hk).inOrder

/-- **A leaf** is built if it is plain and has its place. -/
theorem built_leaf (h : n.preorder = [n]) (hn : n.IsPlain) (hs : w.spans n.span)
    (named : n.Named w) : n.Built w ks := by
  intro k hk
  rw [h] at hk
  exact List.mem_singleton.mp hk ▸ .of_isPlain hn hs named

theorem built_nop (h : w.spans place) : (nop place).Built w ks :=
  all_stmts.mpr ⟨.of_isPlain trivial h trivial, nofun⟩

/-- An optional part that was read, or one without statements in its place. -/
theorem built_getD {part? : Option Node} (hs : w.spans place)
    (h : ∀ n, part? = some n → n.Built w ks) : (part?.getD (nop place)).Built w ks := by
  cases part? with
  | none => exact built_nop hs
  | some n => exact h n rfl

variable (hw : w.Closed)

include hw

/-- Statements are built if each of them is. -/
theorem built_ofStmts (hs : w.spans place) (h : ∀ n ∈ nodes, n.Built w ks) :
    (ofStmts place nodes).Built w ks := by
  unfold ofStmts
  split
  · rename_i first last hf hl
    have begins := (h first (List.mem_of_head? hf)).span
    have here := hw.merge begins (h last (List.mem_of_getLast? hl)).span
    exact all_stmts.mpr ⟨.of_isPlain trivial here trivial, h⟩
  · exact all_stmts.mpr ⟨.of_isPlain trivial hs trivial, h⟩

/-- **A call** is built of a receiver, a name that can be called and arguments. -/
theorem built_ofSend {receiver? : Option Node} {name : NameId} (hs : w.spans place)
    (calls : w.Calls name) (hr : ∀ r, receiver? = some r → r.Built w ks)
    (ha : ∀ n ∈ nodes, n.Built w ks) : (ofSend place receiver? name nodes).Built w ks := by
  refine all_send.mpr ⟨.of_isPlain trivial ?_ calls, hr, ha⟩
  simp only [span]
  cases hl : nodes.getLast? with
  | none =>
      cases receiver? with
      | none => exact hs
      | some r => exact hw.merge hs (hr r rfl).span
  | some arg =>
      have withArgs := hw.merge hs (ha arg (List.mem_of_getLast? hl)).span
      cases receiver? with
      | none => exact withArgs
      | some r => exact hw.merge withArgs (hr r rfl).span

theorem built_ofCall {name : NameId} (hs : w.spans place) (calls : w.Calls name)
    (ha : a.Built w ks) (h : ∀ n ∈ nodes, n.Built w ks) :
    (ofSend place (some a) name nodes).Built w ks := by
  refine built_ofSend hw hs calls ?_ h
  rintro _ ⟨⟩
  exact ha

/-- An operator is a call of the method that it is for. -/
theorem built_ofInfix {name : NameId} (calls : w.Calls name) (ha : a.Built w ks)
    (hb : b.Built w ks) : (ofInfix name a b).Built w ks :=
  built_ofCall hw ha.span calls ha fun _ hn => List.mem_singleton.mp hn ▸ hb

theorem built_ofNot (hs : w.spans place) (ha : a.Built w ks) : (ofNot place a).Built w ks :=
  all_not.mpr ⟨.of_isPlain trivial (hw.merge hs ha.span) trivial, ha⟩

theorem built_ofCond {test : Node} (hs : w.spans place) (ht : test.Built w ks) (ha : a.Built w ks)
    (hb : b.Built w ks) : (ofCond place test a b).Built w ks :=
  all_cond.mpr ⟨.of_isPlain trivial (hw.merge (hw.merge hs ha.span) hb.span) trivial, ht, ha, hb⟩

theorem built_ofLoop {test : Node} (hs : w.spans place) (ht : test.Built w ks)
    (ha : a.Built w ks) : (ofLoop place test a).Built w ks :=
  all_loop.mpr ⟨.of_isPlain trivial (hw.merge hs ha.span) trivial, ht, ha⟩

/-- What is assigned to has been checked. -/
theorem built_ofAssign (checked : a.Accepted (BodyKind.inMethod ks)) (ha : a.Built w ks)
    (hb : b.Built w ks) : (ofAssign a b).Built w ks :=
  all_assign.mpr ⟨⟨⟨checked, (all_here ha).named⟩, hw.merge ha.span hb.span, trivial, trivial,
    trivial⟩, ha, hb⟩

end Node

/-! ### The rules -/

/-- Whether a rule is asked for at a place where it should be. -/
def Rule.Stands (S : Span → Prop) : Rule → Prop
  | .branch place => S place
  | _ => True

namespace Parser

variable {w : Setting} (hw : w.Closed) {ks : List BodyKind} {P : Prop} {rules : Rules}
  (hr : ∀ {ks : List BodyKind} {P : Prop} (r : Rule), (P → r.Stands w.spans) →
    Gives w ks P (Node.Built w ks) (rules r))

include hw hr

/-- A row of nodes that have been read, with whether more follow. -/
theorem gives_argsUntil (close : Punct) :
    Gives w ks P (fun args => ∀ n ∈ args, Node.Built w ks n) (argsUntil rules close) := by
  refine Gives.bind (Q := fun (r : List Node × Bool) => ∀ n ∈ r.1, n.Built w ks) ?_ ?_
  · refine .chain (fun (args, more) => .ite .pureNone ((passes_eatPunct hw close).andThen fun _ =>
      .ite (.pureSome id) ?_)) fun _ => nofun
    refine (hr .arg fun _ => trivial).bind fun arg => (passes_eatPunct hw .comma).andThen fun _ =>
      .ite (.pureSome fun ⟨ha, harg⟩ => List.forall_mem_cons.mpr ⟨harg, ha⟩)
        ((passes_expectPunct hw close).andThen fun _ =>
          .pureSome fun ⟨ha, harg⟩ => List.forall_mem_cons.mpr ⟨harg, ha⟩)
  · exact fun r => .pure fun ⟨_, h⟩ n hn => h n (List.mem_reverse.mp hn)

theorem gives_commandArgs :
    Gives w ks P (fun args => ∀ n ∈ args, Node.Built w ks n) (commandArgs rules) := by
  refine Gives.bind (Q := fun (r : List Node × Bool) => ∀ n ∈ r.1, n.Built w ks) ?_ ?_
  · refine .chain (fun (args, more) => .ite .pureNone ?_) fun _ => nofun
    exact (hr .arg fun _ => trivial).bind fun arg =>
      (passes_eatPunctHere hw .comma).andThen fun _ =>
        .pureSome fun ⟨ha, harg⟩ => List.forall_mem_cons.mpr ⟨harg, ha⟩
  · exact fun r => .pure fun ⟨_, h⟩ n hn => h n (List.mem_reverse.mp hn)

theorem gives_callArgs :
    Gives w ks P (fun args => ∀ n ∈ args, Node.Built w ks n) (callArgs rules) :=
  (Gives.view _).andThen fun _ =>
    .ite ((passes_take hw).andThen fun _ => gives_argsUntil hw hr .rparen)
      ((Gives.view _).andThen fun _ => .ite (gives_commandArgs hw hr) (.pure fun _ => nofun))

omit hw hr in
/-- A word that is looked up is a name that methods are called by. -/
theorem gives_word {name : String} (h : P → w.Word name) : Gives w ks P w.Calls (intern name) :=
  (gives_intern h).mono id fun _ _ => .inr

omit hr in
/-- The name of an operator can be called. -/
theorem gives_operatorName (p : Punct) : Gives w ks P w.Calls (operatorName p) := by
  have index : ∀ {P : Prop}, Gives w ks P w.Calls (pure NameId.subscript) :=
    .pure fun _ => .inl (.inl rfl)
  unfold operatorName
  refine .ite ?_ ?_
  · refine (passes_eatPunctHere hw .rbracket).andThen fun _ => .ite ((Gives.view _).andThen fun _ =>
      .ite ?_ index) ((gives_current hw).bind fun _ => .failAt fun ⟨_, ht⟩ => ht.1)
    exact (passes_eatPunctHere hw .assign).andThen fun _ =>
      .ite (.pure fun _ => .inl (.inr (.inl rfl))) index
  · split
    · rename_i name hm
      exact gives_word fun _ => .operator hm
    · exact gives_prevSpan.bind fun _ => .failAt And.right

omit hr in
/-- **The name after a dot** is one that can be called. -/
theorem gives_methodName :
    Gives w ks P (fun r : NameId × Span => w.Calls r.1 ∧ w.spans r.2) methodName := by
  refine (gives_take hw).bind fun t => Gives.bind (Q := w.Calls) ?_ fun name =>
    gives_prevSpan.bind fun _ => .pure fun ⟨⟨⟨_, ht⟩, hn⟩, hp⟩ => ⟨hn, hw.merge ht.1 hp⟩
  unfold calledName
  split
  · rename_i s hk
    exact gives_word fun ⟨_, ht⟩ => .ident (hk ▸ ht.2)
  · rename_i s hk
    exact gives_word fun ⟨_, ht⟩ => .const (hk ▸ ht.2)
  · exact gives_word fun _ => .keyword _
  · exact gives_operatorName hw _
  · exact .failAt fun ⟨_, ht⟩ => ht.1

/-- A call on a value is built if the value is. -/
theorem gives_methodCall {receiver : Node} (h : P → receiver.Built w ks) :
    Gives w ks P (Node.Built w ks) (methodCall rules receiver) :=
  (gives_methodName hw).bind fun (_, _) => (gives_callArgs hw hr).bind fun _ =>
    gives_prevSpan.bind fun _ => .pure fun ⟨⟨⟨hP, hn, hp⟩, ha⟩, hprev⟩ =>
      Node.built_ofCall hw (hw.merge hp hprev) hn (h hP) ha

theorem gives_indexing {receiver : Node} (h : P → receiver.Built w ks) :
    Gives w ks P (Node.Built w ks) (indexing rules receiver) :=
  (gives_take hw).bind fun _ => (gives_argsUntil hw hr .rbracket).bind fun _ =>
    gives_prevSpan.bind fun _ => .pure fun ⟨⟨⟨hP, ht⟩, ha⟩, hp⟩ =>
      Node.built_ofCall hw (hw.merge ht.1 hp) (.inl (.inl rfl)) (h hP) ha

theorem gives_chained {node : Node} (h : P → node.Built w ks) :
    Gives w ks P (Node.Built w ks) (chained rules node) := by
  refine .chain (fun node => (passes_eatPunct hw .dot).andThen fun _ =>
    .ite (gives_methodCall hw hr id).more ?_) h
  exact (Gives.view _).andThen fun _ => .ite (gives_indexing hw hr id).more .pureNone

theorem gives_functionCall {name : NameId} {place : Span} (hp : P → w.spans place)
    (hn : P → w.Calls name) : Gives w ks P (Node.Built w ks) (functionCall rules name place) :=
  (passes_take hw).andThen fun _ => (gives_argsUntil hw hr .rparen).bind fun _ =>
    gives_prevSpan.bind fun _ => .pure fun ⟨⟨hP, ha⟩, hprev⟩ =>
      Node.built_ofSend hw (hw.merge (hp hP) hprev) (hn hP) nofun ha

/-- An identifier is a local, or a call of a name of the text. -/
theorem gives_identifier {text : String} {place : Span} (hp : P → w.spans place)
    (ht : P → w.kinds (.ident text)) :
    Gives w ks P (Node.Built w ks) (identifier rules text place) := by
  refine (gives_reads .ident ht).bind fun name => ?_
  have here : P ∧ w.Reads .ident name → w.spans place := fun known => hp known.1
  have word : P ∧ w.Reads .ident name → w.Calls name :=
    fun known => .inr (known.2.mono fun _ => .ident)
  have bare : Gives w ks (P ∧ w.Reads .ident name) (Node.Built w ks) (pure (.ident place name)) :=
    .pure fun known => Node.built_leaf rfl trivial (here known) known.2
  refine (Gives.view _).andThen fun _ => .ite (gives_functionCall hw hr here word) ?_
  refine (Gives.view _).andThen fun _ => .ite bare ((Gives.view _).andThen fun _ => .ite ?_ bare)
  exact (gives_commandArgs hw hr).bind fun _ =>
    .pure fun ⟨known, ha⟩ => Node.built_ofSend hw (here known) (word known) nofun ha

theorem gives_constant {text : String} {place : Span} (hp : P → w.spans place)
    (ht : P → w.kinds (.const text)) :
    Gives w ks P (Node.Built w ks) (constant rules text place) :=
  (gives_reads .const ht).bind fun _ =>
    (Gives.view _).andThen fun _ =>
      .ite (gives_functionCall hw hr (fun known => hp known.1)
          fun known => .inr (known.2.mono fun _ => .const))
        (.pure fun known => Node.built_leaf rfl trivial (hp known.1) known.2)

/-! ### Blocks -/

omit hr in
theorem passes_opening (k : Keyword) : Passes w ks P (opening k) :=
  passes_eatTerms.andThen fun _ =>
    .ite ((passes_eatKeyword hw k).andThen fun _ => .pure fun _ => trivial)
      (passes_expectKeyword hw k)

theorem gives_elseBranch : Gives w ks P (Node.Built w ks) (elseBranch rules) :=
  (passes_eatKeyword hw .kElse).andThen fun _ => .ite (hr .stmts fun _ => trivial)
    ((gives_current hw).bind fun _ => .pure fun ⟨_, ht⟩ => Node.built_nop ht.1)

theorem gives_otherBranch : Gives w ks P (Node.Built w ks) (otherBranch rules) :=
  (passes_eatKeyword hw .kElsif).andThen fun _ =>
    .ite (gives_prevSpan.bind fun _ => hr _ And.right) (gives_elseBranch hw hr)

theorem gives_branches {place : Span} (hp : P → w.spans place) :
    Gives w ks P (Node.Built w ks) (branches rules place) :=
  (hr .expr fun _ => trivial).bind fun _ => (passes_opening hw .kThen).andThen fun _ =>
    (hr .stmts fun _ => trivial).bind fun _ => (gives_otherBranch hw hr).bind fun _ =>
      .pure fun ⟨⟨⟨hP, ht⟩, hy⟩, hn⟩ => Node.built_ofCond hw (hp hP) ht hy hn

theorem gives_unlessBlock {place : Span} (hp : P → w.spans place) :
    Gives w ks P (Node.Built w ks) (unlessBlock rules place) :=
  (hr .expr fun _ => trivial).bind fun _ => (passes_opening hw .kThen).andThen fun _ =>
    (hr .stmts fun _ => trivial).bind fun _ => (gives_elseBranch hw hr).bind fun _ =>
      (passes_expectKeyword hw .kEnd).andThen fun _ =>
        .pure fun ⟨⟨⟨hP, ht⟩, hn⟩, hy⟩ => Node.built_ofCond hw (hp hP) ht hy hn

theorem gives_whileBlock {place : Span} (hp : P → w.spans place) :
    Gives w ks P (Node.Built w ks) (whileBlock rules place) :=
  (hr .expr fun _ => trivial).bind fun _ => (passes_opening hw .kDo).andThen fun _ =>
    (hr .stmts fun _ => trivial).bind fun _ => (passes_expectKeyword hw .kEnd).andThen fun _ =>
      gives_prevSpan.bind fun _ => .pure fun ⟨⟨⟨hP, ht⟩, hb⟩, hprev⟩ =>
        Node.built_ofLoop hw (hw.merge (hp hP) hprev) ht hb

omit hw in
theorem gives_jumpValue {place : Span} (hp : P → w.spans place) :
    Gives w ks P (Node.Built w ks) (jumpValue rules place) :=
  (Gives.view _).andThen fun _ =>
    .ite (.pure fun hP => Node.built_leaf rfl trivial (hp hP) trivial) (hr .arg fun _ => trivial)

theorem gives_rescueClasses :
    Gives w ks P (fun classes => ∀ n ∈ classes, Node.Built w ks n) (rescueClasses rules) :=
  (Gives.view _).andThen fun _ => .ite (.pure fun _ => nofun) (gives_commandArgs hw hr)

omit hr in
theorem gives_rescueBinder :
    Gives w ks P (fun r => ∀ name, r = some name → w.Reads .ident name) rescueBinder :=
  (passes_eatPunctHere hw .arrow).andThen fun _ =>
    .ite ((gives_expectIdent hw).bind fun name => (passes_declare name).andThen fun _ =>
      .pureSome And.right) .pureNone

/-- A clause whose parts have been read. -/
abbrev ClauseRead (w : Setting) (ks : List BodyKind) (c : RescueClause Node) : Prop :=
  Node.AllClause (Node.Sits w (BodyKind.inMethod ks)) c ∧
    ∀ name, c.binder? = some name → w.Reads .ident name

/-- A clause has classes and a body that are built, and binds a name of the text. -/
theorem gives_rescueClause : Gives w ks P (ClauseRead w ks) (rescueClause rules) := by
  refine passes_eatTerms.andThen fun _ =>
    .ite ((hr .stmts fun _ => trivial).bind fun body => .pure fun ⟨_, hb⟩ => ⟨⟨nofun, hb⟩, nofun⟩)
      ?_
  exact (gives_rescueClasses hw hr).bind fun classes => (gives_rescueBinder hw).bind fun binder? =>
    (passes_opening hw .kThen).andThen fun _ => (hr .stmts fun _ => trivial).bind fun body =>
      .pure fun ⟨⟨⟨_, hc⟩, hn⟩, hb⟩ => ⟨⟨hc, hb⟩, hn⟩

theorem gives_rescueClauses :
    Gives w ks P (fun clauses => ∀ c ∈ clauses, ClauseRead w ks c) (rescueClauses rules) := by
  refine .chain (fun clauses => (passes_eatKeyword hw .kRescue).andThen fun _ =>
    .ite ?_ .pureNone) fun _ => nofun
  refine (gives_rescueClause hw hr).bind fun clause => .pureSome fun ⟨hc, h⟩ c hmem => ?_
  rcases List.mem_append.mp hmem with hmem | hmem
  · exact hc c hmem
  · exact List.mem_singleton.mp hmem ▸ h

theorem gives_otherwiseClause (rescued : Bool) :
    Gives w ks P (fun r => ∀ n, r = some n → Node.Built w ks n) (otherwiseClause rules rescued) :=
  (passes_eatKeyword hw .kElse).andThen fun _ => .ite (.ite (hr .stmts fun _ => trivial).more
    (gives_prevSpan.bind fun _ => .failAt And.right)) .pureNone

theorem gives_ensureClause :
    Gives w ks P (fun r => ∀ n, r = some n → Node.Built w ks n) (ensureClause rules) :=
  (passes_eatKeyword hw .kEnsure).andThen fun _ =>
    .ite (hr .stmts fun _ => trivial).more .pureNone

theorem gives_guardedBody : Gives w ks P (Node.Built w ks) (guardedBody rules) := by
  refine (hr .stmts fun _ => trivial).bind fun body =>
    (gives_rescueClauses hw hr).bind fun rescues =>
      (gives_otherwiseClause hw hr _).bind fun otherwise =>
        (gives_ensureClause hw hr).bind fun cleanup => .ite (.pure fun known => known.1.1.1.2)
          (gives_prevSpan.bind fun prev =>
            .pure fun ⟨⟨⟨⟨⟨_, hb⟩, hrescues⟩, ho⟩, hc⟩, hp⟩ => ?_)
  have here := hw.merge hb.span hp
  exact Node.all_guarded.mpr ⟨.of_isPlain trivial here fun c hmem => (hrescues c hmem).2, hb,
    fun c hmem => (hrescues c hmem).1, Node.built_getD here ho, Node.built_getD here hc⟩

theorem gives_beginBlock {place : Span} (hp : P → w.spans place) :
    Gives w ks P (Node.Built w ks) (beginBlock rules place) := by
  refine (gives_guardedBody hw hr).bind fun node =>
    (passes_expectKeyword hw .kEnd).andThen fun _ => ?_
  cases node with
  | guarded => exact .pure And.right
  | _ =>
      refine gives_prevSpan.bind fun _ => .pure fun ⟨⟨hP, hn⟩, hprev⟩ =>
        Node.built_ofStmts hw (hw.merge (hp hP) hprev) fun n hmem => ?_
      exact List.mem_singleton.mp hmem ▸ hn

omit hr in
/-- The name of a setter is a word with `=` behind it. -/
theorem gives_setterName {text : String} (h : P → w.Word text) :
    Gives w ks P w.Defines (setterName text) := by
  refine (Gives.view _).andThen fun _ =>
    .ite ((passes_take hw).andThen fun _ => ?_) ((gives_word h).mono id fun _ _ => .inl)
  exact (gives_intern fun hP => ⟨text, h hP, rfl⟩).mono id fun _ _ => .inr

omit hr in
/-- The name that is defined is a word, a setter or an operator. -/
theorem gives_definedName {t : Token} (ht : P → w.Has t) :
    Gives w ks P w.Defines (definedName t) := by
  unfold definedName
  split
  · rename_i s hk
    exact gives_setterName hw fun hP => .ident (hk ▸ (ht hP).2)
  · rename_i s hk
    exact gives_setterName hw fun hP => .const (hk ▸ (ht hP).2)
  · exact gives_setterName hw fun _ => .keyword _
  · exact (gives_operatorName hw _).mono id fun _ _ => .inl
  · exact .failAt fun hP => (ht hP).1

/-- A parameter has a name that no parameter before it has. -/
theorem gives_param (params : List (Param Node)) :
    Gives w ks P (fun p => ((∀ d, p.default? = some d → Node.Built w ks d) ∧
      w.Reads .ident p.name) ∧
      ∀ q ∈ params, q.name ≠ p.name ∧ (q.default?.isSome = true → p.default?.isSome = true))
    (param rules params) := by
  refine (gives_current hw).bind fun t => (gives_expectIdent hw).bind fun name => ?_
  split
  · exact .failAt fun ⟨⟨_, ht⟩, _⟩ => ht.1
  · rename_i fresh
    simp only [List.any_eq_true, decide_eq_true_eq, not_exists, not_and] at fresh
    refine (passes_declare name).andThen fun _ => (passes_eatPunctHere hw .assign).andThen fun _ =>
      .ite ?_ ?_
    · refine (hr .arg fun _ => trivial).bind fun value => .pure fun ⟨⟨_, hn⟩, hv⟩ =>
        ⟨⟨?_, hn⟩, fun q hq => ⟨fresh q hq, fun _ => rfl⟩⟩
      rintro _ ⟨⟩
      exact hv
    · split
      · exact .failAt fun ⟨⟨_, ht⟩, _⟩ => ht.1
      · rename_i required
        simp only [List.any_eq_true, not_exists, not_and] at required
        exact .pure fun ⟨_, hn⟩ =>
          ⟨⟨nofun, hn⟩, fun q hq => ⟨fresh q hq, fun h => absurd h (required q hq)⟩⟩

/-- A list of parameters whose names and defaults have been read. -/
structure ParamsRead (w : Setting) (ks : List BodyKind) (params : List (Param Node)) : Prop where
  built : Node.AllParams (Node.Sits w (BodyKind.inMethod ks)) params
  named : ∀ p ∈ params, w.Reads .ident p.name
  row : Node.InRow params

omit hw hr in
/-- A method may have no parameters. -/
theorem paramsRead_nil : ParamsRead w ks [] := ⟨nofun, nofun, .nil⟩

theorem gives_someParams : Gives w ks P (ParamsRead w ks) (someParams rules) := by
  refine Gives.bind (Q := fun (r : List (Param Node) × Bool) => ParamsRead w ks r.1) ?_
    fun r => .pure And.right
  refine .chain (fun (params, more) => .ite .pureNone ?_) fun _ => paramsRead_nil
  refine (gives_param hw hr params).bind fun p => (passes_eatPunct hw .comma).andThen fun _ =>
    .pureSome fun ⟨before, ⟨h, hn⟩, follows⟩ => ⟨fun q hq => ?_, fun q hq => ?_, ?_⟩
  · rcases List.mem_append.mp hq with hq | hq
    · exact before.built q hq
    · exact List.mem_singleton.mp hq ▸ h
  · rcases List.mem_append.mp hq with hq | hq
    · exact before.named q hq
    · exact List.mem_singleton.mp hq ▸ hn
  · refine List.pairwise_append.mpr ⟨before.row, List.pairwise_singleton _ p, fun q hq p' hp' => ?_⟩
    exact List.mem_singleton.mp hp' ▸ follows q hq

theorem gives_anyParams : Gives w ks P (ParamsRead w ks) (anyParams rules) := by
  refine (passes_eatPunctHere hw .lparen).andThen fun _ =>
    .ite ?_ ((Gives.view _).andThen fun t => ?_)
  · refine (passes_eatPunct hw .rparen).andThen fun _ => .ite (.pure fun _ => paramsRead_nil) ?_
    exact (gives_someParams hw hr).bind fun params =>
      (passes_expectPunct hw .rparen).andThen fun _ => .pure And.right
  · split
    · exact gives_someParams hw hr
    · exact .pure fun _ => paramsRead_nil

theorem gives_paramList : Gives w ks P (ParamsRead w ks) (paramList rules) :=
  passes_eatTerms.andThen fun _ => .ite (.pure fun _ => paramsRead_nil)
    ((gives_anyParams hw hr).bind fun _ => passes_eatTerms.andThen fun _ => .pure And.right)

omit hw hr in
theorem gives_definitionTarget {t : Token} (ht : P → w.Has t) :
    Gives w ks P (fun r => ∀ n, r = some n → Node.Built w ks n) (definitionTarget t) := by
  unfold definitionTarget
  refine (Gives.view _).andThen fun cur => ?_
  dsimp only
  split
  · split
    · exact .pureSome fun hP => Node.built_leaf rfl trivial (ht hP).1 trivial
    · exact .pureNone
  · rename_i s hk
    refine .ite ((gives_reads .const fun hP => hk ▸ (ht hP).2).bind fun name =>
      .pureSome fun ⟨hP, hn⟩ => ?_) .pureNone
    exact Node.built_leaf rfl trivial (ht hP).1 hn
  · exact .pureNone

omit hr in
theorem gives_definitionName {t : Token} (ht : P → w.Has t) (target? : Option Node) :
    Gives w ks P w.Defines (definitionName t target?) := by
  cases target? with
  | none => exact gives_definedName hw ht
  | some target =>
      exact (passes_take hw).andThen fun _ => (gives_take hw).bind fun u =>
        gives_definedName hw And.right

/-- The parts of a definition are read where a method is open. -/
theorem gives_methodParts : Gives w ks P (fun (r : List (Param Node) × Node) =>
    ParamsRead w ks r.1 ∧ r.2.Built w ks) (methodParts rules) :=
  (gives_paramList hw hr).bind fun _ => (gives_guardedBody hw hr).bind fun _ =>
    .pure fun ⟨⟨_, hp⟩, hb⟩ => ⟨hp, hb⟩

/-- **A method's definition.**  Its parts are read within a method, so they assign to no
constant. -/
theorem gives_methodDefinition {place : Span} (hp : P → w.spans place) :
    Gives w ks P (Node.Built w ks) (methodDefinition rules place) := by
  have outside : ∀ {n : Node}, n.Built w (.methodBody :: ks) →
      n.Built w ks ∧ n.All (¬ Node.SetsConstant ·) := fun h =>
    ⟨fun k hk => (h k hk).outside, fun k hk => (h k hk).not_setsConstant⟩
  refine (gives_take hw).bind fun t => (gives_definitionTarget And.right).bind fun target? =>
    (gives_definitionName hw (fun known => known.1.2) target?).bind fun name => ?_
  refine (Gives.within .methodBody (gives_methodParts hw hr)).bind fun (params, body) =>
    (passes_expectKeyword hw .kEnd).andThen fun _ => gives_prevSpan.bind fun _ => ?_
  -- What is told of the parts is told of them as parts of the definition.
  have parts : ParamsRead w (.methodBody :: ks) params ∧ body.Built w (.methodBody :: ks) →
      (ParamsRead w ks params ∧ body.Built w ks) ∧
        Node.AllParams (¬ Node.SetsConstant ·) params ∧ body.All (¬ Node.SetsConstant ·) :=
    fun ⟨⟨hparams, named, row⟩, hb⟩ =>
      ⟨⟨⟨fun p h d hd => (outside (hparams p h d hd)).1, named, row⟩, (outside hb).1⟩,
        fun p h d hd => (outside (hparams p h d hd)).2, (outside hb).2⟩
  cases target? with
  | some target =>
      refine .pure fun ⟨⟨⟨⟨⟨hP, _⟩, htarget⟩, hn⟩, hparts⟩, hprev⟩ => ?_
      obtain ⟨⟨⟨hparams, named, row⟩, hb⟩, sets⟩ := parts hparts
      exact Node.all_singletonDef.mpr ⟨⟨trivial, hw.merge (hp hP) hprev, ⟨hn, named⟩, sets, row⟩,
        htarget target rfl, hparams, hb⟩
  | none =>
      refine .pure fun ⟨⟨⟨⟨⟨hP, _⟩, _⟩, hn⟩, hparts⟩, hprev⟩ => ?_
      obtain ⟨⟨⟨hparams, named, row⟩, hb⟩, sets⟩ := parts hparts
      exact Node.all_methodDef.mpr ⟨⟨trivial, hw.merge (hp hP) hprev, ⟨hn, named⟩, sets, row⟩,
        hparams, hb⟩

omit hw hr in
theorem gives_className {t : Token} (ht : P → w.Has t) :
    Gives w ks P (w.Reads .const) (className t) := by
  unfold className
  split
  · rename_i s hk
    exact gives_intern fun hP => hk ▸ (ht hP).2
  · exact .failAt fun hP => (ht hP).1

theorem gives_classParent :
    Gives w ks P (fun r => ∀ n, r = some n → Node.Built w ks n) (classParent rules) :=
  (passes_eatPunctHere hw .less).andThen fun _ => .ite (hr .expr fun _ => trivial).more .pureNone

theorem gives_classDefinition {place : Span} (hp : P → w.spans place) :
    Gives w ks P (Node.Built w ks) (classDefinition rules place) :=
  (gives_take hw).bind fun _ => (gives_className And.right).bind fun _ =>
    (gives_classParent hw hr).bind fun _ => passes_eatTerms.andThen fun _ =>
      (Gives.within .classBody (gives_guardedBody hw hr)).bind fun _ =>
        (passes_expectKeyword hw .kEnd).andThen fun _ => gives_prevSpan.bind fun _ =>
          .pure fun ⟨⟨⟨⟨⟨hP, _⟩, hn⟩, hparent⟩, hb⟩, hprev⟩ =>
            Node.all_classDef.mpr
              ⟨.of_isPlain trivial (hw.merge (hp hP) hprev) hn, hparent, hb⟩

/-! ### Operands -/

/-- **Every primary** is built. -/
theorem gives_primary : Gives w ks P (Node.Built w ks) (primary rules) := by
  unfold primary
  refine (gives_take hw).bind fun t => ?_
  have here : P ∧ w.Has t → w.spans t.span := fun ⟨_, ht⟩ => ht.1
  have leaf : ∀ {n : Node}, n.preorder = [n] → n.IsPlain → n.span = t.span → n.Named w →
      Gives w ks (P ∧ w.Has t) (Node.Built w ks) (pure n) :=
    fun h hn hs named => .pure fun known => Node.built_leaf h hn (hs ▸ here known) named
  dsimp only
  split
  · rename_i text hk
    exact gives_identifier hw hr here fun ⟨_, ht⟩ => hk ▸ ht.2
  · rename_i text hk
    exact (gives_reads .instanceVar fun ⟨_, ht⟩ => hk ▸ ht.2).map fun _ known hn =>
      Node.built_leaf rfl trivial (here known) hn
  · rename_i text hk
    exact gives_constant hw hr here fun ⟨_, ht⟩ => hk ▸ ht.2
  · exact .ite (leaf rfl trivial rfl trivial) (.failAt here)
  · rename_i x hk
    exact .pure fun known => Node.built_leaf rfl trivial (here known) (.inl (hk ▸ known.2.2))
  · exact leaf rfl trivial rfl trivial
  · rename_i text hk
    exact (gives_reads .symbol fun ⟨_, ht⟩ => hk ▸ ht.2).map fun _ known hn =>
      Node.built_leaf rfl trivial (here known) hn
  · exact (hr .stmts fun _ => trivial).bind fun node =>
      (passes_expectPunct hw .rparen).andThen fun _ => .pure And.right
  · exact (gives_argsUntil hw hr .rbracket).bind fun elements => gives_prevSpan.bind fun _ =>
      .pure fun ⟨⟨known, he⟩, hp⟩ =>
        Node.all_array.mpr ⟨.of_isPlain trivial (hw.merge (here known) hp) trivial, he⟩
  · split
    · exact leaf rfl trivial rfl trivial
    · exact leaf rfl trivial rfl trivial
    · exact leaf rfl trivial rfl trivial
    · exact leaf rfl trivial rfl trivial
    · exact (gives_branches hw hr here).bind fun node =>
        (passes_expectKeyword hw .kEnd).andThen fun _ => .pure And.right
    · exact gives_unlessBlock hw hr here
    · exact gives_whileBlock hw hr here
    · exact gives_methodDefinition hw hr here
    · exact (Gives.view _).andThen fun _ => .ite (.failAt here) (gives_classDefinition hw hr here)
    · exact gives_beginBlock hw hr here
    · exact (gives_jumpValue hr here).map fun _ known h =>
        Node.all_returnWith.mpr ⟨.of_isPlain trivial (hw.merge (here known) h.span) trivial, h⟩
    · exact (gives_jumpValue hr here).map fun _ known h =>
        Node.all_breakWith.mpr ⟨.of_isPlain trivial (hw.merge (here known) h.span) trivial, h⟩
    · exact (gives_jumpValue hr here).map fun _ known h =>
        Node.all_nextWith.mpr ⟨.of_isPlain trivial (hw.merge (here known) h.span) trivial, h⟩
    · exact .failAt here
  · exact .failAt here

theorem gives_unary : Gives w ks P (Node.Built w ks) (unary rules) := by
  refine (passes_eatPunct hw .bang).andThen fun _ => .ite (gives_prevSpan.bind fun place => ?_) ?_
  · exact (hr .unary fun _ => trivial).map fun _ known h => Node.built_ofNot hw known.2 h
  · exact (gives_primary hw hr).bind fun _ => gives_chained hw hr And.right

omit hr in
/-- A call by an operator is built if the operator has a method. -/
theorem gives_infixCall {p : Punct} (word : P → p.method?.isSome = true) {left right : Node}
    (hl : P → left.Built w ks) (h : P → right.Built w ks) :
    Gives w ks P (Node.Built w ks) (infixCall p left right) := by
  have operator : P → w.Word (p.method?.getD "") := by
    intro hP
    obtain ⟨name, hm⟩ := Option.isSome_iff_exists.mp (word hP)
    rw [hm]
    exact .operator hm
  exact (gives_word operator).bind fun _ =>
    .pure fun ⟨hP, hn⟩ => Node.built_ofInfix hw hn (hl hP) (h hP)

theorem gives_power : Gives w ks P (Node.Built w ks) (power rules) := by
  refine (gives_unary hw hr).bind fun left => (passes_eatPunctHere hw .power).andThen fun _ =>
    .ite ?_ (.pure And.right)
  exact (hr .signed fun _ => trivial).bind fun right =>
    gives_infixCall hw (fun _ => rfl) (fun known => known.1.2) And.right

omit hr in
/-- A sign and a number behind it are one literal. -/
theorem gives_signedNumber {place : Span} (hp : P → w.spans place) :
    Gives w ks P (fun r => ∀ n, r = some n → Node.Built w ks n) (signedNumber? place) := by
  unfold signedNumber?
  refine (gives_current hw).bind fun t => ?_
  have whole : P ∧ w.Has t → w.spans (place.merge t.span) :=
    fun ⟨hP, ht⟩ => hw.merge (hp hP) ht.1
  dsimp only
  split
  · exact .ite (passes_advance.andThen fun _ =>
      .pureSome fun known => Node.built_leaf rfl trivial (whole known) trivial) (.failAt whole)
  · rename_i x hk
    exact passes_advance.andThen fun _ => .pureSome fun known =>
      Node.built_leaf rfl trivial (whole known) (.inr ⟨x, hk ▸ known.2.2, rfl⟩)
  · exact .pureNone

omit hr in
theorem gives_signedLiteral {place : Span} (hp : P → w.spans place) :
    Gives w ks P (fun r => ∀ n, r = some n → Node.Built w ks n) (signedLiteral? place) :=
  (Gives.view _).andThen fun _ => .ite .pureNone (gives_signedNumber hw hp)

theorem gives_signed : Gives w ks P (Node.Built w ks) (signed rules) := by
  refine (passes_eatPunct hw .minus).andThen fun _ =>
    .ite (gives_prevSpan.bind fun place => ?_) (gives_power hw hr)
  refine (gives_signedLiteral hw And.right).bind fun literal? => ?_
  cases literal? with
  | some literal => exact gives_chained hw hr fun known => known.2 literal rfl
  | none =>
      exact (hr .signed fun _ => trivial).bind fun operand => .pure fun ⟨⟨⟨_, hp⟩, _⟩, ho⟩ =>
        Node.built_ofCall hw (hw.merge hp ho.span) (.inl (.inr (.inr rfl))) ho nofun

/-! ### Operators -/

/-- Whether the operators of a level call methods, unless they are short-circuit operators. -/
def Level.CallsMethods (level : Level) : Prop :=
  level.kind = .shortOr ∨ level.kind = .shortAnd ∨ ∀ p ∈ level.ops, p.method?.isSome = true

instance (level : Level) : Decidable level.CallsMethods :=
  inferInstanceAs (Decidable (_ ∨ _ ∨ _))

omit hr in
/-- Two sides are joined by an operator of the level. -/
theorem gives_join {level : Level} (calls : level.CallsMethods) {p : Punct} {left right : Node}
    (hp : P → p ∈ level.ops) (hl : P → left.Built w ks) (h : P → right.Built w ks) :
    Gives w ks P (Node.Built w ks) (level.join p left right) := by
  have whole : P → w.spans (left.span.merge right.span) :=
    fun hP => hw.merge (hl hP).span (h hP).span
  unfold Level.join
  split
  · exact .pure fun hP => Node.all_or.mpr ⟨.of_isPlain trivial (whole hP) trivial, hl hP, h hP⟩
  · exact .pure fun hP => Node.all_and.mpr ⟨.of_isPlain trivial (whole hP) trivial, hl hP, h hP⟩
  · rename_i other other'
    obtain short | short | words := calls
    · exact (other short).elim
    · exact (other' short).elim
    · exact gives_infixCall hw (fun hP => words p (hp hP)) hl h

omit hr in
theorem gives_eatOperator (level : Level) :
    Gives w ks P (fun r => ∀ p, r = some p → p ∈ level.ops) (eatOperator level) := by
  refine (Gives.view _).andThen fun t => ?_
  split
  · split
    · rename_i mem
      exact (passes_take hw).andThen fun _ => .pureSome fun _ => List.contains_iff_mem.mp mem
    · exact .pureNone
  · exact .pureNone

omit hr in
theorem gives_extend {level : Level} (calls : level.CallsMethods) {operand : Parser Node}
    (ho : ∀ {P : Prop}, Gives w ks P (Node.Built w ks) operand) {left : Node}
    (hl : P → left.Built w ks) :
    Gives w ks P (fun r => ∀ n, r = some n → Node.Built w ks n) (level.extend operand left) := by
  refine (gives_eatOperator hw level).bind fun r => ?_
  cases r with
  | none => exact .pureNone
  | some p =>
      exact ho.bind fun right => (gives_join hw calls (fun known => known.1.2 p rfl)
        (fun known => hl known.1.1) And.right).more

/-- **Operators** build what their levels do. -/
theorem gives_operation (ls : List Level) (calls : ∀ l ∈ ls, l.CallsMethods) :
    Gives w ks P (Node.Built w ks) (operation rules ls) := by
  induction ls generalizing P with
  | nil => exact gives_signed hw hr
  | cons level tighter ih =>
      obtain ⟨here, deeper⟩ := List.forall_mem_cons.mp calls
      refine (ih deeper).bind fun left => ?_
      split
      · refine (gives_extend hw here (ih deeper) And.right).bind fun r => ?_
        cases r with
        | none => exact .pure fun known => known.1.2
        | some node => exact .pure fun known => known.2 node rfl
      · exact .chain (fun node => gives_extend hw here (ih deeper) id) And.right

omit hw hr in
/-- **The check of a target.**  It passes what may stand on the left side of an assignment, and
nothing else. -/
theorem checkTarget_done_iff {target : Node} {c : Cursor} :
    (∃ c', checkTarget target c = .done () c') ↔ target.Accepted c.inMethod := by
  cases target with
  | ident place name => exact ⟨fun _ => trivial, fun _ => ⟨_, rfl⟩⟩
  | instanceVar place name => exact ⟨fun _ => trivial, fun _ => ⟨_, rfl⟩⟩
  | const place name =>
      simp only [checkTarget, Action.bind_apply, Action.view, Node.Accepted]
      cases c.inMethod with
      | true => simp [failAt, Action.fail]
      | false => simp [Action.pure_apply]
  | send place receiver? name args =>
      cases receiver? with
      | none => simp [checkTarget, Node.Accepted, failAt, Action.fail]
      | some receiver =>
          have shape : (args.isEmpty || decide (name = NameId.subscript)) = true ↔
              args = [] ∨ name = NameId.subscript := by simp
          simp only [checkTarget, Node.Accepted, ← shape]
          split
          · simp [*, Action.pure_apply]
          · simp [*, failAt, Action.fail]
  | _ => simp [checkTarget, Node.Accepted, failAt, Action.fail]

omit hw hr in
/-- A target that is accepted where it stands may be assigned to. -/
theorem gives_checkTarget {target : Node} (h : P → w.spans target.span) :
    Gives w ks P (fun _ => target.Accepted (BodyKind.inMethod ks)) (checkTarget target) := by
  have passes : Passes w ks P (checkTarget target) := by
    cases target with
    | ident place name => exact passes_declare name
    | instanceVar place name => exact .pure fun _ => trivial
    | const place name =>
        exact (Gives.view _).andThen fun _ => .ite (.failAt h) (.pure fun _ => trivial)
    | send place receiver? name args =>
        cases receiver? with
        | some receiver => exact .ite (.pure fun _ => trivial) (.failAt h)
        | none => exact .failAt h
    | _ => exact .failAt h
  intro c hc
  have came := passes c hc
  have checked : (∃ c', checkTarget target c = .done () c') ↔ _ := checkTarget_done_iff
  cases e : checkTarget target c with
  | done u c₁ =>
      rw [e] at came checked
      exact ⟨came.1, came.2.1, fun _ _ => hc.inMethod_eq ▸ checked.mp ⟨c₁, rfl⟩⟩
  | failed e' c₁ | halted c₁ =>
      rw [e] at came
      exact came

theorem gives_assignment : Gives w ks P (Node.Built w ks) (assignment rules) := by
  have operations : ∀ l ∈ levels, l.CallsMethods := by decide
  refine (gives_operation hw hr levels operations).bind fun left =>
    (passes_eatPunctHere hw .assign).andThen fun _ =>
      .ite ?_ (passes_eatAssignOp.andThen fun r => ?_)
  · exact (gives_checkTarget fun known => known.2.span).bind fun _ =>
      (hr .arg fun _ => trivial).bind fun right => .pure fun ⟨⟨⟨_, hl⟩, checked⟩, h⟩ =>
        Node.built_ofAssign hw checked hl h
  · cases r with
    | none => exact .pure And.right
    | some op =>
        exact (gives_checkTarget fun known => known.2.span).bind fun _ =>
          (hr .arg fun _ => trivial).bind fun right =>
            (gives_word fun _ => w.word_method op).bind fun name =>
              .pure fun ⟨⟨⟨⟨_, hl⟩, checked⟩, h⟩, hn⟩ =>
                Node.built_ofAssign hw checked hl (Node.built_ofInfix hw hn hl h)

/-! ### Statements -/

theorem gives_expression : Gives w ks P (Node.Built w ks) (expression rules) := by
  refine (passes_eatKeyword hw .kNot).andThen fun _ =>
    .ite (gives_prevSpan.bind fun place => ?_) (gives_assignment hw hr)
  exact (hr .expr fun _ => trivial).map fun _ known h => Node.built_ofNot hw known.2 h

theorem gives_modified {node : Node} (hn : P → node.Built w ks) :
    Gives w ks P (fun r => ∀ n, r = some n → Node.Built w ks n) (modified rules node) := by
  refine (passes_eatKeywordHere .kIf).andThen fun _ => .ite (gives_prevSpan.bind fun place => ?_)
    ((passes_eatKeywordHere .kUnless).andThen fun _ => .ite (gives_prevSpan.bind fun place => ?_)
      ((passes_eatKeywordHere .kWhile).andThen fun _ => .ite (gives_prevSpan.bind fun place => ?_)
        .pureNone))
  · exact (hr .expr fun _ => trivial).bind fun test => .pureSome fun ⟨⟨hP, hp⟩, ht⟩ =>
      Node.built_ofCond hw hp ht (hn hP) (Node.built_nop hp)
  · exact (hr .expr fun _ => trivial).bind fun test => .pureSome fun ⟨⟨hP, hp⟩, ht⟩ =>
      Node.built_ofCond hw hp ht (Node.built_nop hp) (hn hP)
  · exact (hr .expr fun _ => trivial).bind fun test => .pureSome fun ⟨⟨hP, hp⟩, ht⟩ =>
      Node.built_ofLoop hw hp ht (hn hP)

theorem gives_statement : Gives w ks P (Node.Built w ks) (statement rules) :=
  (gives_expression hw hr).bind fun _ => .chain (fun _ => gives_modified hw hr id) And.right

/-- **Statements** are built one by one. -/
theorem gives_statements : Gives w ks P (Node.Built w ks) (statements rules) := by
  refine passes_eatTerms.andThen fun _ => (gives_current hw).bind fun t => ?_
  refine Gives.bind (Q := fun (r : List Node × Bool) => ∀ n ∈ r.1, n.Built w ks) ?_ fun r => ?_
  · refine .chain (fun (body, more) => .ite .pureNone ((Gives.view _).andThen fun _ =>
      .ite .pureNone ?_)) fun _ => nofun
    exact (gives_statement hw hr).bind fun node => passes_eatTerms.andThen fun _ =>
      .pureSome fun ⟨hb, hn⟩ => List.forall_mem_cons.mpr ⟨hn, hb⟩
  · exact .pure fun ⟨⟨_, ht⟩, h⟩ =>
      Node.built_ofStmts hw ht.1 fun n hn => h n (List.mem_reverse.mp hn)

/-- What a rule gives is well built, if what the rules give is that it comes back to. -/
theorem gives_ofRule {r : Rule} (h : P → r.Stands w.spans) :
    Gives w ks P (Node.Built w ks) (ofRule rules r) := by
  cases r with
  | stmts => exact gives_statements hw hr
  | expr => exact gives_expression hw hr
  | arg => exact gives_assignment hw hr
  | signed => exact gives_signed hw hr
  | unary => exact gives_unary hw hr
  | branch place => exact gives_branches hw hr h

omit hr in
/-- **What is read is well built**, however deeply rules are nested. -/
theorem gives_rule (fuel : Nat) {r : Rule} (h : P → r.Stands w.spans) :
    Gives w ks P (Node.Built w ks) (rule fuel r) := by
  induction fuel generalizing r ks P with
  | zero => exact .exhaust
  | succ fuel ih => exact gives_ofRule hw (fun _ h => ih h) h

omit hr in
/-- A whole program is built. -/
theorem gives_program (fuel : Nat) : Gives w ks P (Node.Built w ks) (program fuel) :=
  (gives_rule hw fuel (r := .stmts) fun _ => trivial).bind fun _ => (gives_ahead hw).bind fun _ =>
    .ite (.pure fun known => known.1.2) (.failAt fun known => known.2.1)

end Parser

/-! ### Programs -/

/-- **A program that has been read is well built**, and where none could be read, the error is told
where it should be.  The names are those that are known in the end, or later. -/
theorem built_parseTokens {w : Setting} (hw : w.Closed) {tokens : List Token}
    (h : ∀ t ∈ tokens, w.Has t) {names : NameTable} {locals : List NameId}
    (hn : (parseTokens tokens names locals).state.names.Extends w.names) :
    match parseTokens tokens names locals with
    | .done node _ => node.Built w [.top]
    | .failed e _ => w.spans e.span
    | .halted _ => True := by
  have whole : Parser.Gives w [.top] True (Node.Built w [.top]) _ :=
    Parser.gives_program hw (tokens.length + 1)
  have came := whole ⟨tokens, ⟨0, 0⟩, names, [⟨.top, locals⟩]⟩ ⟨h, hw.default, rfl⟩
  unfold parseTokens at hn ⊢
  revert came hn
  cases Parser.program (tokens.length + 1) ⟨tokens, ⟨0, 0⟩, names, [⟨.top, locals⟩]⟩ with
  | done node c =>
      rintro last ⟨-, -, given⟩
      exact given last trivial
  | failed e c =>
      rintro last ⟨-, told⟩
      exact told last trivial
  | halted c => exact fun _ _ => trivial

/-- **Spans of what has been read.**  The nodes of a program stand where its tokens do, and so does
the error where none could be read. -/
theorem gave_parseTokens {S : Span → Prop} (hS : Span.Closed S) {tokens : List Token}
    (h : ∀ t ∈ tokens, S t.span) (names : NameTable) (locals : List NameId) :
    match parseTokens tokens names locals with
    | .done node _ => node.WellBuilt S
    | .failed e _ => S e.span
    | .halted _ => True := by
  -- Which tokens there are does not matter here.
  let w : Setting := ⟨S, fun _ => True, (parseTokens tokens names locals).state.names⟩
  have closed : w.Closed := ⟨hS, trivial⟩
  have built := built_parseTokens closed (fun t ht => ⟨h t ht, trivial⟩) (.refl _)
  revert built
  cases parseTokens tokens names locals with
  | done node c => exact Node.Built.wellBuilt
  | failed e c => exact id
  | halted c => exact id

/-- **The tree of a text that has been read** is well built, and its names come from the tokens of
the text. -/
theorem built_of_parse (kinds : TokenKind → Prop) {path text : String} {node : Node}
    {m m' : Machine} {names : NameTable} (h : Session.parse path text m = .done node m')
    (eof : kinds .eof)
    (hk : ∀ tokens, tokenize text.toList = .ok tokens → ∀ t ∈ tokens, kinds t.kind)
    (grown : m'.names.Extends names) : node.Built ⟨fun _ => True, kinds, names⟩ [.top] := by
  obtain ⟨tokens, c, ht, hp, rfl⟩ := Session.parse_eq_done.mp h
  -- Where the nodes stand does not matter here.
  let w : Setting := ⟨fun _ => True, kinds, names⟩
  have closed : w.Closed := ⟨⟨trivial, fun _ _ => trivial⟩, eof⟩
  have built := @built_parseTokens w closed tokens (fun t mem => ⟨trivial, hk tokens ht t mem⟩)
    m.names (m.frames.names .top) (by rw [hp]; exact grown)
  rwa [hp] at built

/-- Whether all assignments of a tree are to something that can be assigned to. -/
abbrev Node.WellAimed (n : Node) : Prop := n.All Node.AimsWell

/-- **The assignments of a program that has been read** are to what can be assigned to, and reading
it leaves all of the machine alone but the names and the text that was read last. -/
theorem wellAimed_of_parse {path text : String} {node : Node} {m m' : Machine}
    (h : Session.parse path text m = .done node m') :
    node.WellAimed ∧ ∃ names source?, m' = { m with names := names, source? := source? } := by
  have built := built_of_parse (fun _ => True) h trivial (fun _ _ _ _ => trivial) (.refl _)
  obtain ⟨tokens, c, -, -, rfl⟩ := Session.parse_eq_done.mp h
  exact ⟨fun k hk => (built k hk).inOrder.1, c.names, _, rfl⟩

end MiniRuby
