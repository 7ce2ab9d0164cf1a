import MiniRuby.Proofs.Grammar.Built
import MiniRuby.Proofs.Syntax.ReadBack
import MiniRuby.Proofs.Token.Written

/-!
# How the names of a program are spelled

The names in a tree come from tokens (`Node.Named`).  So the names of variables begin with small
letters and are not reserved, those of constants begin with capitals, and none has a blank, a
parenthesis or a quote in it.  Numbers are those that have been read, perhaps with a sign.

* `Node.Named.spelled`: names that come from tokens are spelled like this.
* `legible_of_parse`: so are those in a program that has been read.
-/

namespace MiniRuby

/-! ### Tokens -/

/-- Whether a token, if it is a name or a decimal, is one that can be read. -/
def TokenKind.Spelled : TokenKind → Prop
  | ident s => Sexp.IsVariable s
  | const s => Sexp.IsWordOf .const s
  | instanceVar s => Sexp.IsWordOf .instanceVar s
  | symbol s => Sexp.IsWord s
  | float x => x.isNaN = false
  | _ => True

namespace Sexp

theorem isWord_keyword (k : Keyword) : IsWord k.text := by
  cases k <;> decide

theorem isWord_method {p : Punct} {name : String} (h : p.method? = some name) : IsWord name := by
  cases p <;> cases h <;> decide

theorem IsWord.setter {w : String} (h : IsWord w) : IsWord (w ++ "=") := by
  refine ⟨by simp, fun c mem => ?_⟩
  rw [String.toList_append] at mem
  rcases List.mem_append.mp mem with mem | mem
  · exact h.2 c mem
  · exact List.mem_singleton.mp mem ▸ rfl

end Sexp

/-! ### Nodes -/

/-- Whether all names and numbers of a tree are spelled like those in programs. -/
abbrev Node.Legible (t : NameTable) (n : Node) : Prop := n.All (Node.Spelled t)

namespace Setting

variable {w : Setting} (sound : w.names.Sound) (spelled : ∀ k, w.kinds k → k.Spelled)

include spelled

theorem Word.isWord {s : String} (h : w.Word s) : Sexp.IsWord s := by
  cases h with
  | ident hk => exact Sexp.IsVariable.isWord (spelled _ hk)
  | const hk => exact (spelled _ hk).1
  | keyword k => exact Sexp.isWord_keyword k
  | operator hm => exact Sexp.isWord_method hm

theorem Reads.isWord {name : NameId} (h : w.Reads .ident name) :
    w.names.Spells Sexp.IsWord name :=
  h.mono fun _ hk => Sexp.IsVariable.isWord (spelled _ hk)

include sound

/-- The names of index operations and of the minus sign are words, too. -/
theorem Calls.isWord {name : NameId} (h : w.Calls name) : w.names.Spells Sexp.IsWord name := by
  rcases h with first | word
  · have known : NameTable.initial.Has name ∧ Sexp.IsWord (NameTable.initial.text name) := by
      rcases first with rfl | rfl | rfl <;> decide
    exact ⟨sound.first.has known.1, (sound.first.text_eq name known.1).symm ▸ known.2⟩
  · exact word.mono fun _ => Word.isWord spelled

theorem Defines.isWord {name : NameId} (h : w.Defines name) :
    w.names.Spells Sexp.IsWord name := by
  rcases h with calls | setter
  · exact calls.isWord sound spelled
  · refine setter.mono ?_
    rintro _ ⟨word, h, rfl⟩
    exact (h.isWord spelled).setter

end Setting

/-- **A node whose names come from tokens** is spelled like one in a program, if the tokens are. -/
theorem Node.Named.spelled {w : Setting} (sound : w.names.Sound)
    (spelled : ∀ k, w.kinds k → k.Spelled) {n : Node} (h : n.Named w) : n.Spelled w.names := by
  cases n with
  | float s x =>
      rcases h with hk | ⟨y, hk, rfl⟩
      · exact spelled _ hk
      -- A sign does not make a number anything else.
      · exact Decimal.isNaN_neg (spelled _ hk)
  | symbol s name => exact h.mono fun _ => spelled _
  | ident s name => exact h.mono fun _ => spelled _
  | instanceVar s name => exact h.mono fun _ => spelled _
  | const s name => exact h.mono fun _ => spelled _
  | classDef s name => exact h.mono fun _ hk => (spelled _ hk).1
  | send s receiver? name => exact Setting.Calls.isWord sound spelled h
  | guarded s body rescues => exact fun r hr name e => (h r hr name e).isWord spelled
  | methodDef s name | singletonDef s target name =>
      exact ⟨h.1.isWord sound spelled, fun p hp => (h.2 p hp).isWord spelled⟩
  | _ => trivial

/-! ### Programs -/

namespace Lexer

variable {pos n : Nat} {rest : List Char}

/-- A decimal that is read is a number, or infinite. -/
theorem isNaN_of_scan {c : Char} {x : Float} (h : scan pos c rest = .ok (.float x, n)) :
    x.isNaN = false := by
  have word (w : String) : wordKind c w ≠ .float x := by
    unfold wordKind
    split
    · exact nofun
    · split <;> exact nofun
  unfold scan at h
  split at h
  · exact (word _ (congrArg Prod.fst (Except.ok.inj h))).elim
  split at h
  · unfold scanNumber at h
    dsimp only at h
    split at h
    · split at h
      · rename_i y read
        cases h
        rw [Decimal.read?_eq, Option.map_eq_some_iff] at read
        obtain ⟨d, -, rfl⟩ := read
        exact Decimal.isNaN_toFloat _ _
      · cases h
    · split at h <;> cases h
  split at h
  · obtain ⟨tail, -, hk, -⟩ := scanString_ok h
    cases hk
  split at h
  · obtain ⟨tail, -, hk, -⟩ := scanString_ok h
    cases hk
  split at h
  · split at h <;> cases h
  split at h
  · obtain ⟨name, -, hk, -⟩ := scanSymbol_ok h
    cases hk
  split at h
  · cases h
  split at h <;> cases h

end Lexer

namespace Sexp

theorem isMark_nameChar {c : Char} (h : Lexer.isNameChar c = true) : isMark c = false :=
  isMark_eq_false h (by decide)

theorem isWord_ofList {cs : List Char} (h : cs ≠ [] ∧ ∀ c ∈ cs, isMark c = false) :
    IsWord (String.ofList cs) := by
  refine ⟨fun none => h.1 ?_, fun c mem => h.2 c (by simpa using mem)⟩
  simpa using congrArg String.toList none

theorem isMark_word (w : Word) : w.chars ≠ [] ∧ ∀ c ∈ w.chars, isMark c = false := by
  refine ⟨List.cons_ne_nil _ _, fun c mem => ?_⟩
  rcases List.mem_cons.mp mem with rfl | mem
  · exact isMark_nameChar (Lexer.isNameChar_of_start w.isNameStart)
  · rcases List.mem_append.mp mem with mem | mem
    · exact isMark_nameChar (w.isNameChar c mem)
    · rcases w.isMark with e | e | e <;> rw [e] at mem
      · cases mem
      · exact List.mem_singleton.mp mem ▸ rfl
      · exact List.mem_singleton.mp mem ▸ rfl

theorem isWord_word (w : Word) : IsWord w.text := isWord_ofList (isMark_word w)

theorem wordKind_word (w : Word) :
    wordKind w.text = if w.first.isUpper then .const else smallKind w.text :=
  wordKind_letter String.toList_ofList w.isNameStart

theorem isMark_variable {name : List Char} (h : IsVariableName name) :
    name ≠ [] ∧ ∀ c ∈ name, isMark c = false := by
  obtain ⟨w, -⟩ := h
  exact isMark_word w

/-- What a symbol names is a word. -/
theorem isMark_named {name : List Char} (h : IsNamed name) :
    name ≠ [] ∧ ∀ c ∈ name, isMark c = false := by
  cases h with
  | method w => exact isMark_word w
  | setter h =>
      refine ⟨by simp, fun c mem => ?_⟩
      rcases List.mem_append.mp mem with mem | mem
      · exact (isMark_variable h).2 c mem
      · exact List.mem_singleton.mp mem ▸ rfl
  | instanceVar h =>
      exact ⟨List.cons_ne_nil _ _, List.forall_mem_cons.mpr ⟨rfl, (isMark_variable h).2⟩⟩
  | operator h =>
      have all : Lexer.symbolOperators.all
          (fun op => !op.isEmpty && op.all fun c => !isMark c) = true := by decide
      simpa using List.all_eq_true.mp all name h

/-- The name of a variable is told from all that is written in small letters, but for a number. -/
theorem isVariable_word (w : Word) (small : w.first.isUpper = false)
    (free : ∀ k : Keyword, k.text ≠ w.text) : IsVariable w.text := by
  by_cases inf : w.text = "inf"
  · exact .inl inf
  · have other (k : Keyword) (s : String) (hs : k.text = s) : w.text ≠ s := hs ▸ (free k).symm
    refine .inr ⟨isWord_word w, ?_⟩
    rw [wordKind_word, if_neg (by simp [small]), smallKind,
      if_neg (other .kSelf "self" rfl),
      if_neg (other .kNil "nil" rfl), if_neg (other .kTrue "true" rfl),
      if_neg (other .kFalse "false" rfl),
      if_neg inf]

end Sexp

/-- **What a token is spelled like** if it is a name or a decimal. -/
theorem spelled_of_tokenize {text : List Char} {tokens : List Token}
    (h : tokenize text = .ok tokens) : ∀ k ∈ tokens, k.kind.Spelled := by
  intro k hk
  rcases chars_of_tokenize h k hk with
    ⟨written, -⟩ | ⟨hk, -⟩ | ⟨x, hx⟩ | ⟨v, -, hk⟩ | ⟨text, hk⟩ | hk
  · generalize k.kind = kind at written
    cases written with
    | ident w small free => exact Sexp.isVariable_word w small free
    | minusName => exact .inr ⟨by decide, by decide⟩
    | const w capital =>
        refine ⟨Sexp.isWord_word w, ?_⟩
        rw [Sexp.wordKind_word, if_pos capital]
    | instanceVar name =>
        exact ⟨Sexp.isWord_ofList (Sexp.isMark_named (.instanceVar name)),
          Sexp.wordKind_instanceVar String.toList_ofList⟩
    | symbol name => exact Sexp.isWord_ofList (Sexp.isMark_named name)
    | num | str | keyword | punct => trivial
  · exact hk ▸ trivial
  · rcases (Lexer.reads_of_eq h).origin rfl k hk with e | ⟨e, -⟩ | ⟨pos, c, rest, n, hs, -⟩
    · exact e ▸ trivial
    · exact e ▸ trivial
    · rw [hx] at hs ⊢
      exact Lexer.isNaN_of_scan hs
  · exact hk ▸ trivial
  · exact hk ▸ trivial
  · exact hk ▸ trivial

/-- **The names in a program that has been read** are spelled like those in programs. -/
theorem legible_of_parse {path text : String} {node : Node} {m m' : Machine} {t : NameTable}
    (sound : t.Sound) (h : Session.parse path text m = .done node m') (grown : m'.names.Extends t) :
    node.Legible t := by
  have built := built_of_parse TokenKind.Spelled h trivial
    (fun tokens ht => spelled_of_tokenize ht) grown
  exact fun k hk => (built k hk).named.spelled sound fun _ => id

end MiniRuby
