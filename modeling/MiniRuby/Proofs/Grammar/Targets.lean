import MiniRuby.Proofs.Evaluator.Program
import MiniRuby.Proofs.Grammar.Built
import MiniRuby.Proofs.Token.Written

/-!
# What is assigned to

On the left side of an assignment stands an operation, which may be any expression that binds more
tightly than the assignment.  Once it has been read, it is checked by its shape: a call on a
receiver passes if it has no arguments or if it is an index operation.  An attribute is such a call,
and so is an operand with a minus sign before it, and the call of an operator by its name.  The
check does not tell them apart, so `-x = 5` is a program.

* `words_of_tokenize`: a token that is a name begins like one, but for the operator `-@`.
* `parse_targets`: what the assignments of a program are to, and where they are.
-/

namespace MiniRuby

/-! ### Spellings -/

/-- Whether a text begins with a letter or an underscore. -/
def IsWord (s : String) : Prop := Lexer.startsName s.toList = true

/-- Whether a text is the name that an operator is called by. -/
def IsOperator (s : String) : Prop := s = "-@" ∨ ∃ p : Punct, p.method? = some s

instance (s : String) : Decidable (IsWord s) := inferInstanceAs (Decidable (_ = true))

theorem Keyword.isWord_text (k : Keyword) : IsWord k.text := by
  cases k <;> decide

theorem Word.isWord_text (w : Word) : IsWord w.text := by
  simpa [IsWord, Word.text, Word.chars, Lexer.startsName] using w.isNameStart

/-- Whether a token, if it is a name, begins like one or is the name of the minus sign. -/
def TokenKind.Worded (k : TokenKind) : Prop :=
  ∀ s, k = .ident s ∨ k = .const s → IsWord s ∨ s = "-@"

/-- A token that is a name begins like one, unless it is the name of the minus sign. -/
theorem words_of_tokenize {text : List Char} {tokens : List Token}
    (h : tokenize text = .ok tokens) : ∀ t ∈ tokens, t.kind.Worded := by
  intro t ht s hs
  rcases chars_of_tokenize h t ht with
    ⟨written, -⟩ | ⟨hk, -⟩ | ⟨x, hk⟩ | ⟨v, -, hk⟩ | ⟨text, hk⟩ | hk
  · generalize t.kind = kind at written hs
    rcases hs with rfl | rfl
    · cases written with
      | ident w => exact .inl w.isWord_text
      | minusName => exact .inr rfl
    · cases written with
      | const w => exact .inl w.isWord_text
  all_goals simp [hk] at hs

/-! ### Programs -/

/-- A word that methods are called by is one, or it names an operator. -/
theorem Setting.Word.isWord_or {w : Setting} {s : String} (h : ∀ k, w.kinds k → k.Worded)
    (word : w.Word s) : IsWord s ∨ IsOperator s := by
  cases word with
  | ident hk => exact (h _ hk s (.inl rfl)).imp_right .inl
  | const hk => exact (h _ hk s (.inr rfl)).imp_right .inl
  | keyword k => exact .inl k.isWord_text
  | operator hm => exact .inr (.inr ⟨_, hm⟩)

namespace Node

/-- Whether a node is a local variable, an instance variable, a constant, an index operation, or an
attribute, that is, a call on a receiver without arguments of a method that is named by a word. -/
def IsTarget (names : NameTable) : Node → Prop
  | ident _ _ | instanceVar _ _ | const _ _ => True
  | send _ (some _) name args =>
    name = NameId.subscript ∨ args = [] ∧ IsWord (names.text name)
  | _ => False

/-- Whether a node is a call on a receiver without arguments of an operator. -/
def IsOperation (names : NameTable) : Node → Prop
  | send _ (some _) name [] =>
    name = NameId.subscriptAssign ∨ name = NameId.minus ∨ IsOperator (names.text name)
  | _ => False

/-- What passes the check is a target, or it calls an operator without arguments. -/
theorem Accepted.isTarget_or {w : Setting} {m : Bool} {target : Node} (h : target.Accepted m)
    (named : target.Named w) (worded : ∀ k, w.kinds k → k.Worded) :
    target.IsTarget w.names ∨ target.IsOperation w.names := by
  cases target with
  | ident | instanceVar | const => exact .inl trivial
  | send s receiver? name args =>
      cases receiver? with
      | none => exact h.elim
      | some receiver =>
          obtain rfl | rfl := h
          · rcases named with (rfl | rfl | rfl) | called
            · exact .inl (.inl rfl)
            · exact .inr (.inl rfl)
            · exact .inr (.inr (.inl rfl))
            · rcases called.spelled.isWord_or worded with word | operator
              · exact .inl (.inr ⟨rfl, word⟩)
              · exact .inr (.inr (.inr operator))
          · exact .inl (.inl rfl)
  | _ => exact h.elim

end Node

/-- **What is assigned to.**  All assignments of a program are to targets, except for those that are
to the call of an operator without arguments; and no method's definition has assignments to
constants in it. -/
theorem parse_targets {path text : String} {node : Node} {m m' : Machine}
    (h : Session.parse path text m = .done node m') :
    (∀ s target value, .assign s target value ∈ node.preorder →
      target.IsTarget m'.names ∨ target.IsOperation m'.names) ∧
    node.All Node.DefinesWell := by
  have eof : TokenKind.eof.Worded := by simp [TokenKind.Worded]
  have built := built_of_parse TokenKind.Worded h eof (fun tokens ht => words_of_tokenize ht)
    (.refl _)
  refine ⟨fun s target value hmem => ?_, fun k hk => (built k hk).defines⟩
  have aims : target.Accepted _ ∧ target.Named _ := (built _ hmem).aims
  have isTarget := aims.1.isTarget_or aims.2 fun _ => id
  exact isTarget

/-- The name of the call without arguments that the only statement of a program assigns to. -/
def Node.assignedCall? : Node → Option NameId
  | .stmts _ [.assign _ (.send _ (some _) name []) _] => some name
  | _ => none

theorem Node.exists_of_assignedCall? {node : Node} {name : NameId}
    (h : node.assignedCall? = some name) : ∃ s place receiver value,
      .assign s (.send place (some receiver) name []) value ∈ node.preorder := by
  unfold assignedCall? at h
  split at h
  · cases h
    exact ⟨_, _, _, _, .tail _ (.head _)⟩
  · cases h

/-- A minus sign before the variable that is assigned to. -/
theorem parse_targets_minus : ∃ node m',
    Session.parse "" "-x = 5" (.bare (.collecting "")) = .done node m' ∧
    (∀ s target value, .assign s target value ∈ node.preorder →
      target.IsTarget m'.names ∨ target.IsOperation m'.names) ∧
    node.All Node.DefinesWell ∧
    ∃ s target value, .assign s target value ∈ node.preorder ∧ ¬ target.IsTarget m'.names := by
  have reads : (Session.parse "" "-x = 5" (.bare (.collecting ""))).DoneWith fun node m' =>
      ∃ name ∈ node.assignedCall?, name ≠ .subscript ∧ ¬ IsWord (m'.names.text name) := by
    decide +kernel
  obtain ⟨node, m', hp, name, h, index, word⟩ := reads.exists_eq
  obtain ⟨targets, defines⟩ := parse_targets hp
  obtain ⟨s, place, receiver, value, mem⟩ := Node.exists_of_assignedCall? h
  refine ⟨node, m', hp, targets, defines, s, _, value, mem, ?_⟩
  rintro (rfl | ⟨-, named⟩)
  · exact index rfl
  · exact word named

end MiniRuby
