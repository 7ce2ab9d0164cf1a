import MiniRuby.Proofs.Syntax.All
import MiniRuby.Proofs.Syntax.Gist
import MiniRuby.Proofs.Decimal.Written
import MiniRuby.Proofs.Accessors
import MiniRuby.Proofs.IntegerText

/-!
# Trees are read back from their s-expressions

A head tells which construct a list stands for, and the first characters of a word tell which leaf
it stands for, if names are spelled as those in programs are (`Node.Spelled`).  An s-expression is
read as all that it can stand for, a node, a parameter, or a list of either (`Sexp.reading`), and
its place in the list around it tells which one it is.

* `Sexp.node_toSexp`: what is read back from the s-expression of a tree is the gist of the tree.
* `Node.render_eq_iff`: trees are printed alike just if they have the same gist.
-/

namespace MiniRuby

/-! ### Reading back -/

namespace Sexp

/-- What a word is, by its first characters. -/
inductive WordKind where
  | self
  | nil
  | bool (b : Bool)
  | number
  | symbol
  | instanceVar
  | const
  | ident
  deriving DecidableEq

/-- What a word of small letters is. -/
def smallKind (w : String) : WordKind :=
  if w = "self" then .self
  else if w = "nil" then .nil
  else if w = "true" then .bool true
  else if w = "false" then .bool false
  else if w = "inf" then .number
  else .ident

def wordKind (w : String) : WordKind :=
  match w.toList with
  | [] => .ident
  | c :: rest =>
    if c = ':' then .symbol
    else if c = '@' then .instanceVar
    else if c = '-' then if rest = ['@'] then .ident else .number
    else if c.isDigit then .number
    else if c.isUpper then .const
    else smallKind w

/-- The first character tells what kind of word it is. -/
theorem wordKind_cons {w : String} {c : Char} {rest : List Char} (h : w.toList = c :: rest) :
    wordKind w = if c = ':' then .symbol
      else if c = '@' then .instanceVar
      else if c = '-' then if rest = ['@'] then .ident else .number
      else if c.isDigit then .number
      else if c.isUpper then .const
      else smallKind w := by
  rw [wordKind, h]

theorem wordKind_symbol (name : String) : wordKind (":" ++ name) = .symbol := by
  have begins : (":" ++ name).toList = ':' :: name.toList := by simp
  rw [wordKind_cons begins, if_pos rfl]

theorem wordKind_instanceVar {w : String} {rest : List Char} (h : w.toList = '@' :: rest) :
    wordKind w = .instanceVar := by
  rw [wordKind_cons h, if_neg (by decide), if_pos rfl]

theorem wordKind_minus {w : String} {rest : List Char} (h : w.toList = '-' :: rest)
    (other : rest ≠ ['@']) : wordKind w = .number := by
  rw [wordKind_cons h, if_neg (by decide), if_neg (by decide), if_pos rfl, if_neg other]

/-- A character of names, and so none of the marks. -/
theorem mark_ne {c : Char} (h : c.isAlphanum = true ∨ c = '_') : c ≠ ':' ∧ c ≠ '@' ∧ c ≠ '-' := by
  refine ⟨?_, ?_, ?_⟩ <;> rintro rfl <;> revert h <;> decide

theorem wordKind_digit {w : String} {c : Char} {rest : List Char} (h : w.toList = c :: rest)
    (digit : c.isDigit = true) : wordKind w = .number := by
  obtain ⟨colon, sign, minus⟩ := mark_ne (c := c) (by simp [Char.isAlphanum, digit])
  rw [wordKind_cons h, if_neg colon, if_neg sign, if_neg minus, if_pos digit]

/-- A word that starts with a letter is a constant or one of the small words. -/
theorem wordKind_letter {w : String} {c : Char} {rest : List Char} (h : w.toList = c :: rest)
    (letter : Lexer.isNameStart c = true) :
    wordKind w = if c.isUpper then .const else smallKind w := by
  have alpha : c.isAlpha = true ∨ c = '_' := by simpa [Lexer.isNameStart] using letter
  obtain ⟨colon, sign, minus⟩ := mark_ne (alpha.imp_left fun a => by simp [Char.isAlphanum, a])
  have digit : ¬ c.isDigit = true := fun digit => by
    rw [Lexer.isNameStart_digit digit] at letter
    cases letter
  rw [wordKind_cons h, if_neg colon, if_neg sign, if_neg minus, if_neg digit]

/-! ### Numbers -/

/-- A figure of a number is no bracket and no blank. -/
theorem isMark_figure {c : Char} (h : Decimal.isFigure c = true) : isMark c = false :=
  isMark_eq_false h (by decide)

/-- A number is one word. -/
theorem isWord_figures {w : String} {c : Char} {rest : List Char} (h : w.toList = c :: rest)
    (figures : ∀ c ∈ w.toList, Decimal.isFigure c = true) : IsWord w := by
  refine ⟨?_, fun c mem => isMark_figure (figures c mem)⟩
  rintro rfl
  cases h

/-- Whether a text is made up of what integers are. -/
def isInteger (w : String) : Bool := w.toList.all fun c => c.isDigit || c = '-'

/-- **An integer** is written as one word, which is read as an integer. -/
theorem isWord_integer (n : Int64) : IsWord (Integer.text n) ∧
    wordKind (Integer.text n) = .number ∧ isInteger (Integer.text n) = true := by
  have digits := Decimal.allDigits_toDigits
  have begins (k : Nat) : ∃ d more, Nat.toDigits 10 k = d :: more ∧ d.isDigit = true := by
    obtain ⟨d, more, h⟩ := List.exists_cons_of_ne_nil (@Nat.toDigits_ne_nil k 10)
    exact ⟨d, more, h, digits k d (by rw [h]; exact .head _)⟩
  rw [Integer.text, Int.toString_eq_repr, Int.repr_eq_if]
  split
  · obtain ⟨d, more, h, digit⟩ := begins n.toInt.toNat
    have text : (n.toInt.toNat.repr).toList = Nat.toDigits 10 n.toInt.toNat := Nat.toList_repr
    refine ⟨isWord_figures (text.trans h) ?_, wordKind_digit (text.trans h) digit, ?_⟩
    · rw [text]
      exact (digits _).isFigure
    · simp only [isInteger, text, List.all_eq_true, Bool.or_eq_true]
      exact fun c mem => .inl (digits _ c mem)
  · obtain ⟨d, more, h, digit⟩ := begins (-n.toInt).toNat
    have text : ("-" ++ (-n.toInt).toNat.repr).toList =
        '-' :: Nat.toDigits 10 (-n.toInt).toNat := by
      rw [String.toList_append, Nat.toList_repr]
      rfl
    refine ⟨isWord_figures text ?_, wordKind_minus text ?_, ?_⟩
    · rw [text]
      exact List.forall_mem_cons.mpr ⟨rfl, (digits _).isFigure⟩
    · rw [h]
      rintro ⟨⟩
      cases digit
    · rw [isInteger, text, List.all_cons]
      exact Bool.and_eq_true_iff.mpr ⟨rfl, List.all_eq_true.mpr fun c mem => by
        simp [digits _ c mem]⟩

/-- The text of a number, infinite or not. -/
theorem isWord_float {x : Float} (number : x.isNaN = false) :
    IsWord (Decimal.write .listing x) ∧ wordKind (Decimal.write .listing x) = .number ∧
    isInteger (Decimal.write .listing x) = false := by
  rw [Decimal.write_number _ number]
  cases inf : x.isInf with
  | true =>
      rw [Decimal.magnitude, if_pos inf]
      split_ifs <;> decide
  | false =>
      obtain ⟨⟨d, more, begins, digit⟩, figures, c, mem, mark⟩ :=
        Decimal.magnitude_figures .listing inf
      have broken : (c.isDigit || c = '-') = false := by rcases mark with rfl | rfl <;> rfl
      split_ifs with negative
      · have text : ("-" ++ Decimal.magnitude .listing x).toList = '-' :: d :: more := by
          simp [begins]
        refine ⟨isWord_figures text ?_, wordKind_minus text ?_, ?_⟩
        · rw [text, ← begins]
          exact List.forall_mem_cons.mpr ⟨rfl, figures⟩
        · rintro ⟨⟩
          cases digit
        · rw [isInteger, List.all_eq_false]
          exact ⟨c, by rw [text, ← begins]; exact .tail _ mem, by simp [broken]⟩
      · have text : ("" ++ Decimal.magnitude .listing x) = Decimal.magnitude .listing x := by simp
        rw [text]
        refine ⟨isWord_figures begins figures, wordKind_digit begins digit, ?_⟩
        rw [isInteger, List.all_eq_false]
        exact ⟨c, mem, by simp [broken]⟩

/-- The number that a word is the text of. -/
noncomputable def number (w : String) : Node :=
  if isInteger w then
    .int default (Int64.ofInt (Integer.leading w.toList))
  else .float default (Function.invFun (Decimal.write .listing) w)

/-- The position of a name. -/
def place (t : NameTable) (name : String) : NameId := (t.find? name).getD default

/-- The leaf that a word stands for. -/
noncomputable def leaf (t : NameTable) (w : String) : Node :=
  match wordKind w with
  | .self => .self default
  | .nil => .nil default
  | .bool b => .bool default b
  | .number => number w
  | .symbol => .symbol default (place t (String.ofList w.toList.tail))
  | .instanceVar => .instanceVar default (place t w)
  | .const => .const default (place t w)
  | .ident => .ident default (place t w)

section

variable {t : NameTable} {x : NameId} {w : String}

/-- An integer is read back. -/
theorem number_integer (n : Int64) : number (Integer.text n) = .int default n := by
  rw [number, if_pos (isWord_integer n).2.2, Integer.leading_text, Int64.ofInt_toInt]

/-- A float that is a number is read back from the shortest text. -/
theorem number_float {x : Float} (h : x.isNaN = false) :
    number (Decimal.write .listing x) = .float default x := by
  have inverse :=
    Function.leftInverse_invFun (Decimal.write_injective Decimal.tellsInfinity_listing)
  rw [number, if_neg (by rw [(isWord_float h).2.2]; decide), inverse x]

/-- The text of a name is found in the table under that name. -/
theorem place_text (sound : t.Sound) (has : t.Has x) : place t (t.text x) = x := by
  rw [place, sound.find?_of_text has]
  rfl

/-- A word that is a number is read as one. -/
theorem leaf_number (h : wordKind w = .number) : leaf t w = number w := by rw [leaf, h]

/-- The constant that stands for infinity is a number. -/
theorem isNaN_infinity : Node.infinity.isNaN = false := Decimal.isNaN_toFloat 1 400

/-- A symbol is read back from its word. -/
theorem leaf_symbol (sound : t.Sound) (has : t.Has x) :
    leaf t (":" ++ t.text x) = .symbol default x := by
  have name : (":" ++ t.text x).toList.tail = (t.text x).toList := by simp
  rw [leaf, wordKind_symbol, name, String.ofList_toList]
  exact congrArg _ (place_text sound has)

end

/-- All that an s-expression can stand for. -/
structure Reading where
  /-- The word that it is, or that is at its head. -/
  word : String
  node : Node
  nodes : List Node
  param : Param Node
  params : List (Param Node)
  clause : RescueClause Node

instance : Inhabited Reading :=
  ⟨⟨"", default, [], ⟨default, none⟩, [], ⟨[], none, default⟩⟩⟩

namespace Reading

variable (t : NameTable)

/-- A rescue clause, given what comes after its head. -/
def toClause : List Reading → RescueClause Node
  | [classes, body] => ⟨classes.nodes, none, body.node⟩
  | [classes, binder, body] => ⟨classes.nodes, some (place t binder.word), body.node⟩
  | _ => ⟨[], none, default⟩

/-- The clauses of a guarded body with a certain head. -/
def headed (head : String) (parts : List Reading) : List Reading :=
  parts.filter (·.word = head)

/-- The statements of the clause that is there, or none. -/
def statements : List Reading → Node
  | clause :: _ => clause.nodes.getD 1 default
  | [] => .nop default

/-- The parent of a class, where `nil` stands for none. -/
def parent? : Node → Option Node
  | .nil _ => none
  | a => some a

/-- The construct of a certain head. -/
def construct (head : String) (parts : List Reading) : Node :=
  let part (i : Nat) : Reading := parts.getD i default
  let node (i : Nat) : Node := (part i).node
  let name (i : Nat) : NameId := place t (part i).word
  match head with
  | "array" => .array default (parts.map (·.node))
  | "=" => .assign default (node 0) (node 1)
  | "&&" => .and default (node 0) (node 1)
  | "||" => .or default (node 0) (node 1)
  | "!" => .not default (node 0)
  | "stmts" => .stmts default (parts.map (·.node))
  | "if" => .cond default (node 0) (node 1) (node 2)
  | "while" => .loop default (node 0) (node 1)
  | "begin" =>
    .guarded default (node 0) ((headed "rescue" parts.tail).map (·.clause))
      (statements (headed "else" parts.tail)) (statements (headed "ensure" parts.tail))
  | "break" => .breakWith default (node 0)
  | "next" => .nextWith default (node 0)
  | "return" => .returnWith default (node 0)
  | "def" => .methodDef default (name 0) (part 1).params (node 2)
  | "defs" => .singletonDef default (node 0) (name 1) (part 2).params (node 3)
  | "class" => .classDef default (name 0) (parent? (node 1)) (node 2)
  | "call" => .send default none (name 0) (parts.tail.map (·.node))
  | "send" => .send default (some (node 0)) (name 1) (parts.tail.tail.map (·.node))
  | _ => default

noncomputable def ofWord (w : String) : Reading :=
  { (default : Reading) with word := w, node := leaf t w, param := ⟨place t w, none⟩ }

def ofQuoted (s : String) : Reading := { (default : Reading) with node := .str default s }

def ofList : List Reading → Reading
  | [] => default
  | head :: parts =>
    { word := head.word
      node := construct t head.word parts
      nodes := (head :: parts).map (·.node)
      param := ⟨place t head.word, parts.head?.map (·.node)⟩
      params := (head :: parts).map (·.param)
      clause := toClause t parts }

/-- Readings that start with one word are those with that head, or there are none. -/
theorem headed_of_words {w head : String} {rs : List Reading} (h : ∀ r ∈ rs, r.word = w) :
    headed head rs = if w = head then rs else [] := by
  split
  · rename_i same
    exact List.filter_eq_self.mpr fun r mem => by simp [h r mem, same]
  · rename_i other
    exact List.filter_eq_nil_iff.mpr fun r mem => by simp [h r mem, other]

/-- The clauses of a guarded body are told apart by their heads. -/
theorem headed_append {rs es cs : List Reading} (hr : ∀ r ∈ rs, r.word = "rescue")
    (he : ∀ r ∈ es, r.word = "else") (hc : ∀ r ∈ cs, r.word = "ensure") :
    headed "rescue" (rs ++ es ++ cs) = rs ∧ headed "else" (rs ++ es ++ cs) = es ∧
      headed "ensure" (rs ++ es ++ cs) = cs := by
  have append (head : String) : headed head (rs ++ es ++ cs) =
      headed head rs ++ headed head es ++ headed head cs := by
    simp only [headed, List.filter_append]
  simp only [append, headed_of_words hr, headed_of_words he, headed_of_words hc]
  simp

/-- A list is read node by node. -/
theorem nodes_ofList (rs : List Reading) : (ofList t rs).nodes = rs.map (·.node) := by
  cases rs <;> rfl

/-- A list of parameters is read parameter by parameter. -/
theorem params_ofList (rs : List Reading) : (ofList t rs).params = rs.map (·.param) := by
  cases rs <;> rfl

end Reading

mutual

/-- What an s-expression can stand for. -/
noncomputable def reading (t : NameTable) : Sexp → Reading
  | word w => .ofWord t w
  | quoted s => .ofQuoted s
  | list items => .ofList t (readings t items)

noncomputable def readings (t : NameTable) : List Sexp → List Reading
  | [] => []
  | x :: xs => reading t x :: readings t xs

end

variable (t : NameTable)

/-- Expressions in a row are read one after the other. -/
theorem readings_append (xs ys : List Sexp) :
    readings t (xs ++ ys) = readings t xs ++ readings t ys := by
  induction xs with
  | nil => rfl
  | cons x xs ih => rw [List.cons_append, readings, readings, ih, List.cons_append]

end Sexp

/-! ### Spelling -/

/-- Whether a text is a word of a kind. -/
def Sexp.IsWordOf (k : Sexp.WordKind) (w : String) : Prop := IsWord w ∧ wordKind w = k

/-- Whether a text is a word that a variable may be named by.  All but one are told from numbers. -/
def Sexp.IsVariable (w : String) : Prop := w = "inf" ∨ IsWordOf .ident w

namespace Node

/-- Whether a node has names and numbers like those that are read from texts. -/
def Spelled (t : NameTable) : Node → Prop
  | float _ x => x.isNaN = false
  | symbol _ name | classDef _ name _ _ | send _ _ name _ => t.Spells Sexp.IsWord name
  | ident _ name => t.Spells Sexp.IsVariable name
  | instanceVar _ name => t.Spells (Sexp.IsWordOf .instanceVar) name
  | const _ name => t.Spells (Sexp.IsWordOf .const) name
  | guarded _ _ rescues _ _ =>
    ∀ r ∈ rescues, ∀ name, r.binder? = some name → t.Spells Sexp.IsWord name
  | methodDef _ name params _ | singletonDef _ _ name params _ =>
    t.Spells Sexp.IsWord name ∧ ∀ p ∈ params, t.Spells Sexp.IsWord p.name
  | _ => True

end Node

/-! ### Trees -/

namespace Sexp

open Node

variable {t : NameTable}

section

variable {x : NameId} (sound : t.Sound)

include sound

/-- An instance variable is read back from its word. -/
theorem leaf_instanceVar (h : t.Spells (IsWordOf .instanceVar) x) :
    leaf t (t.text x) = .instanceVar default x := by
  rw [leaf, h.spelled.2]
  exact congrArg _ (place_text sound h.has)

/-- A constant is read back from its word. -/
theorem leaf_const (h : t.Spells (IsWordOf .const) x) : leaf t (t.text x) = .const default x := by
  rw [leaf, h.spelled.2]
  exact congrArg _ (place_text sound h.has)

/-- The name of a variable is read as one, or as a number. -/
theorem leaf_ident (h : t.Spells IsVariable x) :
    leaf t (t.text x) = fuse t (.ident default x) := by
  by_cases inf : t.text x = "inf"
  · rw [fuse, if_pos inf, inf, leaf_number (by decide), ← write_infinity,
      number_float isNaN_infinity]
  · obtain e | ⟨-, kind⟩ := h.spelled
    · exact (inf e).elim
    · rw [fuse, if_neg inf, leaf, kind]
      exact congrArg _ (place_text sound h.has)

end

/-- A class without a parent is written with `nil` in its place. -/
theorem fuse_classDef (s : Span) (x : NameId) (p a : Node) :
    fuse t (.classDef s x (some p) a) = .classDef s x (Reading.parent? p) a := by
  cases p <;> rfl

/-- What does nothing is read as doing nothing. -/
theorem gist_of_isNop {n : Node} (h : n.isNop = true) : n.gist t = .nop default := by
  unfold isNop at h
  split at h
  · rfl
  · cases h

/-- A clause of a guarded body that is left out if there is nothing in it. -/
theorem word_of_clause {head : String} {n : Node} :
    ∀ r ∈ readings t (if n.isNop then [] else [.list [.word head, n.toSexp t]]), r.word = head := by
  split
  · exact nofun
  · exact fun r mem => List.mem_singleton.mp mem ▸ rfl

/-- A part that is left out if it does nothing is read back. -/
theorem statements_toSexp {head : String} {n : Node}
    (h : (reading t (n.toSexp t)).node = n.gist t) :
    Reading.statements (readings t (if n.isNop then [] else [.list [.word head, n.toSexp t]])) =
      n.gist t := by
  split
  · exact (gist_of_isNop ‹_›).symm
  · exact h

/-- Clauses are told by their first word. -/
theorem word_of_rescue (rs : List (RescueClause Node)) :
    ∀ r ∈ readings t (toSexpRescues t rs), r.word = "rescue" := by
  induction rs with
  | nil => exact nofun
  | cons r rs ih => exact List.forall_mem_cons.mpr ⟨rfl, ih⟩

/-- Expressions in a row are plain if each of them is. -/
theorem plainAll_append {xs ys : List Sexp} : PlainAll (xs ++ ys) ↔ PlainAll xs ∧ PlainAll ys := by
  induction xs with
  | nil => simp [PlainAll]
  | cons x xs ih => simp [PlainAll, ih, and_assoc]

/-- A word is plain. -/
theorem plain_word {w : String} (h : IsWord w) : (word w).Plain := h

/-- A list with a word at its head is plain if its parts are. -/
theorem plain_list {head : String} {xs : List Sexp} (h : IsWord head) (hx : PlainAll xs) :
    (list (word head :: xs)).Plain := ⟨h, hx⟩

/-- A word is a word with a colon before it. -/
theorem IsWord.symbol {w : String} (h : IsWord w) : IsWord (":" ++ w) := by
  refine ⟨by simp, fun c mem => ?_⟩
  rw [String.toList_append] at mem
  rcases List.mem_append.mp mem with mem | mem
  · exact List.mem_singleton.mp mem ▸ rfl
  · exact h.2 c mem

/-- The name of a local is a word. -/
theorem IsVariable.isWord {w : String} (h : IsVariable w) : IsWord w :=
  h.elim (fun inf => inf ▸ by decide) And.left

mutual

/-- The words of a tree are words, if its names and numbers are spelled like those in programs. -/
theorem plain_toSexp (a : Node) (h : a.All (Spelled t)) : (a.toSexp t).Plain := by
  have here := all_here h
  cases a with
  | self | nil => exact plain_word (by decide)
  | bool _ b => cases b <;> exact plain_word (by decide)
  | int _ n => exact (isWord_integer n).1
  | float _ x => exact (isWord_float here).1
  | str => trivial
  | symbol => exact IsWord.symbol here.spelled
  | ident => exact here.spelled.isWord
  | instanceVar | const => exact here.spelled.1
  | array _ as => exact plain_list (by decide) (plainAll_toSexpAll as (all_array.mp h).2)
  | stmts _ as => exact plain_list (by decide) (plainAll_toSexpAll as (all_stmts.mp h).2)
  | assign _ a b | and _ a b | or _ a b | loop _ a b =>
      simp only [all_assign, all_and, all_or, all_loop] at h
      obtain ⟨-, ha, hb⟩ := h
      exact plain_list (by decide) ⟨plain_toSexp a ha, plain_toSexp b hb, trivial⟩
  | not _ a | breakWith _ a | nextWith _ a | returnWith _ a =>
      simp only [all_not, all_breakWith, all_nextWith, all_returnWith] at h
      exact plain_list (by decide) ⟨plain_toSexp a h.2, trivial⟩
  | cond _ a b c =>
      obtain ⟨-, ha, hb, hc⟩ := all_cond.mp h
      exact plain_list (by decide)
        ⟨plain_toSexp a ha, plain_toSexp b hb, plain_toSexp c hc, trivial⟩
  | guarded _ a rs b c =>
      obtain ⟨-, ha, hr, hb, hc⟩ := all_guarded.mp h
      have last {head : String} (hh : IsWord head) {n : Node} (hn : (n.toSexp t).Plain) :
          PlainAll (if n.isNop then [] else [.list [.word head, n.toSexp t]]) := by
        split
        · trivial
        · exact ⟨⟨hh, hn, trivial⟩, trivial⟩
      refine plain_list (by decide) (plainAll_append.mpr ⟨plainAll_append.mpr
        ⟨⟨plain_toSexp a ha, ?_⟩, last (by decide) (plain_toSexp b hb)⟩,
        last (by decide) (plain_toSexp c hc)⟩)
      exact plainAll_toSexpRescues rs hr here
  | methodDef _ name ps a =>
      obtain ⟨-, hp, ha⟩ := all_methodDef.mp h
      exact plain_list (by decide)
        ⟨here.1.spelled, plainAll_toSexpParams ps hp here.2, plain_toSexp a ha, trivial⟩
  | singletonDef _ a name ps b =>
      obtain ⟨-, ha, hp, hb⟩ := all_singletonDef.mp h
      exact plain_list (by decide) ⟨plain_toSexp a ha, here.1.spelled,
        plainAll_toSexpParams ps hp here.2, plain_toSexp b hb, trivial⟩
  | classDef _ name parent? a =>
      obtain ⟨-, hp, ha⟩ := all_classDef.mp h
      cases parent? with
      | none =>
          exact plain_list (by decide)
            ⟨here.spelled, plain_word (by decide), plain_toSexp a ha, trivial⟩
      | some p =>
          exact plain_list (by decide)
            ⟨here.spelled, plain_toSexp p (hp p rfl), plain_toSexp a ha, trivial⟩
  | send _ receiver? name as =>
      obtain ⟨-, hr, ha⟩ := all_send.mp h
      cases receiver? with
      | none => exact plain_list (by decide) ⟨here.spelled, plainAll_toSexpAll as ha⟩
      | some r =>
          exact plain_list (by decide)
            ⟨plain_toSexp r (hr r rfl), here.spelled, plainAll_toSexpAll as ha⟩

/-- Trees are written as plain expressions. -/
theorem plainAll_toSexpAll (as : List Node) (h : ∀ a ∈ as, a.All (Spelled t)) :
    PlainAll (toSexpAll t as) := by
  cases as with
  | nil => trivial
  | cons a as =>
      obtain ⟨ha, has⟩ := List.forall_mem_cons.mp h
      exact ⟨plain_toSexp a ha, plainAll_toSexpAll as has⟩

/-- So are parameters, with or without defaults. -/
theorem plainAll_toSexpParams (ps : List (Param Node)) (h : AllParams (Spelled t) ps)
    (names : ∀ p ∈ ps, t.Spells IsWord p.name) : PlainAll (toSexpParams t ps) := by
  cases ps with
  | nil => trivial
  | cons p ps =>
      obtain ⟨hp, hps⟩ := List.forall_mem_cons.mp h
      obtain ⟨name, more⟩ := List.forall_mem_cons.mp names
      have rest := plainAll_toSexpParams ps hps more
      obtain ⟨x, d | d⟩ := p
      · exact ⟨name.spelled, rest⟩
      · exact ⟨⟨name.spelled, plain_toSexp d (hp d rfl), trivial⟩, rest⟩

/-- So are rescue clauses. -/
theorem plainAll_toSexpRescues (rs : List (RescueClause Node))
    (h : ∀ r ∈ rs, AllClause (Spelled t) r)
    (names : ∀ r ∈ rs, ∀ x, r.binder? = some x → t.Spells IsWord x) :
    PlainAll (toSexpRescues t rs) := by
  cases rs with
  | nil => trivial
  | cons r rs =>
      obtain ⟨hr, hrs⟩ := List.forall_mem_cons.mp h
      obtain ⟨name, more⟩ := List.forall_mem_cons.mp names
      obtain ⟨classes, binder?, body⟩ := r
      have binder : PlainAll (binder?.map fun x => Sexp.word (t.text x)).toList := by
        cases binder? with
        | none => trivial
        | some x => exact ⟨(name x rfl).spelled, trivial⟩
      have parts : PlainAll (_ ++ [body.toSexp t]) :=
        plainAll_append.mpr ⟨binder, plain_toSexp body hr.2, trivial⟩
      exact ⟨plain_list (by decide) ⟨plainAll_toSexpAll classes hr.1, parts⟩,
        plainAll_toSexpRescues rs hrs more⟩

end

mutual

/-- **What is read back from the s-expression of a tree** is the gist of the tree. -/
theorem node_toSexp (sound : t.Sound) (a : Node) (h : a.All (Spelled t)) :
    (reading t (a.toSexp t)).node = a.gist t := by
  have here := all_here h
  cases a with
  | self | nil | str => rfl
  | bool _ b => cases b <;> rfl
  | int _ n => exact (leaf_number (isWord_integer n).2.1).trans (number_integer n)
  | float _ x => exact (leaf_number (isWord_float here).2.1).trans (number_float here)
  | symbol _ x => exact leaf_symbol sound here.has
  | ident => exact leaf_ident sound here
  | instanceVar => exact leaf_instanceVar sound here
  | const => exact leaf_const sound here
  | array _ as => exact congrArg (Node.array default) (nodes_toSexpAll sound as (all_array.mp h).2)
  | stmts _ as => exact congrArg (Node.stmts default) (nodes_toSexpAll sound as (all_stmts.mp h).2)
  | assign _ a b | and _ a b | or _ a b | loop _ a b =>
      simp only [all_assign, all_and, all_or, all_loop] at h
      obtain ⟨-, ha, hb⟩ := h
      rw [gist, reshape, ← gist, ← gist, ← node_toSexp sound a ha, ← node_toSexp sound b hb]
      rfl
  | not _ a | breakWith _ a | nextWith _ a | returnWith _ a =>
      simp only [all_not, all_breakWith, all_nextWith, all_returnWith] at h
      rw [gist, reshape, ← gist, ← node_toSexp sound a h.2]
      rfl
  | cond _ a b c =>
      obtain ⟨-, ha, hb, hc⟩ := all_cond.mp h
      have parts := congrArg₂ (Node.cond default) (node_toSexp sound a ha) (node_toSexp sound b hb)
      exact congr parts (node_toSexp sound c hc)
  | guarded _ a rs b c =>
      obtain ⟨-, ha, hr, hb, hc⟩ := all_guarded.mp h
      obtain ⟨rescues, otherwise, cleanup⟩ :=
        Reading.headed_append (word_of_rescue rs) (@word_of_clause t "else" b)
          (@word_of_clause t "ensure" c)
      rw [← readings_append, ← readings_append] at rescues otherwise cleanup
      have clauses := (congrArg (List.map (·.clause)) rescues).trans
        (clauses_toSexpRescues sound rs hr here)
      have last := (congrArg Reading.statements otherwise).trans
        (statements_toSexp (node_toSexp sound b hb))
      have always := (congrArg Reading.statements cleanup).trans
        (statements_toSexp (node_toSexp sound c hc))
      have parts := congrArg₂ (Node.guarded default) (node_toSexp sound a ha) clauses
      exact congr (congr parts last) always
  | methodDef _ x ps a =>
      obtain ⟨-, hp, ha⟩ := all_methodDef.mp h
      have params := (Reading.params_ofList t _).trans (params_toSexpParams sound ps hp here.2)
      have parts := congrArg₂ (Node.methodDef default) (place_text sound here.1.has) params
      exact congr parts (node_toSexp sound a ha)
  | singletonDef _ a x ps b =>
      obtain ⟨-, ha, hp, hb⟩ := all_singletonDef.mp h
      have params := (Reading.params_ofList t _).trans (params_toSexpParams sound ps hp here.2)
      have parts := congrArg₂ (Node.singletonDef default) (node_toSexp sound a ha)
        (place_text sound here.1.has)
      exact congr (congr parts params) (node_toSexp sound b hb)
  | classDef _ x parent? a =>
      obtain ⟨-, hp, ha⟩ := all_classDef.mp h
      have name := congrArg (Node.classDef default) (place_text sound here.has)
      cases parent? with
      | none => exact congr (congrFun name none) (node_toSexp sound a ha)
      | some p =>
          have parent := congrArg Reading.parent? (node_toSexp sound p (hp p rfl))
          exact (congr (congr name parent) (node_toSexp sound a ha)).trans
            (fuse_classDef _ _ _ _).symm
  | send _ receiver? x as =>
      obtain ⟨-, hr, ha⟩ := all_send.mp h
      have name := place_text sound here.has
      have args := nodes_toSexpAll sound as ha
      cases receiver? with
      | none => exact congrArg₂ (Node.send default none) name args
      | some r =>
          have receiver := congrArg some (node_toSexp sound r (hr r rfl))
          exact congr (congrArg₂ (Node.send default) receiver name) args

/-- **Trees are read back** one by one, up to what the text does not tell. -/
theorem nodes_toSexpAll (sound : t.Sound) (as : List Node) (h : ∀ a ∈ as, a.All (Spelled t)) :
    (readings t (toSexpAll t as)).map (·.node) = reshapeAll (fuse t) as := by
  cases as with
  | nil => rfl
  | cons a as =>
      obtain ⟨ha, has⟩ := List.forall_mem_cons.mp h
      exact congrArg₂ List.cons (node_toSexp sound a ha) (nodes_toSexpAll sound as has)

/-- So are parameters. -/
theorem params_toSexpParams (sound : t.Sound) (ps : List (Param Node))
    (h : AllParams (Spelled t) ps) (names : ∀ p ∈ ps, t.Spells IsWord p.name) :
    (readings t (toSexpParams t ps)).map (·.param) = reshapeParams (fuse t) ps := by
  cases ps with
  | nil => rfl
  | cons p ps =>
      obtain ⟨hp, hps⟩ := List.forall_mem_cons.mp h
      obtain ⟨name, more⟩ := List.forall_mem_cons.mp names
      have rest := params_toSexpParams sound ps hps more
      obtain ⟨x, d | d⟩ := p
      · exact congrArg₂ (fun y ys => ⟨y, none⟩ :: ys) (place_text sound name.has) rest
      · have value := congrArg some (node_toSexp sound d (hp d rfl))
        exact congrArg₂ List.cons (congrArg₂ Param.mk (place_text sound name.has) value) rest

/-- So are rescue clauses. -/
theorem clauses_toSexpRescues (sound : t.Sound) (rs : List (RescueClause Node))
    (h : ∀ r ∈ rs, AllClause (Spelled t) r)
    (names : ∀ r ∈ rs, ∀ x, r.binder? = some x → t.Spells IsWord x) :
    (readings t (toSexpRescues t rs)).map (·.clause) = reshapeRescues (fuse t) rs := by
  cases rs with
  | nil => rfl
  | cons r rs =>
      obtain ⟨hr, hrs⟩ := List.forall_mem_cons.mp h
      obtain ⟨name, more⟩ := List.forall_mem_cons.mp names
      obtain ⟨classes, binder?, body⟩ := r
      have rest := clauses_toSexpRescues sound rs hrs more
      have nodes := (Reading.nodes_ofList t _).trans (nodes_toSexpAll sound classes hr.1)
      have body := node_toSexp sound body hr.2
      cases binder? with
      | none => exact congrArg₂ List.cons (congr (congrFun (congrArg _ nodes) none) body) rest
      | some x =>
          have binder := congrArg some (place_text sound (name x rfl).has)
          exact congrArg₂ List.cons (congr (congrArg₂ RescueClause.mk nodes binder) body) rest

end

end Sexp

/-- **Trees are printed alike just if they have the same gist**, if their names and numbers are
spelled like those in programs. -/
theorem Node.render_eq_iff {t : NameTable} (sound : t.Sound) {a b : Node}
    (ha : a.All (Spelled t)) (hb : b.All (Spelled t)) :
    a.render t = b.render t ↔ a.gist t = b.gist t := by
  rw [← text_toSexp, ← text_toSexp]
  constructor
  · intro same
    have sexps := Sexp.text_inj (Sexp.plain_toSexp a ha) (Sexp.plain_toSexp b hb) same
    rw [← Sexp.node_toSexp sound a ha, ← Sexp.node_toSexp sound b hb, sexps]
  · intro same
    rw [← toSexp_gist t a, ← toSexp_gist t b, same]

end MiniRuby
