import MiniRuby.Proofs.Token.Line
import Mathlib.Data.List.TakeWhile

/-!
# How names are spelled

A name is a letter or an underscore with name characters and perhaps a mark after it (`Word`).  What
a symbol names is spelled like that, or it is a setter, an instance variable or an operator
(`IsNamed`).  The reader finds such a name before any character that stops a name, and it finds no
other ones.

* `Lexer.symbolName?_of_isNamed`: what a symbol names is read off before a stop.
* `Lexer.isNamed_of_symbolName?`: what is read off can be named.
-/

namespace MiniRuby

/-- The spelling of a name that a method can be called by. -/
structure Word where
  first : Char
  more : List Char
  mark : List Char
  isNameStart : Lexer.isNameStart first = true
  isNameChar : ∀ c ∈ more, Lexer.isNameChar c = true
  isMark : mark = [] ∨ mark = ['?'] ∨ mark = ['!']

namespace Word

def chars (w : Word) : List Char := w.first :: (w.more ++ w.mark)

def text (w : Word) : String := String.ofList w.chars

/-- The token that is read from a name. -/
def token (w : Word) : TokenKind := Lexer.wordKind w.first w.text

end Word

/-- Whether a text is the name of a variable: it has no mark at its end. -/
inductive IsVariableName : List Char → Prop where
  | intro (w : Word) (bare : w.mark = []) : IsVariableName w.chars

/-- What a symbol can name: a method, a setter, an instance variable, or an operator. -/
inductive IsNamed : List Char → Prop where
  | method (w : Word) : IsNamed w.chars
  | setter {name : List Char} (h : IsVariableName name) : IsNamed (name ++ ['='])
  | instanceVar {name : List Char} (h : IsVariableName name) : IsNamed ('@' :: name)
  | operator {op : List Char} (h : op ∈ Lexer.symbolOperators) : IsNamed op

namespace Lexer

variable {rest : List Char}

/-! ### Names -/

theorem isNameChar_of_start {c : Char} (h : isNameStart c = true) : isNameChar c = true := by
  simp only [isNameStart, Bool.or_eq_true] at h
  simp only [isNameChar, Char.isAlphanum, Bool.or_eq_true]
  exact h.imp_left .inl

theorem nameMark_cases (line : List Char) :
    nameMark line = [] ∨ nameMark line = ['?'] ∨ nameMark line = ['!'] := by
  fun_cases nameMark line <;> simp_all

/-- The rest of a name ends at the first character that is not of a name. -/
theorem nameTail_of_chars {chars more : List Char} (h : ∀ c ∈ chars, isNameChar c = true)
    (hm : ∀ c ∈ more.head?, isNameChar c = false) :
    nameTail (chars ++ more) = chars ++ nameMark more := by
  have stop : (chars ++ more).takeWhile isNameChar = chars := by
    rw [takeWhile_append hm, List.takeWhile_eq_self_iff.mpr h]
  simp only [nameTail, stop, List.drop_left]

/-- The rest of a name is found where no name goes on. -/
theorem nameTail_word (w : Word) (hc : ∀ c ∈ rest.head?, isNameChar c = false)
    (hm : nameMark (w.mark ++ rest) = w.mark) :
    nameTail (w.more ++ w.mark ++ rest) = w.more ++ w.mark := by
  have stop : ∀ c ∈ (w.mark ++ rest).head?, isNameChar c = false := by
    rcases w.isMark with h | h | h
    · rwa [h, List.nil_append]
    · simp [h, isNameChar]
    · simp [h, isNameChar]
  rw [List.append_assoc, nameTail_of_chars w.isNameChar stop, hm]

theorem Stops.not_isNameChar (h : Stops rest) : ∀ c ∈ rest.head?, isNameChar c = false := by
  rcases h.cases with rfl | ⟨more, rfl | rfl | rfl | rfl⟩ <;> simp [isNameChar]

/-- The name of a variable is read off before a stop. -/
theorem takeWhile_variable {name : List Char} (h : IsVariableName name) (hr : Stops rest) :
    startsName (name ++ rest) = true ∧ (name ++ rest).takeWhile isNameChar = name := by
  obtain ⟨w, bare⟩ := h
  have chars : ∀ c ∈ w.chars, isNameChar c = true := by
    simpa [Word.chars, bare, isNameChar_of_start w.isNameStart] using w.isNameChar
  exact ⟨w.isNameStart,
    by rw [takeWhile_nameChar hr, List.takeWhile_eq_self_iff.mpr chars]⟩

/-- A name as it is read. -/
def nameAt (c : Char) (rest : List Char) (hc : isNameStart c = true) : Word where
  first := c
  more := rest.takeWhile isNameChar
  mark := nameMark (rest.drop (rest.takeWhile isNameChar).length)
  isNameStart := hc
  isNameChar := fun _ hc => List.mem_takeWhile_imp hc
  isMark := nameMark_cases _

theorem isVariableName_of_startsName (h : startsName rest = true) :
    IsVariableName (rest.takeWhile isNameChar) := by
  cases rest with
  | nil => cases h
  | cons c rest =>
      have name := IsVariableName.intro ⟨c, rest.takeWhile isNameChar, [], h,
        fun _ hc => List.mem_takeWhile_imp hc, .inl rfl⟩ rfl
      rwa [List.takeWhile_cons_of_pos (isNameChar_of_start h), ← List.append_nil (rest.takeWhile _)]

/-! ### Symbols -/

theorem setterMark_cases (name line : List Char) :
    setterMark name line = [] ∨ setterMark name line = ['='] ∧
      name.getLast? ≠ some '?' ∧ name.getLast? ≠ some '!' := by
  fun_cases setterMark name line <;> simp_all

theorem symbolName?_of_method (w : Word) (hr : Stops rest) :
    symbolName? (w.chars ++ rest) = some w.chars := by
  have mark : nameMark (w.mark ++ rest) = w.mark := by
    rcases hr.cases with rfl | ⟨more, rfl | rfl | rfl | rfl⟩ <;>
      rcases w.isMark with h | h | h <;> rw [h] <;> rfl
  have tail := nameTail_word w hr.not_isNameChar mark
  have setter (name : List Char) : setterMark name rest = [] := by
    rcases hr.cases with rfl | ⟨more, rfl | rfl | rfl | rfl⟩ <;> rfl
  rw [Word.chars, List.cons_append, symbolName?_method w.isNameStart, tail, List.drop_left, setter,
    List.append_nil]

theorem symbolName?_of_setter {name : List Char} (h : IsVariableName name) (hr : Stops rest) :
    symbolName? (name ++ ['='] ++ rest) = some (name ++ ['=']) := by
  obtain ⟨w, bare⟩ := h
  have tail : nameTail (w.more ++ w.mark ++ '=' :: rest) = w.more ++ w.mark :=
    nameTail_word w (by simp [isNameChar]) (by rw [bare]; rfl)
  -- Neither mark that would keep the equals sign off a name is a character of names.
  have last : ∀ c, w.chars.getLast? = some c → isNameChar c = true := by
    intro c hc
    simp only [Word.chars, bare, List.append_nil] at hc
    rcases List.mem_cons.mp (List.mem_of_getLast? hc) with rfl | hc
    · exact isNameChar_of_start w.isNameStart
    · exact w.isNameChar c hc
  have query : w.chars.getLast? ≠ some '?' := fun h => absurd (last _ h) (by decide)
  have bang : w.chars.getLast? ≠ some '!' := fun h => absurd (last _ h) (by decide)
  have setter : setterMark w.chars ('=' :: rest) = ['='] := by
    rcases hr.cases with rfl | ⟨more, rfl | rfl | rfl | rfl⟩ <;> simp [setterMark, query, bang]
  have whole : w.chars ++ ['='] ++ rest = w.first :: (w.more ++ w.mark ++ '=' :: rest) := by
    simp [Word.chars]
  rw [whole, symbolName?_method w.isNameStart, tail, List.drop_left]
  exact congrArg (fun mark => some (w.chars ++ mark)) setter

theorem symbolName?_of_operator {op : List Char} (h : op ∈ symbolOperators) (hr : Stops rest) :
    symbolName? (op ++ rest) = some op := by
  simp only [symbolOperators, List.mem_cons, List.not_mem_nil, or_false] at h
  rcases hr.cases with rfl | ⟨more, rfl | rfl | rfl | rfl⟩ <;>
    rcases h with rfl | rfl | rfl | rfl | rfl | rfl | rfl | rfl | rfl | rfl | rfl | rfl | rfl |
      rfl | rfl | rfl | rfl | rfl | rfl | rfl | rfl <;> rfl

/-- **What a symbol names** is read off before a stop. -/
theorem symbolName?_of_isNamed {name : List Char} (h : IsNamed name) (hr : Stops rest) :
    symbolName? (name ++ rest) = some name := by
  cases h with
  | method w => exact symbolName?_of_method w hr
  | setter h => exact symbolName?_of_setter h hr
  | instanceVar h =>
      obtain ⟨start, chars⟩ := takeWhile_variable h hr
      rw [List.cons_append, symbolName?_variable, if_pos start, chars]
  | operator h => exact symbolName?_of_operator h hr

theorem isNamed_of_symbolName? {name : List Char} (h : symbolName? rest = some name) :
    IsNamed name := by
  cases rest with
  | nil => cases h
  | cons c rest =>
      by_cases hc : isNameStart c = true
      · rw [symbolName?_method hc] at h
        cases h
        have chars : c :: nameTail rest = (nameAt c rest hc).chars := rfl
        rcases setterMark_cases (c :: nameTail rest) (rest.drop (nameTail rest).length) with
          hs | ⟨hs, hq, hx⟩
        · rw [hs, List.append_nil, chars]
          exact .method _
        · rw [chars] at hq hx
          have bare : (nameAt c rest hc).mark = [] := by
            refine (nameAt c rest hc).isMark.resolve_right ?_
            rintro (hm | hm)
            · exact hq (by simp [Word.chars, hm, List.getLast?_cons])
            · exact hx (by simp [Word.chars, hm, List.getLast?_cons])
          rw [hs]
          exact .setter (.intro _ bare)
      by_cases ha : c = '@'
      · subst ha
        rw [symbolName?_variable] at h
        split at h
        · cases h
          exact .instanceVar (isVariableName_of_startsName ‹_›)
        · cases h
      · rw [symbolName?_operator (by simpa using hc) ha] at h
        exact .operator (List.mem_of_find?_eq_some h)

end Lexer

end MiniRuby
