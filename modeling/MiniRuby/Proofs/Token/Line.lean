import MiniRuby.Token.Lexer
import Mathlib.Data.List.Find

/-!
# Tokens up to a line break

What stands on a line is read without looking past its end.  So a text that is cut off after a
line break has the tokens of the whole text up to the cut, unless the cut falls into a string.

* `Lexer.scan_line`: a token of the whole text is a token of the text that is cut off, or the
  latter ends within a string.
* `Lexer.tokensFrom_line`: so one row of tokens is the other up to the line break of the cut
  (`CutTokens`).
-/

namespace MiniRuby

/-- One row of tokens is another one that was cut off after a line break: what followed is
replaced by the end of the text. -/
inductive CutTokens : List Token → List Token → Prop where
  | here {brk last : Token} {more : List Token} (hb : brk.kind = .lineTerm)
      (he : last.kind = .eof) : CutTokens (brk :: more) [brk, last]
  | cons {ts us : List Token} (t : Token) (h : CutTokens ts us) : CutTokens (t :: ts) (t :: us)

namespace Lexer

variable {line rest : List Char}

/-! ### Where names and numbers stop -/

/-- Characters that no name and no number goes on with. -/
def isStop (c : Char) : Bool := c = '\n' || c = ',' || c = ']' || c = ' '

/-- Whether a text starts with such a character, or is at its end. -/
def Stops (rest : List Char) : Prop := ∀ c ∈ rest.head?, isStop c = true

/-- A name stops at the end of a text. -/
theorem stops_nil : Stops [] := nofun

/-- A name stops at any character that is a stop. -/
theorem stops_cons {c : Char} (h : isStop c = true) : Stops (c :: rest) := by
  rintro _ ⟨⟩
  exact h

/-- A name stops at the end of a line. -/
theorem stops_line : Stops ('\n' :: rest) := stops_cons rfl

/-- What a name stops at is the end of the text or one of four characters. -/
theorem Stops.cases (h : Stops rest) :
    rest = [] ∨ ∃ more,
      rest = '\n' :: more ∨ rest = ',' :: more ∨ rest = ']' :: more ∨ rest = ' ' :: more := by
  cases rest with
  | nil => exact .inl rfl
  | cons c more =>
      have hc : isStop c = true := h c rfl
      simp only [isStop, Bool.or_eq_true, decide_eq_true_eq] at hc
      refine .inr ⟨more, ?_⟩
      rcases hc with ((rfl | rfl) | rfl) | rfl
      · exact .inl rfl
      · exact .inr (.inl rfl)
      · exact .inr (.inr (.inl rfl))
      · exact .inr (.inr (.inr rfl))

/-- What is taken from a line is not changed by a text that starts with a character outside. -/
theorem takeWhile_append {p : Char → Bool} (h : ∀ c ∈ rest.head?, p c = false) :
    (line ++ rest).takeWhile p = line.takeWhile p := by
  induction line with
  | nil =>
      cases rest with
      | nil => rfl
      | cons c more => simp [h c rfl]
  | cons c line ih => simp only [List.cons_append, List.takeWhile_cons, ih]

/-- A name ends where a stop does, whatever comes behind it. -/
theorem takeWhile_nameChar (h : Stops rest) :
    (line ++ rest).takeWhile isNameChar = line.takeWhile isNameChar := by
  refine takeWhile_append ?_
  rcases h.cases with rfl | ⟨more, rfl | rfl | rfl | rfl⟩ <;> simp <;> rfl

theorem takeWhile_length_le (p : Char → Bool) (line : List Char) :
    (line.takeWhile p).length ≤ line.length :=
  (List.takeWhile_sublist p).length_le

theorem startsName_append (h : Stops rest) : startsName (line ++ rest) = startsName line := by
  cases line with
  | nil => rcases h.cases with rfl | ⟨more, rfl | rfl | rfl | rfl⟩ <;> rfl
  | cons c line => rfl

theorem startsDigit_append (h : Stops rest) : startsDigit (line ++ rest) = startsDigit line := by
  cases line with
  | nil => rcases h.cases with rfl | ⟨more, rfl | rfl | rfl | rfl⟩ <;> rfl
  | cons c line => rfl

/-- Whether `?` or `!` belongs to a name is told before a stop, too. -/
theorem nameMark_append (h : Stops rest) : nameMark (line ++ rest) = nameMark line := by
  rcases line with _ | ⟨c, _ | ⟨d, line⟩⟩
  · rcases h.cases with rfl | ⟨more, rfl | rfl | rfl | rfl⟩ <;> rfl
  · rcases h.cases with rfl | ⟨more, rfl | rfl | rfl | rfl⟩ <;> rfl
  · by_cases hd : d = '='
    · subst hd
      rfl
    · simp [nameMark, hd]

theorem nameMark_isPrefix (line : List Char) : nameMark line <+: line := by
  fun_cases nameMark line <;> simp

/-- The rest of a name is the same before a stop. -/
theorem nameTail_append (h : Stops rest) : nameTail (line ++ rest) = nameTail line := by
  unfold nameTail
  simp only [takeWhile_nameChar h, List.drop_append_of_le_length (takeWhile_length_le _ _),
    nameMark_append h]

/-- What a text begins with, and what the rest of it begins with. -/
theorem append_isPrefix {first more : List Char} (h : first <+: line)
    (hm : more <+: line.drop first.length) : first ++ more <+: line := by
  obtain ⟨rest, rfl⟩ := h
  rw [List.drop_left] at hm
  exact (List.prefix_append_right_inj first).mpr hm

theorem nameTail_isPrefix (line : List Char) : nameTail line <+: line :=
  append_isPrefix (List.takeWhile_prefix _) (nameMark_isPrefix _)

theorem numberTail_stop {isFloat : Bool} (h : Stops rest) :
    numberTail isFloat rest = ⟨[], isFloat, 0⟩ := by
  rw [numberTail.eq_def]
  rcases h.cases with rfl | ⟨more, rfl | rfl | rfl | rfl⟩ <;> simp [isExponentMark]

/-- **A number** is the same before a stop, with all of its digits and its point. -/
theorem numberTail_append (h : Stops rest) : ∀ (line : List Char) (isFloat : Bool),
    numberTail isFloat (line ++ rest) = numberTail isFloat line
  | [], _ => numberTail_stop h
  | c :: line, isFloat => by
      have ih := numberTail_append h line
      rw [numberTail.eq_def, numberTail.eq_def isFloat (c :: line)]
      simp only [List.cons_append, startsDigit_append h, ih]
      -- What follows an exponent mark may be a sign and a digit.
      rcases line with _ | ⟨d, line⟩
      · rcases h.cases with rfl | ⟨more, rfl | rfl | rfl | rfl⟩ <;> simp [isSign]
      · simp only [List.cons_append, startsDigit_append h, numberTail_append h line]

theorem numberTail_length_le {isFloat : Bool} :
    (numberTail isFloat line).length ≤ line.length := by
  fun_induction numberTail isFloat line <;> simp_all +zetaDelta

/-! ### Strings -/

/-- Whether a reader of strings stops at the closing quote: it finds a string on the line, whatever
comes later, or it finds none up to the end of the line. -/
def StopsAtQuote (read : List Char → Option StringTail) : Prop :=
  ∀ line, (∃ t, t.length ≤ line.length ∧ ∀ more, read (line ++ more) = some t) ∨
    read line = none ∧ read (line ++ ['\n']) = none

/-- Strings of both kinds are read alike, up to their quote and to what a backslash stands for. -/
theorem StopsAtQuote.of_equations {read : List Char → Option StringTail} (quote : Char)
    {escape : Char → List Char} (hq : quote ≠ '\n') (nil : read [] = none)
    (escape_nil : read ['\\'] = none)
    (close : ∀ line, read (quote :: line) = some ⟨[], 1⟩)
    (escaped : ∀ c line, read ('\\' :: c :: line) = (read line).map (.push (escape c) 2))
    (plain : ∀ c line, c ≠ quote → c ≠ '\\' → read (c :: line) = (read line).map (.push [c] 1)) :
    StopsAtQuote read
  | [] => .inr ⟨nil, by simp [plain '\n' [] hq.symm (by decide), nil]⟩
  | c :: line => by
      by_cases hc : c = quote
      · subst hc
        exact .inl ⟨⟨[], 1⟩, by simp, fun more => close _⟩
      by_cases hb : c = '\\'
      · subst hb
        cases line with
        | nil => exact .inr ⟨escape_nil, by simp [escaped, nil]⟩
        | cons d line =>
            rcases of_equations quote hq nil escape_nil close escaped plain line with
              ⟨t, ht, h⟩ | ⟨h, h'⟩
            · refine .inl ⟨t.push (escape d) 2, ?_, fun more => by simp [escaped, h]⟩
              simpa [StringTail.push] using ht
            · exact .inr ⟨by simp [escaped, h], by simp [escaped, h']⟩
      · have read_eq := fun more => plain c (line ++ more) hc hb
        rcases of_equations quote hq nil escape_nil close escaped plain line with
          ⟨t, ht, h⟩ | ⟨h, h'⟩
        · refine .inl ⟨t.push [c] 1, ?_, fun more => by simp [read_eq, h]⟩
          simpa [StringTail.push] using ht
        · exact .inr ⟨by simpa [h] using read_eq [], by simp [read_eq, h']⟩

theorem stopsAtQuote_doubleQuoted : StopsAtQuote doubleQuoted? :=
  .of_equations '"' (by decide) rfl rfl (fun _ => rfl) (fun _ _ => rfl)
    fun c line _ hb => by simp [doubleQuoted?, hb]

theorem stopsAtQuote_singleQuoted : StopsAtQuote singleQuoted? :=
  .of_equations '\'' (by decide) rfl rfl (fun _ => rfl) (fun _ _ => rfl)
    fun c line _ hb => by simp [singleQuoted?, hb]

/-! ### Symbols and punctuation -/

/-- Operators have no line end in them, so they are found in the line or not at all. -/
theorem isPrefixOf_line {op : List Char} (h : '\n' ∉ op) :
    op.isPrefixOf (line ++ '\n' :: rest) = op.isPrefixOf line := by
  induction op generalizing line with
  | nil => simp
  | cons c op ih =>
      simp only [List.mem_cons, not_or] at h
      cases line with
      | nil => simp [List.isPrefixOf, Ne.symm h.1]
      | cons d line => simp only [List.cons_append, List.isPrefixOf, ih h.2]

/-- The `=` of a setter is looked for in the line. -/
theorem setterMark_line {name : List Char} :
    setterMark name (line ++ '\n' :: rest) = setterMark name line := by
  rcases line with _ | ⟨c, _ | ⟨d, line⟩⟩
  · rfl
  · by_cases hc : c = '='
    · subst hc
      rfl
    · simp [setterMark, hc]
  · by_cases hc : c = '='
    · subst hc
      by_cases he : d = '='
      · subst he
        rfl
      · by_cases hg : d = '>'
        · subst hg
          rfl
        · simp [setterMark, he, hg]
    · simp [setterMark, hc]

/-! A symbol names a method, an instance variable, or an operator. -/

/-- A symbol that starts like a method is the name, and the `=` of a setter with it. -/
theorem symbolName?_method {c : Char} (hc : isNameStart c = true) :
    symbolName? (c :: line) = some (c :: (nameTail line ++
      setterMark (c :: nameTail line) (line.drop (nameTail line).length))) := by
  simp [symbolName?, hc]

/-- A symbol that starts with `@` is the name of an instance variable. -/
theorem symbolName?_variable : symbolName? ('@' :: line) =
    if startsName line then some ('@' :: line.takeWhile isNameChar) else none := by
  cases line with
  | nil => rfl
  | cons c line => rfl

/-- Every other symbol is an operator, and the longest is taken. -/
theorem symbolName?_operator {c : Char} (hc : isNameStart c = false) (ha : c ≠ '@') :
    symbolName? (c :: line) = symbolOperators.find? (·.isPrefixOf (c :: line)) := by
  simp [symbolName?, hc, ha]

/-- **A symbol** is read from the line, whatever comes in the lines behind it. -/
theorem symbolName?_line : symbolName? (line ++ '\n' :: rest) = symbolName? line := by
  cases line with
  | nil => rfl
  | cons c line =>
      by_cases hc : isNameStart c = true
      · rw [List.cons_append, symbolName?_method hc, symbolName?_method hc,
          nameTail_append stops_line, List.drop_append_of_le_length (nameTail_isPrefix _).length_le,
          setterMark_line]
      by_cases ha : c = '@'
      · subst ha
        rw [List.cons_append, symbolName?_variable, symbolName?_variable,
          startsName_append stops_line, takeWhile_nameChar stops_line]
      · have hc : isNameStart c = false := by simpa using hc
        have names : ∀ op ∈ symbolOperators, '\n' ∉ op := by decide
        rw [List.cons_append, symbolName?_operator hc ha, symbolName?_operator hc ha]
        exact List.find?_congr fun op hop => @isPrefixOf_line (c :: line) _ _ (names op hop)

theorem setterMark_isPrefix (name line : List Char) : setterMark name line <+: line := by
  fun_cases setterMark name line <;> simp

/-- The name of a symbol is a start of the text that is read. -/
theorem symbolName?_isPrefix {name : List Char} (h : symbolName? line = some name) :
    name <+: line := by
  cases line with
  | nil => cases h
  | cons c line =>
      by_cases hc : isNameStart c = true
      · rw [symbolName?_method hc] at h
        cases h
        exact List.cons_prefix_cons.mpr
          ⟨rfl, append_isPrefix (nameTail_isPrefix line) (setterMark_isPrefix _ _)⟩
      by_cases ha : c = '@'
      · subst ha
        rw [symbolName?_variable] at h
        split at h
        · cases h
          exact List.cons_prefix_cons.mpr ⟨rfl, List.takeWhile_prefix _⟩
        · cases h
      · rw [symbolName?_operator (by simpa using hc) ha] at h
        exact List.isPrefixOf_iff_prefix.mp (by simpa using List.find?_some h)

theorem not_starts_line {c : Char} (hc : c ≠ '\n') (h : ∀ more, line = c :: more → False)
    (more : List Char) : line ++ '\n' :: rest = c :: more → False := by
  cases line with
  | nil =>
      rintro ⟨⟩
      exact hc rfl
  | cons d line =>
      rintro ⟨⟩
      exact h _ rfl

/-- Punctuation is read from the line. -/
theorem punct?_line {c : Char} : punct? c (line ++ '\n' :: rest) = punct? c line := by
  fun_cases punct? c line
  case case34 => rw [punct?] <;> (intros; contradiction)
  case case19 h | case23 h => 
      rw [List.cons_append, punct?]
      exact not_starts_line (by decide) h
  all_goals first
    | rfl
    | rw [punct?] <;> intro more <;> refine not_starts_line (by decide) ?_ _ <;> assumption

theorem punct?_length_le {c : Char} {p : Punct} {n : Nat} (h : punct? c line = some (p, n)) :
    n ≤ line.length := by
  fun_cases punct? c line <;> simp only [punct?] at h <;> cases h <;> simp

/-! ### The cut -/

/-- Whether `-@` is a name is told in the line. -/
theorem isMinusName_line : isMinusName (line ++ '\n' :: rest) = isMinusName line := by
  rcases line with _ | ⟨c, line⟩
  · rfl
  · by_cases hc : c = '@'
    · subst hc
      simp [isMinusName, startsName_append stops_line]
    · simp [isMinusName, hc]

/-- A number is the same token in a line that others follow. -/
theorem scanNumber_line {pos : Nat} {c : Char} :
    scanNumber pos c (line ++ '\n' :: rest) = scanNumber pos c line := by
  simp only [scanNumber, numberTail_append stops_line]

/-- So is a symbol. -/
theorem scanSymbol_line {pos : Nat} :
    scanSymbol pos (line ++ '\n' :: rest) = scanSymbol pos line := by
  simp only [scanSymbol, symbolName?_line]
  rcases line with _ | ⟨c, line⟩
  · rfl
  · by_cases hc : c = '@'
    · subst hc
      rfl
    · simp [hc]

/-- But for strings, a line alone says what its tokens are. -/
theorem scan_line_eq {pos : Nat} {c : Char} (hd : c ≠ '"') (hs : c ≠ '\'') :
    scan pos c (line ++ '\n' :: rest) = scan pos c line := by
  simp only [scan, if_neg hd, if_neg hs, nameTail_append stops_line, scanNumber_line,
    startsName_append stops_line, takeWhile_nameChar stops_line, scanSymbol_line,
    isMinusName_line, punct?_line]

/-- What a number is scanned as, and how long it is. -/
theorem scanNumber_ok {pos : Nat} {c : Char} {kind : TokenKind} {n : Nat}
    (h : scanNumber pos c line = .ok (kind, n)) : n = (numberTail false line).length ∧
      ((∃ x, kind = .float x) ∨ ∃ v ≤ maxNumber, kind = .num v) := by
  unfold scanNumber at h
  dsimp only at h
  split at h
  · split at h
    · cases h
      exact ⟨rfl, .inl ⟨_, rfl⟩⟩
    · cases h
  · split at h
    · rename_i hv
      cases h
      exact ⟨rfl, .inr ⟨_, hv, rfl⟩⟩
    · cases h

/-- What a symbol is scanned as, and how long it is. -/
theorem scanSymbol_ok {pos : Nat} {kind : TokenKind} {n : Nat}
    (h : scanSymbol pos line = .ok (kind, n)) :
    ∃ name, symbolName? line = some name ∧ kind = .symbol (String.ofList name) ∧
      n = name.length := by
  unfold scanSymbol at h
  split at h
  · rename_i name hname
    cases h
    exact ⟨name, hname, rfl, rfl⟩
  · split at h <;> cases h

theorem isMinusName_eq (h : isMinusName line = true) : ∃ more, line = '@' :: more := by
  unfold isMinusName at h
  split at h
  · exact ⟨_, rfl⟩
  · cases h

/-- A token that is no string does not go past the text that it is scanned from. -/
theorem scan_length_le {pos : Nat} {c : Char} {kind : TokenKind} {n : Nat} (hd : c ≠ '"')
    (hs : c ≠ '\'') (h : scan pos c line = .ok (kind, n)) : n ≤ line.length := by
  simp only [scan, if_neg hd, if_neg hs] at h
  split at h
  · cases h
    exact (nameTail_isPrefix _).length_le
  split at h
  · rw [(scanNumber_ok h).1]
    exact numberTail_length_le
  split at h
  · split at h
    · cases h
      exact takeWhile_length_le _ _
    · cases h
  split at h
  · obtain ⟨name, hname, -, rfl⟩ := scanSymbol_ok h
    exact (symbolName?_isPrefix hname).length_le
  split at h
  · rename_i hm
    obtain ⟨-, hm⟩ : c = '-' ∧ isMinusName line = true := by simpa using hm
    obtain ⟨more, rfl⟩ := isMinusName_eq hm
    cases h
    simp
  split at h
  · rename_i p k hp
    cases h
    exact punct?_length_le hp
  · cases h

/-- **A string** ends in its line, or it goes on behind the line and then the line alone is
incomplete. -/
theorem scanString_line {pos : Nat} {read : List Char → Option StringTail} {kind : TokenKind}
    {n : Nat} (hr : StopsAtQuote read)
    (h : scanString pos (line ++ '\n' :: rest) (read (line ++ '\n' :: rest)) = .ok (kind, n)) :
    (n ≤ line.length ∧ scanString pos (line ++ ['\n']) (read (line ++ ['\n'])) = .ok (kind, n)) ∨
      ∃ e, scanString pos (line ++ ['\n']) (read (line ++ ['\n'])) = .error e ∧
        e.isIncomplete = true := by
  rcases hr line with ⟨t, ht, hread⟩ | ⟨-, hread⟩
  · rw [hread] at h
    cases h
    exact .inl ⟨ht, by rw [hread]; rfl⟩
  · exact .inr ⟨_, by rw [hread]; rfl, rfl⟩

/-- **A token of a text** is one of the text that is cut off at the end of a line, unless the cut
falls into it. -/
theorem scan_line {pos : Nat} {c : Char} {kind : TokenKind} {n : Nat}
    (h : scan pos c (line ++ '\n' :: rest) = .ok (kind, n)) :
    (n ≤ line.length ∧ scan pos c (line ++ ['\n']) = .ok (kind, n)) ∨
      ∃ e, scan pos c (line ++ ['\n']) = .error e ∧ e.isIncomplete = true := by
  by_cases hd : c = '"'
  · subst hd
    exact scanString_line stopsAtQuote_doubleQuoted h
  by_cases hs : c = '\''
  · subst hs
    exact scanString_line stopsAtQuote_singleQuoted h
  · rw [scan_line_eq hd hs] at h ⊢
    exact .inl ⟨scan_length_le hd hs h, h⟩

theorem joinsLines_line (h : line ≠ []) : joinsLines (line ++ '\n' :: rest) = joinsLines line := by
  cases line with
  | nil => exact absurd rfl h
  | cons c line => rfl

/-- A comment ends with its line. -/
theorem takeWhile_comment :
    (line ++ '\n' :: rest).takeWhile (· ≠ '\n') = line.takeWhile (· ≠ '\n') :=
  takeWhile_append (by simp)

/-! One step of the reader, by the character that it meets. -/

/-- Blanks are passed over. -/
theorem tokensFrom_gap {pos : Nat} {broken : Bool} {c : Char} (hc : isGap c = true) :
    tokensFrom pos broken (c :: rest) = tokensFrom (pos + 1) broken rest := by
  rw [tokensFrom, if_pos hc]

/-- A line ends with a token, unless the line before it has. -/
theorem tokensFrom_break {pos : Nat} {broken : Bool} :
    tokensFrom pos broken ('\n' :: rest) = (tokensFrom (pos + 1) true rest).map fun tokens =>
      if broken then tokens else ⟨.lineTerm, .point pos⟩ :: tokens := by
  rw [tokensFrom, if_neg (by decide), if_pos rfl]
  rfl

/-- A backslash before a line end joins two lines. -/
theorem tokensFrom_join {pos : Nat} {broken : Bool} (h : joinsLines rest = true) :
    tokensFrom pos broken ('\\' :: rest) = tokensFrom (pos + 2) broken (rest.drop 1) := by
  rw [tokensFrom, if_neg (by decide), if_neg (by decide), if_pos (by simp [h])]

/-- A comment is passed over, and a line end behind it counts. -/
theorem tokensFrom_comment {pos : Nat} {broken : Bool} :
    tokensFrom pos broken ('#' :: rest) =
      tokensFrom (pos + 1 + (rest.takeWhile (· ≠ '\n')).length) false
        (rest.drop (rest.takeWhile (· ≠ '\n')).length) := by
  rw [tokensFrom, if_neg (by decide), if_neg (by decide), if_neg (by simp), if_pos rfl]

/-- **Everything else** is scanned as a token, and the tokens behind it follow. -/
theorem tokensFrom_scan {pos : Nat} {broken : Bool} {c : Char} (hg : isGap c = false)
    (hn : c ≠ '\n') (hj : c = '\\' → joinsLines rest = false) (hc : c ≠ '#') :
    tokensFrom pos broken (c :: rest) = (scan pos c rest).bind fun r =>
      (tokensFrom (pos + 1 + r.2) false (rest.drop r.2)).map (⟨r.1, ⟨pos, pos + r.2⟩⟩ :: ·) := by
  rw [tokensFrom, if_neg (by simp [hg]), if_neg hn, if_neg (by simpa using hj), if_neg hc]
  rfl

/-- Whether a row of tokens is what is left of another one when the text is cut off after a line
break.  Right after another break nothing is left but the end of the text. -/
def CutAfter (broken : Bool) (ts us : List Token) : Prop :=
  CutTokens ts us ∨ broken = true ∧ ∃ last : Token, last.kind = .eof ∧ us = [last]

/-- Where the cut does not follow a line break, what is left ends with one. -/
theorem CutAfter.tokens {ts us : List Token} (h : CutAfter false ts us) : CutTokens ts us := by
  rcases h with h | ⟨hb, _⟩
  · exact h
  · cases hb

/-- The line break that a text is cut off after may be met first, or follow another one. -/
theorem CutAfter.break {ts us : List Token} (h : CutAfter true ts us) (broken : Bool)
    {brk : Token} (hb : brk.kind = .lineTerm) :
    CutAfter broken (if broken then ts else brk :: ts) (if broken then us else brk :: us) := by
  cases broken with
  | true => exact h
  | false =>
      rcases h with h | ⟨_, last, hlast, rfl⟩
      · exact .inl (.cons brk h)
      · exact .inl (.here hb hlast)

/-- Whether the tokens of a text that is cut off are what is left of those of the whole text, or
the cut falls into a string. -/
def CutShort (broken : Bool) (whole cut : Except SyntaxError (List Token)) : Prop :=
  ∀ ts, whole = .ok ts → (∃ us, cut = .ok us ∧ CutAfter broken ts us) ∨
    ∃ e, cut = .error e ∧ e.isIncomplete = true

/-- What is done to the tokens of both texts leaves them cut short, if it leaves them cut. -/
theorem CutShort.map {broken broken' : Bool} {whole cut : Except SyntaxError (List Token)}
    {f : List Token → List Token} (h : CutShort broken whole cut)
    (hf : ∀ ts us, CutAfter broken ts us → CutAfter broken' (f ts) (f us)) :
    CutShort broken' (whole.map f) (cut.map f) := by
  intro ts hts
  cases whole with
  | error e => cases hts
  | ok ts' =>
      cases hts
      rcases h ts' rfl with ⟨us, rfl, hus⟩ | ⟨e, rfl, he⟩
      · exact .inl ⟨f us, rfl, hf ts' us hus⟩
      · exact .inr ⟨e, rfl, he⟩

/-- At the cut only the line break is left, and the end of the text. -/
theorem tokensFrom_cut (pos : Nat) (broken : Bool) :
    CutShort broken (tokensFrom pos broken ('\n' :: rest)) (tokensFrom pos broken ['\n']) := by
  rw [tokensFrom_break, tokensFrom_break]
  intro ts hts
  refine .inl ⟨_, by rw [tokensFrom]; rfl, ?_⟩
  cases broken with
  | true => exact .inr ⟨rfl, _, rfl, rfl⟩
  | false =>
      cases e : tokensFrom (pos + 1) true rest with
      | error e' =>
          rw [e] at hts
          cases hts
      | ok more =>
          rw [e] at hts
          cases hts
          exact .inl (.here rfl rfl)

/-- A token is read before the cut, if both texts go on alike after it. -/
theorem scan_cutShort {pos : Nat} {broken : Bool} {c : Char} {f : Nat → List Char →
      Except SyntaxError (List Token)}
    (after : ∀ n, CutShort false (f n (line.drop n ++ '\n' :: rest))
      (f n (line.drop n ++ ['\n']))) :
    CutShort broken
      ((scan pos c (line ++ '\n' :: rest)).bind fun r =>
        (f r.2 ((line ++ '\n' :: rest).drop r.2)).map (⟨r.1, ⟨pos, pos + r.2⟩⟩ :: ·))
      ((scan pos c (line ++ ['\n'])).bind fun r =>
        (f r.2 ((line ++ ['\n']).drop r.2)).map (⟨r.1, ⟨pos, pos + r.2⟩⟩ :: ·)) := by
  intro ts hts
  cases hscan : scan pos c (line ++ '\n' :: rest) with
  | error e =>
      rw [hscan] at hts
      cases hts
  | ok r =>
      rw [hscan] at hts
      rcases scan_line hscan with ⟨hle, hcut⟩ | ⟨e, hcut, he⟩
      · rw [hcut]
        simp only [Except.bind, List.drop_append_of_le_length hle] at hts ⊢
        exact (after r.2).map (fun ts us h => .inl (.cons _ h.tokens)) ts hts
      · exact .inr ⟨e, by rw [hcut]; rfl, he⟩

/-- **The tokens of a text that is cut off after a line break** are those of the text up to the
cut, unless the cut falls into a string. -/
theorem tokensFrom_line (line : List Char) (pos : Nat) (broken : Bool) (hl : ¬['\\'] <:+ line) :
    CutShort broken (tokensFrom pos broken (line ++ '\n' :: rest))
      (tokensFrom pos broken (line ++ ['\n'])) := by
  match line with
  | [] => exact tokensFrom_cut pos broken
  | c :: line =>
      have shorter : ∀ n, ¬['\\'] <:+ line.drop n := fun n h =>
        hl ((h.trans (List.drop_suffix n line)).trans (List.suffix_cons c line))
      rw [List.cons_append, List.cons_append]
      by_cases hg : isGap c = true
      · rw [tokensFrom_gap hg, tokensFrom_gap hg]
        exact tokensFrom_line line (pos + 1) broken (shorter 0)
      by_cases hn : c = '\n'
      · subst hn
        rw [tokensFrom_break, tokensFrom_break]
        exact (tokensFrom_line line (pos + 1) true (shorter 0)).map fun ts us h =>
          h.break broken rfl
      -- A backslash does not stand at the end of the line, so both texts go on alike after it.
      have joins : ∀ more, c = '\\' → joinsLines (line ++ '\n' :: more) = joinsLines line := by
        rintro more rfl
        refine joinsLines_line ?_
        rintro rfl
        exact hl List.suffix_rfl
      by_cases hj : c = '\\' ∧ joinsLines line = true
      · obtain ⟨rfl, hj⟩ := hj
        have hle : 1 ≤ line.length := by
          cases line with
          | nil => cases hj
          | cons d line => simp
        rw [tokensFrom_join ((joins _ rfl).trans hj), tokensFrom_join ((joins _ rfl).trans hj),
          List.drop_append_of_le_length hle, List.drop_append_of_le_length hle]
        exact tokensFrom_line (line.drop 1) (pos + 2) broken (shorter 1)
      by_cases hc : c = '#'
      · subst hc
        rw [tokensFrom_comment, tokensFrom_comment, takeWhile_comment, takeWhile_comment,
          List.drop_append_of_le_length (takeWhile_length_le _ _),
          List.drop_append_of_le_length (takeWhile_length_le _ _)]
        intro ts hts
        refine (tokensFrom_line _ _ false (shorter _) ts hts).imp_left ?_
        rintro ⟨us, hus, h⟩
        exact ⟨us, hus, .inl h.tokens⟩
      · have scans : ∀ more, c = '\\' → joinsLines (line ++ '\n' :: more) = false := fun more h =>
          (joins more h).trans (by simpa [h] using hj)
        rw [tokensFrom_scan (by simpa using hg) hn (scans _) hc,
          tokensFrom_scan (by simpa using hg) hn (scans _) hc]
        exact scan_cutShort (f := fun n => tokensFrom (pos + 1 + n) false) fun n =>
          tokensFrom_line (line.drop n) (pos + 1 + n) false (shorter n)
termination_by line.length
decreasing_by
  all_goals simp only [List.length_cons, List.length_drop]; omega

end Lexer

end MiniRuby
