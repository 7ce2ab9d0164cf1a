import MiniRuby.Proofs.Datum
import MiniRuby.Proofs.Token.Line

/-!
# What is read from the text of a string

The text of a string value is written between double quotes.  Quotes, backslashes and control
characters are escaped, and the reader knows these escapes but for one: a control character that is
not among the five that are written by a letter or a digit is written by its code, as in `\x07`, and
to the reader a backslash before an `x` stands for the `x`.  So the text is always that of one
string, but where there was such a character there are the `x` and the digits of its code.

* `Text.reread`: the string that is read.
* `Text.reread_eq_iff`: it is the one that was written, unless that has such a character.
* `tokenize_inspect`: what is read from the text of a string.
-/

namespace MiniRuby

namespace Text

/-- Whether a character is a control character that is written by its code. -/
def IsCoded (c : Char) : Prop :=
  isControl c = true ∧ c ∉ ['\n', '\t', '\r', '\x1b', '\x00']

instance (c : Char) : Decidable (IsCoded c) := inferInstanceAs (Decidable (_ ∧ _))

/-- What is read where a character was written. -/
def rereadChar (c : Char) : List Char := if IsCoded c then 'x' :: hexPair c.toNat else [c]

/-- What is read where a string was written. -/
def reread (s : String) : String := String.ofList (s.toList.flatMap rereadChar)

theorem isPlain_iff {s : String} : IsPlain s ↔ ∀ c ∈ s.toList, ¬IsCoded c := by
  simp only [IsPlain, IsCoded, not_and, not_not]

/-- The digits of a code are neither quotes nor backslashes, nor control characters. -/
theorem hexPair_plain {c d : Char} (hc : IsCoded c) (hd : d ∈ hexPair c.toNat) :
    d ≠ '"' ∧ d ≠ '\\' ∧ isControl d = false := by
  have digits : ∀ n < 160,
      (hexPair n).all (fun d => d ≠ '"' && d ≠ '\\' && !isControl d) = true := by
    decide +kernel
  have code := hc.1
  simp only [isControl, Bool.or_eq_true, Bool.and_eq_true, decide_eq_true_eq] at code
  have digit := List.all_eq_true.mp (digits c.toNat (by omega)) d hd
  simpa [and_assoc] using digit

theorem rereadChar_plain {c d : Char} (hd : d ∈ rereadChar c) : ¬IsCoded d := by
  unfold rereadChar at hd
  split at hd
  · rename_i hc
    rcases List.mem_cons.mp hd with rfl | hd
    · decide
    · rintro ⟨control, -⟩
      simp [(hexPair_plain hc hd).2.2] at control
  · rwa [List.mem_singleton.mp hd]

theorem reread_of_isPlain {s : String} (h : IsPlain s) : reread s = s := by
  have chars : ∀ cs : List Char, (∀ c ∈ cs, ¬IsCoded c) → cs.flatMap rereadChar = cs := by
    intro cs hc
    induction cs with
    | nil => rfl
    | cons c cs ih =>
        obtain ⟨first, more⟩ := List.forall_mem_cons.mp hc
        rw [List.flatMap_cons, rereadChar, if_neg first, ih more, List.singleton_append]
  rw [reread, chars _ (isPlain_iff.mp h), String.ofList_toList]

/-- A string is read back if none of its characters is written by its code, and only then. -/
theorem reread_eq_iff {s : String} : reread s = s ↔ IsPlain s := by
  refine ⟨fun h => isPlain_iff.mpr fun c hc => ?_, reread_of_isPlain⟩
  -- Whatever is read back has no such characters, and here it is the string itself.
  rw [← h, reread, String.toList_ofList] at hc
  obtain ⟨_, -, hc⟩ := List.mem_flatMap.mp hc
  exact rereadChar_plain hc

end Text

namespace Lexer

variable {rest : List Char}

/-- A reader that reads what each character is written by reads what they all are written by, up to
the quote. -/
theorem read_escaped {read : List Char → Option StringTail} {escape back : Char → List Char}
    {quote : Char} (close : read (quote :: rest) = some ⟨[], 1⟩)
    (char : ∀ c more, read (escape c ++ more) =
      (read more).map (.push (back c) (escape c).length)) (cs : List Char) :
    read (cs.flatMap escape ++ quote :: rest) =
      some ⟨cs.flatMap back, (cs.flatMap escape).length + 1⟩ := by
  induction cs with
  | nil => exact close
  | cons c cs ih =>
      rw [List.flatMap_cons, List.append_assoc, char, ih]
      simp [StringTail.push]
      omega

theorem doubleQuoted?_char {c : Char} {more : List Char} (hq : c ≠ '"') (hb : c ≠ '\\') :
    doubleQuoted? (c :: more) = (doubleQuoted? more).map (.push [c] 1) := by
  simp [doubleQuoted?, hb]

theorem doubleQuoted?_chars {cs more : List Char} (h : ∀ c ∈ cs, c ≠ '"' ∧ c ≠ '\\') :
    doubleQuoted? (cs ++ more) = (doubleQuoted? more).map (.push cs cs.length) := by
  induction cs with
  | nil => cases h : doubleQuoted? more <;> simp [StringTail.push, h]
  | cons c cs ih =>
      obtain ⟨⟨hq, hb⟩, h⟩ := List.forall_mem_cons.mp h
      rw [List.cons_append, doubleQuoted?_char hq hb, ih h, Option.map_map]
      rfl

theorem doubleQuoted?_of_coded {c : Char} (hc : Text.IsCoded c) (more : List Char) :
    doubleQuoted? (Text.inspectChar c ++ more) =
      (doubleQuoted? more).map (.push (Text.rereadChar c) (Text.inspectChar c).length) := by
  have escape : Text.inspectChar c = '\\' :: 'x' :: Text.hexPair c.toNat := by
    obtain ⟨control, free⟩ := hc
    simp only [List.mem_cons, List.not_mem_nil, or_false, not_or] at free
    have quote : c ≠ '"' := by rintro rfl; cases control
    have backslash : c ≠ '\\' := by rintro rfl; cases control
    simp [Text.inspectChar, quote, backslash, free, control]
  have digits := @doubleQuoted?_chars _ more fun d hd =>
    ⟨(Text.hexPair_plain hc hd).1, (Text.hexPair_plain hc hd).2.1⟩
  rw [escape, Text.rereadChar, if_pos hc, List.cons_append, List.cons_append]
  change (doubleQuoted? (Text.hexPair c.toNat ++ more)).map (StringTail.push ['x'] 2) = _
  rw [digits, Option.map_map]
  rfl

theorem doubleQuoted?_of_not_coded {c : Char} (hc : ¬Text.IsCoded c) (more : List Char) :
    doubleQuoted? (Text.inspectChar c ++ more) =
      (doubleQuoted? more).map (.push (Text.rereadChar c) (Text.inspectChar c).length) := by
  rw [Text.rereadChar, if_neg hc]
  unfold Text.inspectChar
  -- Seven characters are written by an escape that is known, and the other ones by themselves.
  iterate 7
    split
    · subst c
      rfl
  rw [if_neg (by simp_all [Text.IsCoded])]
  exact doubleQuoted?_char ‹_› ‹_›

/-- **What is read where a string was written.** -/
theorem doubleQuoted?_inspect (cs : List Char) :
    doubleQuoted? (cs.flatMap Text.inspectChar ++ '"' :: rest) =
      some ⟨cs.flatMap Text.rereadChar, (cs.flatMap Text.inspectChar).length + 1⟩ :=
  read_escaped rfl (fun c more => if hc : Text.IsCoded c then doubleQuoted?_of_coded hc more
    else doubleQuoted?_of_not_coded hc more) cs

theorem scan_inspect (pos : Nat) (s : String) :
    scan pos '"' (s.toList.flatMap Text.inspectChar ++ '"' :: rest) =
      .ok (.str (Text.reread s), (s.toList.flatMap Text.inspectChar).length + 1) := by
  change scanString pos _ (doubleQuoted? _) = _
  rw [doubleQuoted?_inspect]
  rfl

end Lexer

/-- **What is read from the text of a string**: one string, which is the one that was written if and
only if none of its characters is written by its code. -/
theorem tokenize_inspect (s : String) :
    (∃ tokens, tokenize (Text.inspect s).toList = .ok tokens ∧
      tokens.map Token.kind = [.str (Text.reread s), .eof]) ∧
    (Text.reread s = s ↔ Text.IsPlain s) := by
  refine ⟨?_, Text.reread_eq_iff⟩
  rw [Text.inspect, String.toList_ofList, tokenize, List.cons_append,
    Lexer.tokensFrom_scan (c := '"') rfl (by decide) (absurd · (by decide)) (by decide),
    Lexer.scan_inspect]
  simp only [Except.bind]
  rw [List.drop_eq_nil_of_le (by simp), Lexer.tokensFrom]
  exact ⟨_, rfl, rfl⟩

/-- Of the bell, which is written by its code, the letter and the digits are read. -/
example : Text.reread "\x07" = "x07" := by
  decide +kernel

end MiniRuby
