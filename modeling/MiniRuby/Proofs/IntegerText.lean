import MiniRuby.Proofs.Arithmetic
import MiniRuby.Proofs.Token.Spelling

/-!
# The integer that a text begins with

What a text begins with is an integer by its digits, whatever their number: that of the decimal that
they are, with the sign before them.  The integer is read from the front, and each digit is checked
to leave the number a word.  No number is lost by that, since it never gets smaller by more digits.
But it is only the digits that have to make a word, and the sign comes after them, so the least word
is refused: its digits are those of a number that is no word.

* `Integer.readDigits_eq`: reading digits is exact or refused.
* `Integer.leading_text`: the text of an integer begins with that integer.
* `to_i_exact`: so a text is read exactly or refused, unless it begins with the least word.
-/

namespace MiniRuby

namespace Integer

variable {a : Int64} {c : Char} {cs ds : List Char} {k d : Nat}

/-! ### Decimals -/

/-- The digits that characters begin with, underscores anywhere between them. -/
def leadingDigits (cs : List Char) : List Char :=
  (cs.takeWhile fun c => c.isDigit || c = '_').filter Char.isDigit

/-- The integer that characters begin with: a decimal, perhaps with a sign. -/
def signed : List Char → Int
  | '-' :: ds => -(Decimal.natOfDigits (leadingDigits ds) : Int)
  | '+' :: ds => Decimal.natOfDigits (leadingDigits ds)
  | ds => Decimal.natOfDigits (leadingDigits ds)

/-- The integer that a text begins with, after the blanks. -/
def leading (cs : List Char) : Int := signed (cs.dropWhile Text.isBlank)

/-- The number whose digits go on with a list of them. -/
def continued (k : Nat) (ds : List Char) : Nat :=
  ds.foldl (fun n c => 10 * n + (c.toNat - '0'.toNat)) k

theorem leadingDigits_underscore : leadingDigits ('_' :: cs) = leadingDigits cs := rfl

theorem leadingDigits_digit (hc : c.isDigit = true) :
    leadingDigits (c :: cs) = c :: leadingDigits cs := by
  simp [leadingDigits, hc]

theorem leadingDigits_other (hc : c ≠ '_') (hd : c.isDigit = false) :
    leadingDigits (c :: cs) = [] := by
  simp [leadingDigits, hc, hd]

theorem leadingDigits_digits (h : ∀ c ∈ ds, c.isDigit = true) : leadingDigits ds = ds := by
  rw [leadingDigits, List.takeWhile_eq_self_iff.mpr fun c hc => by simp [h c hc],
    List.filter_eq_self.mpr h]

/-- A number does not get smaller by more digits. -/
theorem le_continued (k : Nat) (ds : List Char) : k ≤ continued k ds := by
  induction ds generalizing k with
  | nil => exact le_rfl
  | cons c ds ih => exact le_trans (by omega) (ih (10 * k + (c.toNat - '0'.toNat)))

/-! ### Reading digits -/

/-- One more digit is exact or refused. -/
theorem shift_eq (ha : a.toInt = k) (hd : d < 10) :
    (do add (← mul a 10) (.ofNat d)) = ofInt (10 * k + d : Nat) := by
  have digit : (Int64.ofNat d).toInt = d := Int64.toInt_ofNat_of_lt (by omega)
  have ten : (10 : Int64).toInt = 10 := by decide
  rw [mul, ha, ten]
  refine ofInt_bind_eq (fun fits => ?_) fun large => ?_
  · have sum : (k * 10 + d : Int) = (10 * k + d : Nat) := by omega
    rw [add, toInt_ofInt fits, digit, sum]
  · unfold Fits at large ⊢
    omega

/-- **Reading digits** is exact or refused. -/
theorem readDigits_eq (ha : a.toInt = k) :
    readDigits a cs = ofInt (continued k (leadingDigits cs)) := by
  induction cs generalizing a k with
  | nil => exact (ha ▸ ofInt_toInt a).symm
  | cons c cs ih =>
      rw [readDigits]
      by_cases underscore : c = '_'
      · rw [if_pos underscore, underscore, leadingDigits_underscore]
        exact ih ha
      by_cases digit : c.isDigit = true
      · rw [if_neg underscore, if_pos digit, leadingDigits_digit digit]
        have small : c.toNat - '0'.toNat < 10 := by
          have high : c.toNat ≤ 57 := (Char.isDigit_iff_toNat.mp digit).2
          change c.toNat - 48 < 10
          omega
        have first : (do readDigits (← add (← mul a 10) (.ofNat (c.toNat - '0'.toNat))) cs) =
            ofInt (10 * k + (c.toNat - '0'.toNat) : Nat) >>= fun n => readDigits n cs :=
          (bind_assoc _ _ _).symm.trans (congrArg (· >>= _) (shift_eq ha small))
        rw [first]
        refine ofInt_bind_eq (fun fits => ih (toInt_ofInt fits)) fun large => ?_
        have more := le_continued (10 * k + (c.toNat - '0'.toNat)) (leadingDigits cs)
        change ¬ Fits (continued (10 * k + (c.toNat - '0'.toNat)) _)
        unfold Fits at large ⊢
        omega
      · rw [if_neg underscore, if_neg digit,
          leadingDigits_other underscore (Bool.eq_false_iff.mpr digit)]
        exact (ha ▸ ofInt_toInt a).symm

/-! ### Reading a text -/

theorem readSign_cases (cs : List Char) : (readSign cs).1 = 1 ∨ (readSign cs).1 = -1 := by
  unfold readSign
  split
  · exact .inr rfl
  · exact .inl rfl
  · exact .inl rfl

theorem signed_eq (cs : List Char) :
    signed cs = (readSign cs).1.toInt * Decimal.natOfDigits (leadingDigits (readSign cs).2) := by
  have one : (1 : Int64).toInt = 1 := by decide
  have minus : (-1 : Int64).toInt = -1 := by decide
  fun_cases signed cs with
  | case1 ds => rw [readSign, minus, neg_one_mul]
  | case2 ds => rw [readSign, one, one_mul]
  | case3 ds no_minus no_plus => rw [readSign.eq_3 _ no_minus no_plus, one, one_mul]

/-- A number that is no word is refused with a sign, too, and that is right unless the sign makes it
the least word. -/
theorem signed_ofInt {sign : Int64} (h : sign = 1 ∨ sign = -1) (n : Nat) :
    (sign * ·) <$> ofInt n = if sign.toInt * n = -9223372036854775808 then .error .overflow
      else ofInt (sign.toInt * n) := by
  rcases h with rfl | rfl
  · have one : (1 : Int64).toInt = 1 := by decide
    rw [funext Int64.one_mul, one, one_mul, if_neg (by omega)]
    exact id_map _
  · have minus : (-1 : Int64).toInt = -1 := by decide
    rw [minus, neg_one_mul]
    by_cases fits : Fits n
    · have word : Fits (-n) ∧ (-n : Int) ≠ -9223372036854775808 := by
        unfold Fits at fits ⊢
        omega
      have negated : -1 * Int64.ofInt n = Int64.ofInt (-n) := by
        rw [Int64.neg_mul, Int64.one_mul, Int64.ofInt_neg]
      rw [ofInt_of_fits fits, if_neg word.2, ofInt_of_fits word.1, ← negated]
      rfl
    · rw [ofInt_of_not_fits fits]
      split_ifs with least
      · rfl
      · have beyond : ¬ Fits (-n) := by
          unfold Fits at fits ⊢
          omega
        rw [ofInt_of_not_fits beyond]
        rfl

/-- **Reading a text** is exact or refused, unless it begins with the least word. -/
theorem read_eq (cs : List Char) :
    read cs = if leading cs = -9223372036854775808 then .error .overflow
      else ofInt (leading cs) := by
  let rest := cs.dropWhile Text.isBlank
  have zero : (0 : Int64).toInt = (0 : Nat) := by decide
  change ((readSign rest).1 * ·) <$> readDigits 0 (readSign rest).2 = _
  rw [readDigits_eq zero, leading, signed_eq]
  exact signed_ofInt (readSign_cases rest) _

example : read " -1_024 lines".toList = .ok (-1024) := by cbv

/-! ### The text of an integer -/

theorem isBlank_digit (hc : c.isDigit = true) : Text.isBlank c = false := by
  have range := Char.isDigit_iff_toNat.mp hc
  change 48 ≤ c.toNat ∧ c.toNat ≤ 57 at range
  simp [Text.isBlank]
  omega

/-- Digits stand for the decimal that they are. -/
theorem leading_digits (h : ∀ c ∈ ds, c.isDigit = true) :
    leading ds = Decimal.natOfDigits ds := by
  have bare : ds.dropWhile Text.isBlank = ds := by
    cases ds with
    | nil => rfl
    | cons c ds => exact List.dropWhile_cons_of_neg (by simp [isBlank_digit (h c (.head _))])
  rw [leading, bare]
  unfold signed
  split
  · exact absurd (h '-' (.head _)) (by decide)
  · exact absurd (h '+' (.head _)) (by decide)
  · rw [leadingDigits_digits h]

/-- **The text of an integer** begins with it. -/
theorem leading_text (a : Int64) : leading (text a).toList = a.toInt := by
  rw [text, Int.toString_eq_repr, Int.repr_eq_if]
  have digits (n : Nat) : ∀ c ∈ Nat.toDigits 10 n, c.isDigit = true := fun c =>
    Nat.isDigit_of_mem_toDigits (by decide) (by decide)
  split
  · rw [Nat.toList_repr, leading_digits (digits _), Lexer.natOfDigits_toDigits]
    omega
  · rw [String.toList_append, Nat.toList_repr]
    change -(Decimal.natOfDigits (leadingDigits (Nat.toDigits 10 _)) : Int) = _
    rw [leadingDigits_digits (digits _), Lexer.natOfDigits_toDigits]
    omega

end Integer

/-! ### The native methods -/

namespace Run

/-- Whether an action answers an integer on a machine, or, if that is the value of no word or of the
least one, fails with a fault of range. -/
def ReadsOn (m : Machine) (i : Int) (x : Run Value) : Prop :=
  if Integer.Fits i ∧ i ≠ -9223372036854775808 then x.AnswersOn m i else x.RefusesOn m .range

theorem ReadsOn.congr {m : Machine} {i : Int} {x y : Run Value} (same : x m = y m)
    (h : y.ReadsOn m i) : x.ReadsOn m i := by
  unfold ReadsOn AnswersOn RefusesOn at *
  rwa [same]

/-- A word is answered, unless it is the least one. -/
theorem ReadsOn.word {m : Machine} {a : Int64} {x : Run Value} (h : x.ReadsOn m a.toInt) :
    if a = Int64.minValue then x.RefusesOn m .range else x m = .done (.int a) m := by
  unfold ReadsOn at h
  split_ifs with least
  · rwa [if_neg fun other => other.2 (Integer.toInt_eq_minValue_iff.mpr least)] at h
  · rw [if_pos ⟨Integer.toInt_fits a, fun e => least (Integer.toInt_eq_minValue_iff.mp e)⟩] at h
    obtain ⟨r, value, answers⟩ := h
    rwa [Int64.toInt_inj.mp value] at answers

end Run

/-- Whether the instances of a class have a native method by a name that takes no arguments, and a
property holds of what it does on one of them. -/
def Value.Responds (self : Value) (owner : ClassId) (name : String) (P : Run Value → Prop) : Prop :=
  ∃ arity op, Catalogue.native? owner name = some (arity, op) ∧ arity.accepts 0 = true ∧
    ∀ fuel invoke, P (op.run fuel invoke self [])

theorem readsOn_read (m : Machine) (cs : List Char) :
    Run.ReadsOn m (Integer.leading cs) (Value.int <$> Run.ofExcept (Integer.read cs)) := by
  rw [Run.ReadsOn, Integer.read_eq]
  split_ifs with exact least least
  · exact absurd least exact.2
  · refine ⟨.ofInt _, Integer.toInt_ofInt exact.1, ?_⟩
    rw [Integer.ofInt_of_fits exact.1]
    rfl
  · exact ⟨.overflow, rfl, rfl⟩
  · have beyond : ¬ Integer.Fits (Integer.leading cs) := fun fits => exact ⟨fits, least⟩
    refine ⟨.overflow, rfl, ?_⟩
    rw [Integer.ofInt_of_not_fits beyond]
    rfl

theorem responds_to_i (m : Machine) (id : StringId) :
    Value.Responds (.str id) .string "to_i"
      (Run.ReadsOn m (Integer.leading (m.heap.text id).toList)) := by
  refine ⟨.exact 0, .string .toI, by decide +kernel, rfl, fun _ _ => ?_⟩
  exact (readsOn_read m (m.heap.text id).toList).congr rfl

theorem Heap.text_newString (h : Heap) (cls : ClassId) (text : String) :
    (h.newString cls text).2.text ⟨h.strings.size⟩ = text := by
  simp [Heap.newString, Heap.text, Heap.string]

/-- **A text is read exactly or refused.**  The native method `to_i` answers the integer that the
text begins with, unless that is no word, or the least one.  Then it fails with a fault of range.
So the text that `to_s` makes of an integer is read back, unless the integer is the least one. -/
theorem to_i_exact (m : Machine) :
    (∀ id, Value.Responds (.str id) .string "to_i"
      (Run.ReadsOn m (Integer.leading (m.heap.text id).toList))) ∧
    ∀ a : Int64, Value.Responds (.int a) .integer "to_s" fun x =>
      ∃ id m', x m = .done (.str id) m' ∧
        m' = { m with heap := (m.heap.newString .string (Integer.text a)).2 } ∧
        Value.Responds (.str id) .string "to_i" fun y =>
          if a = Int64.minValue then y.RefusesOn m' .range else y m' = .done (.int a) m' := by
  refine ⟨responds_to_i m, fun a => ?_⟩
  refine ⟨.exact 0, .integer .toS, by decide +kernel, rfl, fun _ _ => ⟨_, _, rfl, rfl, ?_⟩⟩
  let m' : Machine := { m with heap := (m.heap.newString .string (Integer.text a)).2 }
  obtain ⟨arity, op, known, taken, reads⟩ := responds_to_i m' ⟨m.heap.strings.size⟩
  have text : Integer.leading (m'.heap.text ⟨m.heap.strings.size⟩).toList = a.toInt := by
    rw [Heap.text_newString, Integer.leading_text]
  rw [text] at reads
  exact ⟨arity, op, known, taken, fun fuel invoke => (reads fuel invoke).word⟩

end MiniRuby
