import MiniRuby.Decimal.Reading
import MiniRuby.Proofs.Decimal.Shortest
import MiniRuby.Proofs.Token.Spelling

/-!
# Numbers are told apart by their texts

A number is written with its shortest digits, and these are what is read from the text
(`reads_positional`, `reads_scientific`), whether it is written with an exponent or not.  As the
digits tell the magnitude of a number, its text tells the number.

* `read?_eq`: a number is read as a decimal first.
* `write_injective`: different numbers have different texts.
-/

namespace MiniRuby.Decimal

/-! ### Reading decimals -/

/-- The digits after the point, if there is one, and what follows. -/
def splitFraction : List Char → List Char × List Char
  | '.' :: ds => (ds.takeWhile Char.isDigit, ds.dropWhile Char.isDigit)
  | rest => ([], rest)

/-- The exponent that follows the digits. -/
def scanExponent? : List Char → Option Int
  | [] => some 0
  | 'e' :: ds => readExponent? ds
  | _ => none

/-- Read an unsigned decimal number, as digits and an exponent. -/
def scan? (cs : List Char) : Option Digits :=
  let whole := cs.takeWhile Char.isDigit
  let (fraction, rest) := splitFraction (cs.drop whole.length)
  if whole.isEmpty then none
  else (scanExponent? rest).map fun exponent =>
    ⟨natOfDigits (whole ++ fraction), exponent - fraction.length⟩

/-- **A number is read as a decimal**, and then it is rounded. -/
theorem read?_eq (cs : List Char) :
    read? cs = (scan? cs).map fun d => toFloat d.digits d.exponent := by
  unfold read? scan?
  dsimp only
  generalize cs.takeWhile Char.isDigit = whole
  generalize cs.drop whole.length = rest
  by_cases empty : whole.isEmpty = true
  · simp only [if_pos empty, Option.map_none]
  simp only [if_neg empty]
  fun_cases splitFraction rest with
  | case1 ds =>
      dsimp only
      generalize after : ds.dropWhile Char.isDigit = rest
      fun_cases scanExponent? rest <;> simp only [after] <;> simp_all [Function.comp_def]
  | case2 rest other =>
      dsimp only
      fun_cases scanExponent? rest <;> simp_all [Function.comp_def]

variable {whole fraction ds : List Char} {style : Style} {lead : Int} {d : Digits}

/-- Whether all characters are digits. -/
abbrev AllDigits (cs : List Char) : Prop := ∀ c ∈ cs, c.isDigit = true

/-- A text that starts with digits is read as those, a fraction and an exponent. -/
theorem scan?_append (hw : AllDigits whole) (some : whole ≠ []) (rest : List Char)
    (stop : ∀ c ∈ rest.head?, c.isDigit = false) :
    scan? (whole ++ rest) = (scanExponent? (splitFraction rest).2).map fun exponent =>
      ⟨natOfDigits (whole ++ (splitFraction rest).1),
        exponent - (splitFraction rest).1.length⟩ := by
  have first : (whole ++ rest).takeWhile Char.isDigit = whole := by
    rw [Lexer.takeWhile_append stop, List.takeWhile_eq_self_iff.mpr hw]
  rw [scan?, first, List.drop_left]
  dsimp only
  rw [if_neg (by simpa using some)]

/-- A point with digits behind it is a fraction, up to what is no digit. -/
theorem splitFraction_point (hf : AllDigits fraction) (rest : List Char)
    (stop : ∀ c ∈ rest.head?, c.isDigit = false) :
    splitFraction ('.' :: (fraction ++ rest)) = (fraction, rest) := by
  have first : (fraction ++ rest).takeWhile Char.isDigit = fraction := by
    rw [Lexer.takeWhile_append stop, List.takeWhile_eq_self_iff.mpr hf]
  have whole := (fraction ++ rest).takeWhile_append_dropWhile (p := Char.isDigit)
  rw [first] at whole
  rw [splitFraction, first, List.append_cancel_left whole]

/-! ### Digits -/

theorem natOfDigits_eq (cs : List Char) : natOfDigits cs = Nat.ofDigitChars 10 cs 0 :=
  Nat.ofDigitChars_eq_foldl.symm

/-- Zeros in front do not count. -/
theorem natOfDigits_zeros_append (n : Nat) (cs : List Char) :
    natOfDigits (List.replicate n '0' ++ cs) = natOfDigits cs := by
  rw [natOfDigits_eq, natOfDigits_eq, Nat.ofDigitChars_append, Nat.ofDigitChars_replicate_zero,
    Nat.mul_zero]

/-- Each zero behind is a factor of ten. -/
theorem natOfDigits_append_zeros (n : Nat) (cs : List Char) :
    natOfDigits (cs ++ List.replicate n '0') = natOfDigits cs * 10 ^ n := by
  rw [natOfDigits_eq, natOfDigits_eq, Nat.ofDigitChars_append, Nat.ofDigitChars_replicate_zero,
    Nat.mul_comm]

theorem AllDigits.numeral (hd : AllDigits ds) (some : ds ≠ []) :
    ds.isEmpty = false ∧ ds.all Char.isDigit = true := by
  simpa using And.intro some hd

/-- An exponent may have no sign. -/
theorem readExponent?_digits (hd : AllDigits ds) (some : ds ≠ []) :
    readExponent? ds = Option.some (natOfDigits ds : Int) := by
  unfold readExponent?
  split
  rename_i negative digits h
  split at h
  · exact absurd (hd '-' (.head _)) (by decide)
  · exact absurd (hd '+' (.head _)) (by decide)
  · cases h
    simp [hd.numeral some]

theorem readExponent?_plus (hd : AllDigits ds) (some : ds ≠ []) :
    readExponent? ('+' :: ds) = Option.some (natOfDigits ds : Int) := by
  simp [readExponent?, hd.numeral some]

theorem readExponent?_minus (hd : AllDigits ds) (some : ds ≠ []) :
    readExponent? ('-' :: ds) = Option.some (-natOfDigits ds : Int) := by
  simp [readExponent?, hd.numeral some]

/-! ### Written digits -/

/-- A natural number is written in digits. -/
theorem allDigits_toDigits (n : Nat) : AllDigits (Nat.toDigits 10 n) := fun _ =>
  Nat.isDigit_of_mem_toDigits (by decide) (by decide)

theorem allDigits_zeros (n : Nat) : AllDigits (List.replicate n '0') := fun c mem => by
  rw [List.eq_of_mem_replicate mem]
  rfl

theorem AllDigits.append {cs ds : List Char} (h : AllDigits cs) (h' : AllDigits ds) :
    AllDigits (cs ++ ds) := fun c mem => (List.mem_append.mp mem).elim (h c) (h' c)

/-- Whether a text is read as a decimal of a certain value. -/
def Reads (cs : List Char) (v : ℚ) : Prop := ∃ d, scan? cs = some d ∧ d.value = v

/-- Zeros after the digits make up for a smaller exponent. -/
theorem natOfDigits_append_zeros_mul {n : Nat} {e z : Int} (h : n + e = z) :
    (natOfDigits (ds ++ List.replicate n '0') : ℚ) * 10 ^ e = natOfDigits ds * 10 ^ z := by
  rw [natOfDigits_append_zeros, Nat.cast_mul, Nat.cast_pow, Nat.cast_ofNat, mul_assoc,
    ← zpow_natCast, ← zpow_add₀ (by norm_num), h]

/-- **Digits with a point** are read as the digits, moved by those behind the point. -/
theorem reads_point (hw : AllDigits whole) (some : whole ≠ []) (hf : AllDigits fraction) :
    Reads (whole ++ '.' :: fraction)
      (natOfDigits (whole ++ fraction) * 10 ^ (-fraction.length : Int)) := by
  have point := splitFraction_point hf [] nofun
  rw [List.append_nil] at point
  refine ⟨_, (scan?_append hw some _ (by simp)).trans (by rw [point]; rfl), ?_⟩
  rw [Digits.value]
  dsimp only
  rw [zero_sub]

/-- **What is written without an exponent** is read as the decimal. -/
theorem reads_positional (hd : AllDigits ds) (some : ds ≠ []) :
    Reads (positional ds lead).toList (natOfDigits ds * 10 ^ (lead + 1 - ds.length)) := by
  unfold positional
  split
  · have text : ("0." ++ zeros (-lead - 1).toNat ++ String.ofList ds).toList =
        ['0'] ++ '.' :: (List.replicate (-lead - 1).toNat '0' ++ ds) := by
      simp [zeros]
    have value : natOfDigits (['0'] ++ (List.replicate (-lead - 1).toNat '0' ++ ds)) =
        natOfDigits ds := natOfDigits_zeros_append ((-lead - 1).toNat + 1) ds
    have read : Reads (['0'] ++ '.' :: (List.replicate (-lead - 1).toNat '0' ++ ds)) _ :=
      reads_point (allDigits_zeros 1) (by decide) ((allDigits_zeros _).append hd)
    rw [text]
    convert read using 2
    · rw [value]
    · rw [List.length_append, List.length_replicate]
      congr 1
      omega
  · let whole := lead.toNat + 1
    change Reads (if ds.length ≤ whole then _ else _ : String).toList _
    split
    · have text : (String.ofList ds ++ zeros (whole - ds.length) ++ ".0").toList =
          (ds ++ List.replicate (whole - ds.length) '0') ++ '.' :: ['0'] := by
        simp [zeros]
      have read : Reads (ds ++ List.replicate (whole - ds.length) '0' ++ '.' :: ['0']) _ :=
        reads_point (hd.append (allDigits_zeros _)) (by simp [some]) (allDigits_zeros 1)
      rw [text]
      convert read using 1
      have padded : ds ++ List.replicate (whole - ds.length) '0' ++ ['0'] =
          ds ++ List.replicate (whole - ds.length + 1) '0' := by
        rw [List.append_assoc, List.replicate_succ']
      rw [padded, natOfDigits_append_zeros_mul (z := lead + 1 - ds.length)]
      simp only [List.length_singleton]
      omega
    · have text : (String.ofList (ds.take whole) ++ "." ++ String.ofList (ds.drop whole)).toList =
          ds.take whole ++ '.' :: ds.drop whole := by
        simp
      have read : Reads (ds.take whole ++ '.' :: ds.drop whole) _ :=
        reads_point (fun c mem => hd c (List.mem_of_mem_take mem)) (by simp [whole, some])
          (fun c mem => hd c (List.mem_of_mem_drop mem))
      rw [text]
      convert read using 2
      · rw [List.take_append_drop]
      · rw [List.length_drop]
        congr 1
        omega

/-- **Digits with an exponent** are read as the digits times a power of ten. -/
theorem reads_exponent {tail : List Char} (hw : AllDigits whole) (some : whole ≠ [])
    (he : readExponent? tail = Option.some lead) :
    Reads (whole ++ 'e' :: tail) (natOfDigits whole * 10 ^ lead) := by
  refine ⟨⟨natOfDigits whole, lead⟩, (scan?_append hw some _ (by simp)).trans ?_, rfl⟩
  have bare : splitFraction ('e' :: tail) = ([], 'e' :: tail) := rfl
  rw [bare]
  simp [scanExponent?, he]

/-- Digits with a point and an exponent are read as both say. -/
theorem reads_point_exponent {tail : List Char} (hw : AllDigits whole) (some : whole ≠ [])
    (hf : AllDigits fraction) (he : readExponent? tail = Option.some lead) :
    Reads (whole ++ '.' :: (fraction ++ 'e' :: tail))
      (natOfDigits (whole ++ fraction) * 10 ^ (lead - fraction.length)) := by
  refine ⟨⟨natOfDigits (whole ++ fraction), lead - fraction.length⟩,
    (scan?_append hw some _ (by simp)).trans ?_, rfl⟩
  rw [splitFraction_point hf _ (by simp)]
  simp [scanExponent?, he]

/-- The exponent is read back, with its sign and the zeros before it. -/
theorem readExponent?_written (style : Style) (lead : Int) (n : Nat) :
    readExponent? ((if lead < 0 then "-" else if style.plusSign then "+" else "").toList ++
      (List.replicate n '0' ++ Nat.toDigits 10 lead.natAbs)) = Option.some lead := by
  have digits := (allDigits_zeros n).append (allDigits_toDigits lead.natAbs)
  have some : List.replicate n '0' ++ Nat.toDigits 10 lead.natAbs ≠ [] := by
    simp [Nat.toDigits_ne_nil]
  have value : natOfDigits (List.replicate n '0' ++ Nat.toDigits 10 lead.natAbs) = lead.natAbs := by
    rw [natOfDigits_zeros_append, Lexer.natOfDigits_toDigits]
  split
  · exact (readExponent?_minus digits some).trans (congrArg _ (by omega))
  · split
    · exact (readExponent?_plus digits some).trans (congrArg _ (by omega))
    · exact (readExponent?_digits digits some).trans (congrArg _ (by omega))

/-- **What is written with an exponent** is read as the decimal. -/
theorem reads_scientific (style : Style) (hd : AllDigits ds) (some : ds ≠ []) :
    Reads (scientific style ds lead).toList (natOfDigits ds * 10 ^ (lead + 1 - ds.length)) := by
  obtain ⟨d, more, rfl⟩ := List.exists_cons_of_ne_nil some
  have first : AllDigits [d] := fun c mem => hd c (List.mem_singleton.mp mem ▸ .head _)
  have exponent := readExponent?_written style lead
    (style.exponentWidth - (toString lead.natAbs).length)
  generalize tail : (if lead < 0 then "-" else if style.plusSign then "+" else "").toList ++
      (List.replicate (style.exponentWidth - (toString lead.natAbs).length) '0' ++
        Nat.toDigits 10 lead.natAbs) = rest at exponent
  have text (mantissa : String) : (mantissa ++ "e" ++ (if lead < 0 then "-" else
      if style.plusSign then "+" else "") ++ zeros (style.exponentWidth -
        (toString lead.natAbs).length) ++ toString lead.natAbs).toList =
      mantissa.toList ++ 'e' :: rest := by
    rw [← tail]
    simp [zeros, Nat.toString_eq_repr, Nat.toList_repr]
  unfold scientific
  cases more with
  | nil =>
      dsimp only
      rw [text]
      cases style.wholeMantissa with
      | true =>
          have read : Reads ([d] ++ '.' :: (['0'] ++ 'e' :: rest)) _ :=
            reads_point_exponent first (by simp) (allDigits_zeros 1) exponent
          have padded : (natOfDigits ([d] ++ List.replicate 1 '0') : ℚ) * 10 ^ (lead - 1) =
              natOfDigits [d] * 10 ^ lead := natOfDigits_append_zeros_mul (by omega)
          convert read using 1
          · simp
          · exact (by simp : _ = (natOfDigits [d] : ℚ) * 10 ^ lead).trans padded.symm
      | false =>
          convert reads_exponent first (by simp) exponent using 1
          · simp
          · simp
  | cons e more =>
      have read : Reads ([d] ++ '.' :: (e :: more ++ 'e' :: rest)) _ :=
        reads_point_exponent first (by simp) (fun c mem => hd c (.tail _ mem)) exponent
      dsimp only
      rw [text]
      convert read using 1
      · simp
      · have power : lead + 1 - (d :: e :: more).length = lead - (e :: more).length := by
          simp only [List.length_cons]
          omega
        rw [power]
        rfl

/-! ### The text of a number -/

/-- Whether infinity is written unlike all numbers, and without a sign. -/
structure Style.TellsInfinity (style : Style) : Prop where
  isNumber : scan? style.infinity.toList = none
  isSigned : style.infinity.toList.head? ≠ some '-'
  isNaN : style.infinity ≠ "NaN"

/-- The text of a number without its sign. -/
def magnitude (style : Style) (x : Float) : String :=
  if x.isInf then style.infinity
  else if x == 0 then "0.0"
  else
    let d := shortest x
    let digits := Nat.toDigits 10 d.digits
    let lead := d.exponent + digits.length - 1
    if isPositional lead then positional digits lead else scientific style digits lead

/-- What is no number has one text in all styles. -/
theorem write_nan (style : Style) {x : Float} (nan : x.isNaN = true) : write style x = "NaN" :=
  if_pos nan

/-- A number is written as its sign and its magnitude. -/
theorem write_number (style : Style) {x : Float} (number : x.isNaN = false) : write style x =
    (if x.toBits ≥ 0x8000000000000000 then "-" else "") ++ magnitude style x := by
  unfold write magnitude
  rw [if_neg (ne_true_of_eq_false number)]
  split_ifs <;> rfl

/-- **The text of a number is read as its shortest digits.** -/
theorem reads_magnitude (style : Style) {x : Float} (finite : x.isInf = false)
    (some : (x == 0) = false) : Reads (magnitude style x).toList (shortest x).value := by
  have digits := allDigits_toDigits (shortest x).digits
  have lead : (shortest x).exponent + (Nat.toDigits 10 (shortest x).digits).length - 1 + 1 -
      (Nat.toDigits 10 (shortest x).digits).length = (shortest x).exponent := by
    omega
  have value : (shortest x).value = natOfDigits (Nat.toDigits 10 (shortest x).digits) *
      10 ^ ((shortest x).exponent + (Nat.toDigits 10 (shortest x).digits).length - 1 + 1 -
        (Nat.toDigits 10 (shortest x).digits).length) := by
    rw [lead, Lexer.natOfDigits_toDigits]
    rfl
  simp only [magnitude, finite, some, Bool.false_eq_true, if_false, value]
  split
  · exact reads_positional digits Nat.toDigits_ne_nil
  · exact reads_scientific style digits Nat.toDigits_ne_nil

/-- A text is read as one number at most. -/
theorem Reads.unique {v v' : ℚ} (h : Reads ds v) (h' : Reads ds v') : v = v' := by
  obtain ⟨d, hd, rfl⟩ := h
  obtain ⟨d', hd', rfl⟩ := h'
  rw [hd] at hd'
  cases hd'
  rfl

/-- A text that is read as a magnitude has no sign. -/
theorem Reads.isSigned {v : ℚ} (h : Reads ds v) : ds.head? ≠ some '-' := by
  obtain ⟨d, hd, -⟩ := h
  intro minus
  obtain ⟨rest, rfl⟩ := List.head?_eq_some_iff.mp minus
  cases hd

section

variable {x y : Float} (h : style.TellsInfinity)

/-- A magnitude is infinite, zero or written from its shortest digits. -/
theorem magnitude_kind (style : Style) (x : Float) :
    x.isInf = true ∧ magnitude style x = style.infinity ∨
    (x.isInf = false ∧ (x == 0) = true) ∧ magnitude style x = "0.0" ∨
    (x.isInf = false ∧ (x == 0) = false) ∧ Reads (magnitude style x).toList (shortest x).value := by
  cases inf : x.isInf with
  | true => exact .inl ⟨rfl, if_pos inf⟩
  | false =>
      cases zero : x == 0 with
      | true => exact .inr (.inl ⟨⟨rfl, rfl⟩, by simp [magnitude, inf, zero]⟩)
      | false => exact .inr (.inr ⟨⟨rfl, rfl⟩, reads_magnitude style inf zero⟩)

/-- The text of zero is read as zero. -/
theorem reads_zero : Reads "0.0".toList 0 := ⟨⟨0, -1⟩, by decide, by simp [Digits.value]⟩

include h

/-- A magnitude is written without a sign. -/
theorem magnitude_unsigned (x : Float) : (magnitude style x).toList.head? ≠ some '-' := by
  rcases magnitude_kind style x with ⟨-, text⟩ | ⟨-, text⟩ | ⟨-, reads⟩
  · exact text ▸ h.isSigned
  · exact text ▸ reads_zero.isSigned
  · exact reads.isSigned

/-- The text of infinity is no decimal, in a style that tells infinity. -/
theorem not_reads_infinity {v : ℚ} : ¬ Reads style.infinity.toList v := by
  rintro ⟨d, hd, -⟩
  rw [h.isNumber] at hd
  cases hd

/-- Numbers with the same text but for the sign have the same fields. -/
theorem eq_of_magnitude (same : magnitude style x = magnitude style y) :
    scale x = scale y ∧ Decimal.fraction x = Decimal.fraction y := by
  rcases magnitude_kind style x with ⟨hx, text⟩ | ⟨hx, text⟩ | ⟨hx, reads⟩ <;>
    rcases magnitude_kind style y with ⟨hy, text'⟩ | ⟨hy, text'⟩ | ⟨hy, reads'⟩
  · have := isInf_iff.mp hx
    have := isInf_iff.mp hy
    omega
  · exact (not_reads_infinity h (text ▸ same ▸ text' ▸ reads_zero)).elim
  · exact (not_reads_infinity h (text ▸ same ▸ reads')).elim
  · exact (not_reads_infinity h (text' ▸ same ▸ text ▸ reads_zero)).elim
  · have := beq_zero_iff.mp hx.2
    have := beq_zero_iff.mp hy.2
    omega
  · have value := (text ▸ same ▸ reads').unique reads_zero
    exact absurd value (value_shortest_pos hy.2).ne'
  · exact (not_reads_infinity h (text' ▸ same ▸ reads)).elim
  · have value := (text' ▸ same ▸ reads).unique reads_zero
    exact absurd value (value_shortest_pos hx.2).ne'
  · exact eq_of_shortest hx.2 hy.2 (reads.unique (same ▸ reads'))

/-- A magnitude never has the text of what is no number. -/
theorem magnitude_ne_nan (x : Float) : magnitude style x ≠ "NaN" := by
  intro nan
  rcases magnitude_kind style x with ⟨-, text⟩ | ⟨-, text⟩ | ⟨-, d, reads, -⟩
  · exact h.isNaN (text.symm.trans nan)
  · exact absurd (text.symm.trans nan) (by decide)
  · rw [nan] at reads
    cases reads

omit h in
/-- A sign is told from what follows it. -/
theorem sign_append_inj {p q : Prop} [Decidable p] [Decidable q] {s t : String}
    (hs : s.toList.head? ≠ some '-') (ht : t.toList.head? ≠ some '-')
    (same : (if p then "-" else "") ++ s = (if q then "-" else "") ++ t) : (p ↔ q) ∧ s = t := by
  have chars := congrArg String.toList same
  by_cases hp : p <;> by_cases hq : q <;> simp only [hp, hq, if_true, if_false,
    String.empty_append, String.toList_append] at chars same ⊢
  · exact ⟨trivial, String.toList_inj.mp (List.append_cancel_left chars)⟩
  · exact absurd (congrArg List.head? chars).symm ht
  · exact absurd (congrArg List.head? chars) hs
  · exact ⟨trivial, same⟩

/-- **Different numbers have different texts.** -/
theorem write_injective : Function.Injective (write style) := by
  -- What is no number is told from a number by its text.
  have unlike {x : Float} : "NaN" ≠ (if x.toBits ≥ 0x8000000000000000 then "-" else "") ++
      magnitude style x := by
    intro same
    have unsigned : (if False then "-" else "") ++ "NaN" = "NaN" := rfl
    exact magnitude_ne_nan h x
      (sign_append_inj (by decide) (magnitude_unsigned h x) (unsigned.trans same)).2.symm
  intro x y same
  cases hx : x.isNaN with
  | true =>
      cases hy : y.isNaN with
      | true => exact eq_of_isNaN hx hy
      | false =>
          have text := same.trans (write_number style hy)
          exact (unlike ((write_nan style hx).symm.trans text)).elim
  | false =>
      rw [write_number style hx] at same
      cases hy : y.isNaN with
      | true => exact (unlike ((write_nan style hy).symm.trans same.symm)).elim
      | false =>
          rw [write_number style hy] at same
          have ⟨sign, text⟩ :=
            sign_append_inj (magnitude_unsigned h x) (magnitude_unsigned h y) same
          have ⟨scales, fractions⟩ := eq_of_magnitude h text
          exact eq_of_fields sign scales fractions

end

/-- Listings tell infinity by a word. -/
theorem tellsInfinity_listing : Style.listing.TellsInfinity := ⟨by decide, by decide, by decide⟩

/-! ### The characters of a number -/

/-- Whether a character may stand in a number that is not infinite. -/
def isFigure (c : Char) : Bool := c.isDigit || c = '.' || c = 'e' || c = '+' || c = '-'

theorem figures {cs : List Char} (h : cs.all isFigure = true) : ∀ c ∈ cs, isFigure c = true :=
  List.all_eq_true.mp h

/-- Digits are figures of a number. -/
theorem AllDigits.isFigure (h : AllDigits ds) : ∀ c ∈ ds, isFigure c = true := fun c mem => by
  simp [Decimal.isFigure, h c mem]

/-- A text that is read as a number starts with a digit. -/
theorem Reads.begins {v : ℚ} (h : Reads ds v) : ∃ d more, ds = d :: more ∧ d.isDigit = true := by
  obtain ⟨d, hd, -⟩ := h
  cases ds with
  | nil => cases hd
  | cons c more =>
      refine ⟨c, more, rfl, ?_⟩
      cases hc : c.isDigit with
      | true => rfl
      | false => simp [scan?, hc] at hd

/-- A number with a point is written in figures, and the point is one of them. -/
theorem positional_figures (hd : AllDigits ds) (lead : Int) :
    (∀ c ∈ (positional ds lead).toList, isFigure c = true) ∧ '.' ∈ (positional ds lead).toList := by
  have zeros (n : Nat) := (allDigits_zeros n).isFigure
  unfold positional
  dsimp only
  split_ifs
  all_goals
    refine ⟨?_, by simp⟩
    simp only [String.toList_append, String.toList_ofList, Decimal.zeros, List.forall_mem_append]
  · exact ⟨⟨figures (by decide), zeros _⟩, hd.isFigure⟩
  · exact ⟨⟨hd.isFigure, zeros _⟩, figures (by decide)⟩
  · exact ⟨⟨fun c mem => hd.isFigure c (List.mem_of_mem_take mem), figures (by decide)⟩,
      fun c mem => hd.isFigure c (List.mem_of_mem_drop mem)⟩

/-- A number with an exponent is written in figures, and the exponent has its mark. -/
theorem scientific_figures (style : Style) (hd : AllDigits ds) (lead : Int) :
    (∀ c ∈ (scientific style ds lead).toList, isFigure c = true) ∧
      'e' ∈ (scientific style ds lead).toList := by
  refine ⟨?_, by simp [scientific]⟩
  simp only [scientific, String.toList_append, List.forall_mem_append]
  refine ⟨⟨⟨⟨?_, figures (by decide)⟩, ?_⟩, ?_⟩, ?_⟩
  · split
    · rename_i d
      have fraction : ∀ c ∈ (if style.wholeMantissa then ".0" else "").toList,
          isFigure c = true := by
        split_ifs <;> exact figures (by decide)
      simpa [List.forall_mem_append] using ⟨hd.isFigure d (.head _), fraction⟩
    · rename_i d ds _
      have first := hd.isFigure d (.head _)
      have more := fun c mem => hd.isFigure c (.tail _ mem)
      simpa [or_imp, forall_and, first] using ⟨(by decide : isFigure '.' = true), more⟩
    · exact figures (by decide)
  · split_ifs <;> exact figures (by decide)
  · rw [zeros, String.toList_ofList]
    exact (allDigits_zeros _).isFigure
  · rw [Nat.toString_eq_repr, Nat.toList_repr]
    exact (allDigits_toDigits _).isFigure

/-- **What a number looks like** if it is not infinite: it begins with a digit, and it has a point
or an exponent. -/
theorem magnitude_figures (style : Style) {x : Float} (finite : x.isInf = false) :
    (∃ d more, (magnitude style x).toList = d :: more ∧ d.isDigit = true) ∧
    (∀ c ∈ (magnitude style x).toList, isFigure c = true) ∧
    ∃ c ∈ (magnitude style x).toList, c = '.' ∨ c = 'e' := by
  rcases magnitude_kind style x with ⟨inf, -⟩ | ⟨-, text⟩ | ⟨⟨-, some⟩, reads⟩
  · rw [finite] at inf
    cases inf
  · rw [text]
    exact ⟨⟨'0', _, rfl, rfl⟩, figures (by decide), '.', by decide, .inl rfl⟩
  · refine ⟨reads.begins, ?_⟩
    have digits := allDigits_toDigits (shortest x).digits
    simp only [magnitude, finite, some, Bool.false_eq_true, if_false]
    split
    · obtain ⟨figures, point⟩ := positional_figures digits _
      exact ⟨figures, '.', point, .inl rfl⟩
    · obtain ⟨figures, mark⟩ := scientific_figures style digits _
      exact ⟨figures, 'e', mark, .inr rfl⟩

end MiniRuby.Decimal
