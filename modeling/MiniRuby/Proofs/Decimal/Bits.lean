import Mathlib
import MiniRuby.Decimal.Reading
import MiniRuby.Decimal.Writing

/-!
# The bits of a number

A number is kept as a sign, a scale and a fraction, and these make it up (`Decimal.eq_of_fields`).
The largest scale is that of the infinities and of what is no number, and the least one that of the
zeros and of the numbers that are too small to have all their bits.  What is read from a text is a
number, or infinite (`Decimal.isNaN_toFloat`).
-/

namespace MiniRuby.Decimal

open Float.Model UnpackedFloat

/-- The scale of a number: a power of two, from the least one on. -/
def scale (x : Float) : Nat := x.toBits.toNat / 2 ^ 52 % 2048

/-- The bits of a number after the first one. -/
def fraction (x : Float) : Nat := x.toBits.toNat % 2 ^ 52

variable {x y : Float}

/-- **A number is made up of its fields.** -/
theorem eq_of_fields (sign : x.toBits ≥ 0x8000000000000000 ↔ y.toBits ≥ 0x8000000000000000)
    (hs : scale x = scale y) (hf : fraction x = fraction y) : x = y := by
  refine Float.toBits_inj.mp (UInt64.toNat_inj.mp ?_)
  have := x.toBits.toNat_lt
  have := y.toBits.toNat_lt
  simp only [ge_iff_le, UInt64.le_iff_toNat_le, UInt64.toNat_ofNat] at sign
  simp only [scale, fraction] at hs hf
  omega

/-! ### Kinds of numbers -/

/-- The exponent of a float is in its bits. -/
theorem toNat_unpackExponent (x : Float) :
    (@unpackExponent Format.binary64 x.toBits.toBitVec).toNat = scale x := by
  simp [unpackExponent, BitVec.extractLsb, Nat.shiftRight_eq_div_pow, scale]

/-- So is its fraction. -/
theorem toNat_unpackMantissa (x : Float) :
    (@unpackMantissa Format.binary64 x.toBits.toBitVec).toNat = fraction x := by
  simp [unpackMantissa, BitVec.extractLsb, fraction]

theorem unpackExponent_eq_iff {e : BitVec Format.binary64.exponentBits} :
    @unpackExponent Format.binary64 x.toBits.toBitVec = e ↔ scale x = e.toNat := by
  rw [← toNat_unpackExponent, BitVec.toNat_inj]

theorem unpackMantissa_eq_iff {m : BitVec Format.binary64.mantissaBitsWithoutImplicit} :
    @unpackMantissa Format.binary64 x.toBits.toBitVec = m ↔ fraction x = m.toNat := by
  rw [← toNat_unpackMantissa, BitVec.toNat_inj]

/-- What kind of number the fields make up. -/
theorem unpack_kind (x : Float) :
    (∃ s, x.toModel.unpack = .infinity s) ∧ scale x = 2047 ∧ fraction x = 0 ∨
    x.toModel.unpack = .notANumber ∧ scale x = 2047 ∧ fraction x ≠ 0 ∨
    (∃ s, x.toModel.unpack = .zero s) ∧ scale x = 0 ∧ fraction x = 0 ∨
    (∃ s m e hm, x.toModel.unpack = .finite s m e hm) ∧ scale x < 2047 ∧
      (scale x = 0 → fraction x ≠ 0) := by
  have small : scale x < 2048 := Nat.mod_lt _ (by decide)
  have bits : x.toModel.unpack = UnpackedFloat.unpack Format.binary64 x.toBits.toBitVec := rfl
  have top : (-BitVec.ofNat Format.binary64.exponentBits 1).toNat = 2047 := rfl
  have bottom : (BitVec.ofNat Format.binary64.exponentBits 0).toNat = 0 := rfl
  have zero : (BitVec.ofNat Format.binary64.mantissaBitsWithoutImplicit 0).toNat = 0 := rfl
  rw [bits, UnpackedFloat.unpack]
  dsimp only
  split
  · rename_i hs
    rw [unpackExponent_eq_iff, top] at hs
    split
    · rename_i hf
      exact .inl ⟨⟨_, rfl⟩, hs, unpackMantissa_eq_iff.mp hf⟩
    · rename_i hf
      exact .inr (.inl ⟨rfl, hs, fun none => hf (unpackMantissa_eq_iff.mpr none)⟩)
  · rename_i hs
    rw [unpackExponent_eq_iff, top] at hs
    refine .inr (.inr ?_)
    split
    · rename_i ht
      rw [unpackExponent_eq_iff, bottom] at ht
      split
      · rename_i hf
        exact .inl ⟨⟨_, rfl⟩, ht, unpackMantissa_eq_iff.mp hf⟩
      · rename_i hf
        have some : fraction x ≠ 0 := fun none => hf (unpackMantissa_eq_iff.mpr none)
        have positive := toNat_unpackMantissa x ▸ Nat.pos_of_ne_zero some
        exact .inr ⟨⟨_, _, _, positive, rfl⟩, by omega, fun _ => some⟩
    · rename_i ht
      rw [unpackExponent_eq_iff, bottom] at ht
      have positive : 0 < (1#1 ++ @unpackMantissa Format.binary64 x.toBits.toBitVec).toNat := by
        rw [BitVec.toNat_append]
        exact Nat.lt_of_lt_of_le (by decide) Nat.left_le_or
      exact .inr ⟨⟨_, _, _, positive, rfl⟩, by omega, fun h => (ht h).elim⟩

/-- **What is no number** has the highest exponent and some fraction. -/
theorem isNaN_iff : x.isNaN = true ↔ scale x = 2047 ∧ fraction x ≠ 0 := by
  change x.toModel.unpack.isNaN = true ↔ _
  rcases unpack_kind x with ⟨⟨s, h⟩, k⟩ | ⟨h, k⟩ | ⟨⟨s, h⟩, k⟩ | ⟨⟨s, m, e, hm, h⟩, k⟩ <;>
    rw [h] <;> simp [UnpackedFloat.isNaN] <;> omega

/-- An infinity has the highest exponent and no fraction. -/
theorem isInf_iff : x.isInf = true ↔ scale x = 2047 ∧ fraction x = 0 := by
  change x.toModel.unpack.isInf = true ↔ _
  rcases unpack_kind x with ⟨⟨s, h⟩, k⟩ | ⟨h, k⟩ | ⟨⟨s, h⟩, k⟩ | ⟨⟨s, m, e, hm, h⟩, k⟩ <;>
    rw [h] <;> simp [UnpackedFloat.isInf] <;> omega

/-- Zero has neither. -/
theorem beq_zero_iff : (x == 0) = true ↔ scale x = 0 ∧ fraction x = 0 := by
  have zero : (0 : Float).toModel.unpack = .zero .positive := by rfl
  change x.toModel.unpack.beq (0 : Float).toModel.unpack = true ↔ _
  rw [zero]
  rcases unpack_kind x with ⟨⟨s, h⟩, k⟩ | ⟨h, k⟩ | ⟨⟨s, h⟩, k⟩ | ⟨⟨s, m, e, hm, h⟩, k⟩ <;>
    rw [h] <;> try cases s
  all_goals
    simp [UnpackedFloat.beq, UnpackedFloat.compare]
    omega

/-- There is one thing that is not a number. -/
theorem eq_of_isNaN (hx : x.isNaN = true) (hy : y.isNaN = true) : x = y := by
  rw [Float.isNaN_eq_decide_eq_nan, decide_eq_true_eq] at hx hy
  rw [hx, hy]

/-! ### Numbers that have been computed -/

/-- A number that is packed with the highest exponent has no fraction. -/
theorem pack_eq {f : UnpackedFloat} (h : f ≠ .notANumber) :
    ∃ s e m, UnpackedFloat.pack Format.binary64 f = packComponents Format.binary64 s e m ∧
      (e.toNat = 2047 → m.toNat = 0) := by
  fun_cases UnpackedFloat.pack Format.binary64 f with
  | case1 => exact (h rfl).elim
  | case2 s => exact ⟨s, _, _, rfl, fun _ => rfl⟩
  | case3 s => exact ⟨s, _, _, rfl, fun _ => rfl⟩
  | case4 s m e hm biased high => exact ⟨s, _, _, rfl, fun _ => rfl⟩
  | case5 s m e hm bits biased high normal =>
      refine ⟨s, _, _, rfl, fun top => ?_⟩
      have exponent : (BitVec.ofNat Format.binary64.exponentBits biased).toNat =
          biased % 2 ^ 11 := BitVec.toNat_ofNat _ _
      change ¬ 2 ^ 11 ≤ biased + 1 at high
      omega
  | case6 s m e hm bits biased high subnormal =>
      exact ⟨s, _, _, rfl, fun top => absurd top (by decide)⟩

/-- What is packed is a number if it was one. -/
theorem isNaN_ofModel_pack {f : UnpackedFloat} (h : f ≠ .notANumber) :
    (Float.ofModel (Float.Model.pack f)).isNaN = false := by
  refine Bool.eq_false_iff.mpr fun nan => ?_
  have ⟨top, payload⟩ := isNaN_iff.mp nan
  rw [← toNat_unpackExponent] at top
  rw [← toNat_unpackMantissa] at payload
  obtain ⟨s, e, m, packed, zero⟩ := pack_eq h
  have bits : (Float.ofModel (Float.Model.pack f)).toBits.toBitVec =
      packComponents Format.binary64 s e m := packed
  rw [bits, unpackExponent_packComponents] at top
  rw [bits, unpackMantissa_packComponents] at payload
  exact payload (zero top)

/-- A float is a number if it is one when it is unpacked. -/
theorem isNaN_eq_false_iff : x.isNaN = false ↔ x.toModel.unpack ≠ .notANumber := by
  change x.toModel.unpack.isNaN = false ↔ _
  cases x.toModel.unpack <;> simp [UnpackedFloat.isNaN]

/-- Rounding a number gives a number. -/
theorem roundWithAccuracy_ne {s : Sign} {m : Nat} {e : Int} {a : Accuracy} :
    roundWithAccuracy Format.binary64 s m e a ≠ .notANumber := by
  unfold roundWithAccuracy
  dsimp only
  split <;> simp

theorem isNaN_neg (h : x.isNaN = false) : (-x).isNaN = false := by
  refine isNaN_ofModel_pack ?_
  have number := isNaN_eq_false_iff.mp h
  cases hx : x.toModel.unpack with
  | notANumber => exact (number hx).elim
  | _ => exact nofun

/-- Whether a number is neither infinite nor zero. -/
def IsFinite (x : Float) : Prop := ∃ s m e hm, x.toModel.unpack = .finite s m e hm

/-- A number divided by a finite one is a number. -/
theorem isNaN_div (hx : x.isNaN = false) (hy : IsFinite y) : (x / y).isNaN = false := by
  refine isNaN_ofModel_pack ?_
  obtain ⟨s, m, e, hm, finite⟩ := hy
  have number := isNaN_eq_false_iff.mp hx
  rw [finite]
  cases hx : x.toModel.unpack with
  | notANumber => exact (number hx).elim
  | finite => exact roundWithAccuracy_ne
  | _ => exact nofun

/-- A number times a finite one is a number. -/
theorem isNaN_mul (hx : x.isNaN = false) (hy : IsFinite y) : (x * y).isNaN = false := by
  refine isNaN_ofModel_pack ?_
  obtain ⟨s, m, e, hm, finite⟩ := hy
  have number := isNaN_eq_false_iff.mp hx
  rw [finite]
  cases hx : x.toModel.unpack with
  | notANumber => exact (number hx).elim
  | finite => exact roundWithAccuracy_ne
  | _ => exact nofun

/-- A float whose exponent is neither the lowest nor the highest is finite. -/
theorem isFinite_of_scale (low : 0 < scale x) (high : scale x < 2047) : IsFinite x := by
  rcases unpack_kind x with ⟨-, k⟩ | ⟨-, k⟩ | ⟨-, k⟩ | ⟨h, -⟩
  · omega
  · omega
  · omega
  · exact h

/-- The powers of ten that a float can hold are finite. -/
theorem isFinite_powersOfTen (i : Fin Float.exactlyRepresentablePowersOfTen.size) :
    IsFinite Float.exactlyRepresentablePowersOfTen[i] := by
  have scales : ∀ i : Fin Float.exactlyRepresentablePowersOfTen.size,
      0 < scale Float.exactlyRepresentablePowersOfTen[i] ∧
        scale Float.exactlyRepresentablePowersOfTen[i] < 2047 := by
    decide +kernel
  exact isFinite_of_scale (scales i).1 (scales i).2

theorem isNaN_ofUInt64 (n : UInt64) : n.toFloat.isNaN = false := by
  refine isNaN_ofModel_pack ?_
  unfold UnpackedFloat.ofUInt64 UnpackedFloat.ofNat UnpackedFloat.ofInt UnpackedFloat.normalize
  split
  · exact roundWithAccuracy_ne
  · exact nofun
  · exact roundWithAccuracy_ne

/-- A decimal is rounded to a number. -/
theorem ofScientific_ne (m : Nat) (e : Int) :
    UnpackedFloat.ofScientific Format.binary64 m e ≠ .notANumber := by
  unfold UnpackedFloat.ofScientific
  split_ifs
  · simp
  · simp
  · simp
  · exact roundWithAccuracy_ne
  · exact roundWithAccuracy_ne

/-- **A decimal is read as a number**, be it infinite. -/
theorem isNaN_ofScientific (m : Nat) (negative : Bool) (e : Nat) :
    (Float.ofScientific m negative e).isNaN = false := by
  unfold Float.ofScientific
  split
  · rename_i small
    have finite := isFinite_powersOfTen ⟨e, Nat.lt_succ_of_le small.2⟩
    dsimp only
    split
    · exact isNaN_div (isNaN_ofUInt64 _) finite
    · exact isNaN_mul (isNaN_ofUInt64 _) finite
  · exact isNaN_ofModel_pack (ofScientific_ne m _)

/-- **A literal is a number**, perhaps an infinite one. -/
theorem isNaN_toFloat (mantissa : Nat) (exponent : Int) :
    (toFloat mantissa exponent).isNaN = false := by
  have zero : (0 : Float).isNaN = false := by decide +kernel
  have infinite : (1.0 / 0.0 : Float).isNaN = false := by decide +kernel
  unfold toFloat
  dsimp only
  split_ifs
  · exact zero
  · exact infinite
  · exact zero
  · exact isNaN_ofScientific _ _ _
  · exact isNaN_ofScientific _ _ _

end MiniRuby.Decimal
