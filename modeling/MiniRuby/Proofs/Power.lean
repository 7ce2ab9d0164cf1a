import MiniRuby.Boot
import MiniRuby.Proofs.Arithmetic

/-!
# Powers

A power of integers is worked out by squaring, and every product on the way has to fit into a word.
No power is lost by that.  Either the base is 0, 1 or -1, and then all the products are; or else a
product is refused only where the power has it as a factor, and the other factors do not make the
power any smaller.  Squaring the base keeps to one of the two.

Exponents are another matter.  One that does not fit into 32 bits is refused as it stands, although
the powers of 0, 1 and -1 are words whatever the exponent is.

* `Integer.powerFrom_eq`: powers by squaring are exact or refused.
* `power_exact_iff`: which powers are exact or refused once exponents are looked at, too.
-/

namespace MiniRuby

namespace Integer

variable {x y : Int} {a b acc base : Int64} {n : Nat}

/-! ### Products that do not fit -/

theorem fits_of_natAbs (h : x.natAbs < 9223372036854775808) : Fits x := by
  constructor <;> omega

theorem not_fits_of_natAbs (h : 9223372036854775808 < x.natAbs) : ¬ Fits x := by
  rintro ⟨low, high⟩
  omega

theorem le_natAbs_of_not_fits (h : ¬ Fits x) : 9223372036854775808 ≤ x.natAbs :=
  le_of_not_gt fun small => h (fits_of_natAbs small)

/-- The number of negative words is no square, so a square that does not fit is greater than it. -/
theorem lt_square_of_not_fits (h : ¬ Fits (y * y)) : 9223372036854775808 < y.natAbs ^ 2 := by
  have large := le_natAbs_of_not_fits h
  rw [Int.natAbs_mul, ← sq] at large
  refine large.lt_of_ne fun root => ?_
  rcases Nat.lt_or_ge y.natAbs 3037000500 with less | more
  · have := Nat.pow_le_pow_left (Nat.le_of_lt_succ less) 2
    omega
  · have := Nat.pow_le_pow_left more 2
    omega

/-! ### Squaring -/

/-- Whether what is multiplied by a power does not make it smaller: it is not zero, unless neither
it nor the base is greater than one. -/
def Sustains (x y : Int) : Prop :=
  x.natAbs ≤ 1 ∧ y.natAbs ≤ 1 ∨ x ≠ 0 ∧ 2 ≤ y.natAbs

theorem sustains_one (y : Int) : Sustains 1 y := by
  rcases Nat.lt_or_ge y.natAbs 2 with small | large
  · exact .inl ⟨le_rfl, Nat.le_of_lt_succ small⟩
  · exact .inr ⟨one_ne_zero, large⟩

/-- The base may be squared. -/
theorem Sustains.square (h : Sustains x y) : Sustains x (y * y) := by
  unfold Sustains
  rw [Int.natAbs_mul]
  rcases h with ⟨hx, hy⟩ | ⟨hx, hy⟩
  · exact .inl ⟨hx, Nat.mul_le_mul hy hy⟩
  · exact .inr ⟨hx, hy.trans (Nat.le_mul_of_pos_left _ (by omega))⟩

/-- The base may be multiplied by. -/
theorem Sustains.product (h : Sustains x y) : Sustains (x * y) y := by
  unfold Sustains
  rw [Int.natAbs_mul]
  rcases h with ⟨hx, hy⟩ | ⟨hx, hy⟩
  · exact .inl ⟨Nat.mul_le_mul hx hy, hy⟩
  · exact .inr ⟨mul_ne_zero hx (by rintro rfl; simp at hy), hy⟩

/-- A square that does not fit makes no power fit that has it as a factor. -/
theorem Sustains.not_fits_of_square (h : Sustains x y) (hy : ¬ Fits (y * y)) (hn : 2 ≤ n) :
    ¬ Fits (x * y ^ n) := by
  have square := lt_square_of_not_fits hy
  rcases h with ⟨-, small⟩ | ⟨hx, large⟩
  · have := Nat.pow_le_pow_left small 2
    omega
  · apply not_fits_of_natAbs
    rw [Int.natAbs_mul, Int.natAbs_pow]
    calc 9223372036854775808 < y.natAbs ^ 2 := square
      _ ≤ y.natAbs ^ n := Nat.pow_le_pow_right (by omega) hn
      _ ≤ x.natAbs * y.natAbs ^ n := Nat.le_mul_of_pos_left _ (Int.natAbs_pos.mpr hx)

/-- A product that does not fit makes no power fit that has it as a factor, and the base once more
at least. -/
theorem Sustains.not_fits_of_product (h : Sustains x y) (hxy : ¬ Fits (x * y)) (hn : 2 ≤ n) :
    ¬ Fits (x * y ^ n) := by
  have product := le_natAbs_of_not_fits hxy
  rw [Int.natAbs_mul] at product
  rcases h with ⟨hx, hy⟩ | ⟨hx, large⟩
  · have := Nat.mul_le_mul hx hy
    omega
  · apply not_fits_of_natAbs
    obtain ⟨k, rfl⟩ : ∃ k, n = k + 2 := ⟨n - 2, by omega⟩
    have power : 2 ≤ y.natAbs ^ (k + 1) := large.trans (Nat.le_self_pow k.succ_ne_zero _)
    rw [Int.natAbs_mul, Int.natAbs_pow, pow_succ' _ (k + 1), ← Nat.mul_assoc]
    calc 9223372036854775808 < 9223372036854775808 * 2 := by decide
      _ ≤ x.natAbs * y.natAbs * y.natAbs ^ (k + 1) := Nat.mul_le_mul product power

/-- **Powers by squaring** are exact or refused. -/
theorem powerFrom_eq (h : Sustains acc.toInt base.toInt) :
    powerFrom acc base n = ofInt (acc.toInt * base.toInt ^ n) := by
  induction n using Nat.strong_induction_on generalizing acc base with
  | _ n ih =>
      rw [powerFrom]
      by_cases none : n = 0
      · rw [if_pos none, none, pow_zero, mul_one]
        exact (ofInt_toInt acc).symm
      by_cases one : n = 1
      · rw [if_neg none, if_pos one, one, pow_one]
        rfl
      · rw [if_neg none, if_neg one]
        -- The base is squared in any case, after the product with it if the exponent is odd.
        have squared {acc : Int64} (h : Sustains acc.toInt base.toInt) :
            (do powerFrom acc (← mul base base) (n / 2)) =
              ofInt (acc.toInt * base.toInt ^ (2 * (n / 2))) := by
          refine ofInt_bind_eq (fun fits => ?_) fun large => h.not_fits_of_square large (by omega)
          have value := toInt_ofInt fits
          rw [ih (n / 2) (by omega) (value.symm ▸ h.square), value, pow_mul, sq]
        by_cases odd : n % 2 = 1
        · have whole : base.toInt ^ n = base.toInt * base.toInt ^ (2 * (n / 2)) := by
            rw [← pow_succ', show 2 * (n / 2) + 1 = n by omega]
          rw [if_pos odd]
          refine ofInt_bind_eq (fun fits => ?_) fun large => h.not_fits_of_product large (by omega)
          have value := toInt_ofInt fits
          exact (squared (value.symm ▸ h.product)).trans (by rw [value, whole, mul_assoc])
        · have whole : 2 * (n / 2) = n := by omega
          rw [if_neg odd]
          exact (squared h).trans (by rw [whole])

/-- Powers are exact or refused as long as the exponent is not too large. -/
theorem pow_eq (h : n ≤ maxExponent) : pow a n = ofInt (a.toInt ^ n) := by
  have one : (1 : Int64).toInt = 1 := by decide
  rw [pow, if_neg (by omega), powerFrom_eq (one ▸ sustains_one _), one, one_mul]

theorem pow_eq_error (h : maxExponent < n) : pow a n = .error .overflow := if_pos h

/-- The powers of 0, 1 and -1 fit. -/
theorem fits_pow (h : |x| ≤ 1) : Fits (x ^ n) := by
  rw [Int.abs_eq_natAbs] at h
  apply fits_of_natAbs
  rw [Int.natAbs_pow]
  calc x.natAbs ^ n ≤ 1 ^ n := Nat.pow_le_pow_left (by omega) n
    _ < 9223372036854775808 := by simp

/-- No other number has a power with a large exponent that fits. -/
theorem not_fits_pow (h : 1 < |x|) (hn : 64 ≤ n) : ¬ Fits (x ^ n) := by
  rw [Int.abs_eq_natAbs] at h
  apply not_fits_of_natAbs
  rw [Int.natAbs_pow]
  calc 9223372036854775808 < 2 ^ 64 := by decide
    _ ≤ x.natAbs ^ 64 := Nat.pow_le_pow_left (by omega) _
    _ ≤ x.natAbs ^ n := Nat.pow_le_pow_right (by omega) hn

/-! ### The native method -/

/-- What integers do by a name, they do in one way. -/
theorem Responds.both {name : String} {args : List Int64} {P Q : Run Value → Prop}
    (h : Responds a name args P) (h' : Responds a name args Q) : ∃ x, P x ∧ Q x := by
  obtain ⟨_, op, known, -, holds⟩ := h
  obtain ⟨_, op', known', -, holds'⟩ := h'
  cases known.symm.trans known'
  let invoke : Invoke := fun _ self _ => pure self
  exact ⟨_, holds 0 invoke, holds' 0 invoke⟩

/-- A power with a natural exponent is what the numbers are worked out to. -/
theorem responds_pow {P : Run Value → Prop} (hb : 0 ≤ b)
    (h : P (Value.int <$> Run.ofExcept (pow a b.toInt.toNat))) : Responds a "**" [b] P := by
  refine .intro (.exact 1) .pow (by decide +kernel) rfl ?_
  have natural : IntegerOp.run .pow (.int a) [.int b] =
      Value.int <$> Run.ofExcept (pow a b.toInt.toNat) := if_neg (Int64.not_lt.mpr hb)
  exact natural ▸ h

end Integer

theorem Run.Answers.not_refuses {i : Int} {kind : FaultKind} {x : Run Value} (h : x.Answers i) :
    ¬ x.Refuses kind := by
  rintro ⟨f, -, fails⟩
  obtain ⟨r, -, answers⟩ := h
  cases (answers (Machine.boot (.collecting ""))).symm.trans (fails _)

/-- **Powers are exact or refused** as long as the exponent fits into 32 bits, or the base is none
of 0, 1 and -1.  A power of one of these always fits, and is refused with a fault of range if the
exponent is larger. -/
theorem power_exact_iff (a b : Int64) (hb : 0 ≤ b) :
    (Integer.Responds a "**" [b] (Run.IsExact (a.toInt ^ b.toInt.toNat)) ↔
      ¬ (4294967295 < b.toInt ∧ |a.toInt| ≤ 1)) ∧
    (4294967295 < b.toInt → |a.toInt| ≤ 1 →
      Integer.Fits (a.toInt ^ b.toInt.toNat) ∧
      Integer.Responds a "**" [b] (Run.Refuses .range)) := by
  have refused (large : 4294967295 < b.toInt) :
      Run.Refuses .range (Value.int <$> Run.ofExcept (Integer.pow a b.toInt.toNat)) := by
    rw [Integer.pow_eq_error (by rw [Integer.maxExponent]; omega)]
    exact Run.refuses_error .overflow
  have responds {P : Run Value → Prop} := Integer.responds_pow (P := P) (a := a) hb
  refine ⟨⟨?_, ?_⟩, fun large small => ⟨Integer.fits_pow small, responds (refused large)⟩⟩
  · rintro exact ⟨large, small⟩
    obtain ⟨x, hx, refuses⟩ := exact.both (responds (refused large))
    exact (hx.1 (Integer.fits_pow small)).not_refuses refuses
  · intro other
    refine responds ?_
    by_cases large : 4294967295 < b.toInt
    · have beyond : ¬ Integer.Fits (a.toInt ^ b.toInt.toNat) :=
        Integer.not_fits_pow (not_le.mp fun small => other ⟨large, small⟩) (by omega)
      exact ⟨fun fits => absurd fits beyond, fun _ => refused large⟩
    · rw [Integer.pow_eq (by rw [Integer.maxExponent]; omega)]
      exact Run.isExact_ofInt _

/-- The least word is a power of -2, and 1 has no power with an exponent over 32 bits. -/
theorem power_exact_minValue :
    Integer.Responds (-2) "**" [63] (Run.IsExact (-9223372036854775808)) ∧
    Integer.Responds 1 "**" [4294967296] (Run.Refuses .range) :=
  ⟨(power_exact_iff (-2) 63 (by decide)).1.mpr (by decide),
    ((power_exact_iff 1 4294967296 (by decide)).2 (by decide) (by decide)).2⟩

end MiniRuby
