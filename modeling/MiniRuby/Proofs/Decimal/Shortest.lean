import MiniRuby.Proofs.Decimal.Bits

/-!
# Shortest digits tell numbers apart

Around each number of the floating-point format lies the interval of what is rounded to it
(`Binary.Rounds`).  These intervals do not overlap: two that are next to each other meet in a point,
which belongs to the number with an even mantissa, or to none of the two.  The digits that are
looked for lie in the interval of their number, and they are found: seventeen digits leave gaps that
are narrower than any interval.  So numbers with the same digits are the same.

* `Binary.Rounds.unique`: what is rounded to a number is rounded to no other one.
* `Binary.nearest?_isSome`: seventeen digits are enough.
* `rounds_shortest`: the digits that are found are rounded to their number.
* `eq_of_shortest`: so they tell its magnitude.
-/

namespace MiniRuby.Decimal

/-- The number that a decimal stands for. -/
def Digits.value (d : Digits) : ℚ := d.digits * 10 ^ d.exponent

/-- Zeros at the end of the digits do not matter. -/
theorem Digits.value_trim (fuel : Nat) (d : Digits) : (d.trim fuel).value = d.value := by
  induction fuel generalizing d with
  | zero => rfl
  | succ fuel ih =>
      rw [trim]
      split
      · rename_i h
        have tens : d.digits = d.digits / 10 * 10 := by
          simp only [Bool.and_eq_true, decide_eq_true_eq] at h
          omega
        rw [ih, value, value, zpow_add_one₀ (by norm_num), tens]
        push_cast
        simp only [Nat.mul_div_cancel _ (show 0 < 10 by decide)]
        ring
      · rfl

namespace Binary

variable {b b' : Binary} {k : Int} {c n : Nat} {v : ℚ}

/-! ### Intervals of rounding -/

/-- Whether a number is held as the format holds it: with all its bits, unless its exponent is the
least one. -/
structure Normal (b : Binary) : Prop where
  small : b.mantissa < 2 ^ 53
  least : -1074 ≤ b.exponent
  full : b.exponent ≠ -1074 → 2 ^ 52 ≤ b.mantissa
  narrow : b.narrowBelow = true ↔ b.mantissa = 2 ^ 52 ∧ b.exponent ≠ -1074

/-- Half of the gap below a number, in quarters of its last bit. -/
def gapBelow (b : Binary) : Nat := if b.narrowBelow then 1 else 2

/-- A quarter of the last bit. -/
def quarter (b : Binary) : ℚ := 2 ^ (b.exponent - 2)

/-- Whether a decimal is rounded to a number: it lies between the middles of the gaps around it, or
it is one of these and the mantissa is even. -/
def Rounds (b : Binary) (v : ℚ) : Prop :=
  if b.mantissa % 2 = 0 then
    (4 * b.mantissa - b.gapBelow : Nat) * b.quarter ≤ v ∧ v ≤ (4 * b.mantissa + 2 : Nat) * b.quarter
  else
    (4 * b.mantissa - b.gapBelow : Nat) * b.quarter < v ∧ v < (4 * b.mantissa + 2 : Nat) * b.quarter

/-- The gap below is no wider than the gap above. -/
theorem gapBelow_le (b : Binary) : b.gapBelow ≤ 2 := by
  unfold gapBelow
  split <;> decide

theorem quarter_pos (b : Binary) : 0 < b.quarter := zpow_pos (by norm_num) _

/-- What rounds to a number is no further away than half of the gaps. -/
theorem Rounds.bounds (h : b.Rounds v) :
    (4 * b.mantissa - b.gapBelow : Nat) * b.quarter ≤ v ∧
      v ≤ (4 * b.mantissa + 2 : Nat) * b.quarter := by
  unfold Rounds at h
  split at h
  · exact h
  · exact ⟨h.1.le, h.2.le⟩

/-- The middle of a gap is rounded to an even mantissa only. -/
theorem Rounds.even (h : b.Rounds v) (edge : v = (4 * b.mantissa - b.gapBelow : Nat) * b.quarter ∨
    v = (4 * b.mantissa + 2 : Nat) * b.quarter) : b.mantissa % 2 = 0 := by
  by_contra odd
  rw [Rounds, if_neg odd] at h
  rcases edge with rfl | rfl
  · exact absurd h.1 (lt_irrefl _)
  · exact absurd h.2 (lt_irrefl _)

/-- The interval of a smaller number ends before that of a larger one, or where that begins, and
then the two mantissas are not both even. -/
theorem Normal.apart (hb : b.Normal) (hb' : b'.Normal) (h : b.exponent < b'.exponent ∨
    b.exponent = b'.exponent ∧ b.mantissa < b'.mantissa) :
    (4 * b.mantissa + 2 : Nat) * b.quarter < (4 * b'.mantissa - b'.gapBelow : Nat) * b'.quarter ∨
      (4 * b.mantissa + 2 : Nat) * b.quarter = (4 * b'.mantissa - b'.gapBelow : Nat) * b'.quarter ∧
        ¬ (b.mantissa % 2 = 0 ∧ b'.mantissa % 2 = 0) := by
  have positive := b.quarter_pos
  have narrow := b'.gapBelow_le
  rcases h with lower | ⟨level, less⟩
  · -- The larger number has all its bits, and its bits are at least twice as large.
    have least := hb.least
    have full := hb'.full (by omega)
    have lean : b'.mantissa = 2 ^ 52 → b'.gapBelow = 1 := fun first =>
      if_pos (hb'.narrow.mpr ⟨first, by omega⟩)
    have double : 2 * b.quarter ≤ b'.quarter := by
      rw [quarter, quarter, mul_comm, ← zpow_add_one₀ (by norm_num)]
      exact zpow_le_zpow_right₀ (by norm_num) (by omega)
    have small := hb.small
    have reach : 4 * b.mantissa + 2 ≤ 2 * (4 * b'.mantissa - b'.gapBelow) := by omega
    have scaled : ((2 * (4 * b'.mantissa - b'.gapBelow) : Nat) : ℚ) * b.quarter ≤
        (4 * b'.mantissa - b'.gapBelow : Nat) * b'.quarter := by
      rw [Nat.cast_mul, mul_right_comm, mul_comm]
      exact mul_le_mul_of_nonneg_left double (Nat.cast_nonneg _)
    rcases reach.lt_or_eq with strict | meet
    · exact .inl ((mul_lt_mul_of_pos_right (by exact_mod_cast strict) positive).trans_le scaled)
    · rcases (meet ▸ scaled).lt_or_eq with strict | edge
      · exact .inl strict
      · exact .inr ⟨edge, by omega⟩
  · have same : b'.quarter = b.quarter := by rw [quarter, quarter, level]
    rw [same]
    have reach : 4 * b.mantissa + 2 ≤ 4 * b'.mantissa - b'.gapBelow := by omega
    rcases reach.lt_or_eq with strict | meet
    · exact .inl (mul_lt_mul_of_pos_right (by exact_mod_cast strict) positive)
    · exact .inr ⟨by rw [meet], by omega⟩

/-- **What is rounded to a number is rounded to no other one.** -/
theorem Rounds.unique (hb : b.Normal) (hb' : b'.Normal) (h : b.Rounds v) (h' : b'.Rounds v) :
    b.exponent = b'.exponent ∧ b.mantissa = b'.mantissa := by
  have ordered {b b' : Binary} (hb : b.Normal) (hb' : b'.Normal) (h : b.Rounds v)
      (h' : b'.Rounds v) : ¬ (b.exponent < b'.exponent ∨
        b.exponent = b'.exponent ∧ b.mantissa < b'.mantissa) := by
    intro less
    have high := h.bounds.2
    have low := h'.bounds.1
    rcases hb.apart hb' less with apart | ⟨meet, odd⟩
    · exact absurd (high.trans_lt apart) (not_lt_of_ge low)
    · have edge := le_antisymm high (meet ▸ low)
      exact odd ⟨h.even (.inr edge), h'.even (.inl (edge.trans meet))⟩
  have := ordered hb hb' h h'
  have := ordered hb' hb h' h
  omega

/-! ### Decimals with a last digit -/

/-- What a unit of the last digit is measured in, and what a quarter of the last bit is. -/
def unit (b : Binary) (k : Int) : Nat := Nat.pow 10 k.toNat * Nat.pow 2 (2 - b.exponent).toNat

def scale (b : Binary) (k : Int) : Nat := Nat.pow 2 (b.exponent - 2).toNat * Nat.pow 10 (-k).toNat

/-- A power of an integer exponent from powers of natural ones. -/
theorem pow_toNat {a : Nat} (ha : 0 < a) (z : Int) :
    ((a ^ z.toNat : Nat) : ℚ) = a ^ z * (a ^ (-z).toNat : Nat) := by
  have positive : (a : ℚ) ≠ 0 := by positivity
  obtain ⟨n, rfl | rfl⟩ := z.eq_nat_or_neg
  · simp
  · simp [positive]

/-- Scales are positive. -/
theorem scale_pos (b : Binary) (k : Int) : 0 < b.scale k := by
  unfold scale
  exact Nat.mul_pos (Nat.pow_pos (by decide)) (Nat.pow_pos (by decide))

/-- The two measures agree. -/
theorem unit_mul_quarter (b : Binary) (k : Int) :
    (b.unit k : ℚ) * b.quarter = b.scale k * 10 ^ k := by
  have ten := @pow_toNat 10 (by decide) k
  have two := @pow_toNat 2 (by decide) (b.exponent - 2)
  rw [neg_sub] at two
  rw [unit, scale, Nat.cast_mul, Nat.cast_mul]
  change ((10 ^ k.toNat : Nat) : ℚ) * (2 ^ (2 - b.exponent).toNat : Nat) * 2 ^ (b.exponent - 2) =
    (2 ^ (b.exponent - 2).toNat : Nat) * (10 ^ (-k).toNat : Nat) * 10 ^ k
  rw [ten, two]
  push_cast
  ring

/-- Quarters of the last bit are compared with a decimal without any fractions. -/
theorem quarters_le_iff :
    (n : ℚ) * b.quarter ≤ c * 10 ^ k ↔ n * b.scale k ≤ c * b.unit k := by
  have positive : (0 : ℚ) < b.scale k := by exact_mod_cast b.scale_pos k
  rw [← mul_le_mul_iff_left₀ positive, mul_assoc (c : ℚ), mul_comm (10 ^ k : ℚ), ← unit_mul_quarter,
    mul_right_comm, ← mul_assoc, mul_le_mul_iff_left₀ b.quarter_pos]
  exact_mod_cast Iff.rfl

/-- Rationals are compared by natural numbers. -/
theorem le_quarters_iff :
    (c : ℚ) * 10 ^ k ≤ n * b.quarter ↔ c * b.unit k ≤ n * b.scale k := by
  have positive : (0 : ℚ) < b.scale k := by exact_mod_cast b.scale_pos k
  rw [← mul_le_mul_iff_left₀ positive, mul_assoc (c : ℚ), mul_comm (10 ^ k : ℚ), ← unit_mul_quarter,
    mul_right_comm (n : ℚ), ← mul_assoc, mul_le_mul_iff_left₀ b.quarter_pos]
  exact_mod_cast Iff.rfl

/-- **Rounding is told by natural numbers**, as the ends of the interval count if the mantissa is
even. -/
theorem rounds_iff : b.Rounds (c * 10 ^ k) ↔
    if b.mantissa % 2 = 0 then
      (4 * b.mantissa - b.gapBelow) * b.scale k ≤ c * b.unit k ∧
        c * b.unit k ≤ (4 * b.mantissa + 2) * b.scale k
    else
      (4 * b.mantissa - b.gapBelow) * b.scale k < c * b.unit k ∧
        c * b.unit k < (4 * b.mantissa + 2) * b.scale k := by
  simp only [Rounds, quarters_le_iff, le_quarters_iff, ← not_le]

/-! ### The search -/

/-- The decimal below the number, by its digits. -/
def floor (b : Binary) (k : Int) : Nat := 4 * b.mantissa * b.scale k / b.unit k

instance (b : Binary) (k : Int) (c : Nat) : Decidable (b.Rounds (c * 10 ^ k)) :=
  decidable_of_iff' _ rounds_iff

/-- The search looks at the decimal below and at the one above, and takes the nearer one that
rounds. -/
theorem nearest?_eq (b : Binary) (k : Int) : b.nearest? k =
    match decide (b.Rounds (b.floor k * 10 ^ k)), decide (b.Rounds ((b.floor k + 1 : Nat) * 10 ^ k))
      with
    | true, true =>
      if 4 * b.mantissa * b.scale k - b.floor k * b.unit k <
          (b.floor k + 1) * b.unit k - 4 * b.mantissa * b.scale k then some (b.floor k)
      else some (b.floor k + 1)
    | true, false => some (b.floor k)
    | false, true => some (b.floor k + 1)
    | false, false => none := by
  have reads (c : Nat) : (if b.mantissa % 2 = 0 then
      decide ((4 * b.mantissa - (if b.narrowBelow then 1 else 2)) * b.scale k ≤ c * b.unit k) &&
        decide (c * b.unit k ≤ (4 * b.mantissa + 2) * b.scale k)
    else
      decide ((4 * b.mantissa - (if b.narrowBelow then 1 else 2)) * b.scale k < c * b.unit k) &&
        decide (c * b.unit k < (4 * b.mantissa + 2) * b.scale k)) =
      decide (b.Rounds (c * 10 ^ k)) := by
    rw [Bool.eq_iff_iff, decide_eq_true_iff, rounds_iff, gapBelow]
    split <;> simp
  rw [← reads, ← reads]
  rfl

/-- The decimal that is found is rounded to the number. -/
theorem rounds_of_nearest? (h : b.nearest? k = some c) : b.Rounds (c * 10 ^ k) := by
  rw [nearest?_eq] at h
  split at h <;> rename_i low high
  · split at h
    · cases h
      exact of_decide_eq_true low
    · cases h
      exact of_decide_eq_true high
  · cases h
    exact of_decide_eq_true low
  · cases h
    exact of_decide_eq_true high
  · cases h

/-- No decimal is found if neither of the two that enclose the number is rounded to it. -/
theorem not_rounds_of_nearest? (h : b.nearest? k = none) :
    ¬ b.Rounds (b.floor k * 10 ^ k) ∧ ¬ b.Rounds ((b.floor k + 1 : Nat) * 10 ^ k) := by
  rw [nearest?_eq] at h
  split at h <;> rename_i low high
  · split at h <;> cases h
  · cases h
  · cases h
  · exact ⟨of_decide_eq_false low, of_decide_eq_false high⟩

theorem unit_pos (b : Binary) (k : Int) : 0 < b.unit k :=
  Nat.mul_pos (Nat.pow_pos (by decide)) (Nat.pow_pos (by decide))

/-- The number lies between two decimals. -/
theorem floor_bounds (b : Binary) (k : Int) : b.floor k * b.unit k ≤ 4 * b.mantissa * b.scale k ∧
    4 * b.mantissa * b.scale k < (b.floor k + 1) * b.unit k :=
  ⟨Nat.div_mul_le_self _ _, (Nat.lt_mul_div_succ _ (b.unit_pos k)).trans_eq (Nat.mul_comm _ _)⟩

/-- A decimal inside the interval rounds. -/
theorem rounds_of_quarters_lt (low : (4 * b.mantissa - b.gapBelow) * b.scale k < c * b.unit k)
    (high : c * b.unit k < (4 * b.mantissa + 2) * b.scale k) : b.Rounds (c * 10 ^ k) := by
  rw [rounds_iff]
  split
  · exact ⟨low.le, high.le⟩
  · exact ⟨low, high⟩

/-- **A decimal is found** once its last digit is small: the gap between two decimals is then
narrower than the interval of the number. -/
theorem nearest?_isSome (hb : b.Normal) (hm : 0 < b.mantissa)
    (fine : 10 ^ 16 * b.unit k ≤ 4 * b.mantissa * b.scale k) : b.nearest? k ≠ none := by
  have positive := b.scale_pos k
  have ⟨low, high⟩ := b.floor_bounds k
  have gap := b.gapBelow_le
  have narrow : b.gapBelow = 2 ∨ b.gapBelow = 1 ∧ b.mantissa = 2 ^ 52 := by
    by_cases h : b.narrowBelow = true
    · exact .inr ⟨if_pos h, (hb.narrow.mp h).1⟩
    · exact .inl (if_neg h)
  have wide : b.unit k < (2 + b.gapBelow) * b.scale k := by
    by_contra! wider
    have scaled : 10 ^ 16 * (2 + b.gapBelow) * b.scale k ≤ 4 * b.mantissa * b.scale k := by
      rw [mul_assoc]
      exact (Nat.mul_le_mul_left _ wider).trans fine
    have := Nat.le_of_mul_le_mul_right scaled positive
    have := hb.small
    omega
  have span : (4 * b.mantissa + 2) * b.scale k =
      (4 * b.mantissa - b.gapBelow) * b.scale k + (2 + b.gapBelow) * b.scale k := by
    rw [← Nat.add_mul]
    congr 1
    omega
  have lower : (4 * b.mantissa - b.gapBelow) * b.scale k < 4 * b.mantissa * b.scale k :=
    Nat.mul_lt_mul_of_pos_right (by omega) positive
  have upper : 4 * b.mantissa * b.scale k < (4 * b.mantissa + 2) * b.scale k :=
    Nat.mul_lt_mul_of_pos_right (by omega) positive
  intro none
  have ⟨below, above⟩ := not_rounds_of_nearest? none
  rcases Nat.lt_or_ge ((4 * b.mantissa - b.gapBelow) * b.scale k) (b.floor k * b.unit k) with
    inside | outside
  · exact below (rounds_of_quarters_lt inside (low.trans_lt upper))
  · refine above (rounds_of_quarters_lt (lower.trans high) ?_)
    rw [Nat.succ_mul]
    omega

/-! ### The power of the first digit -/

/-- The value of a number. -/
def value (b : Binary) : ℚ := b.mantissa * 2 ^ b.exponent

/-- A number is no less than the power of its first digit. -/
theorem pow_length_toDigits_le (hn : 0 < n) : 10 ^ ((Nat.toDigits 10 n).length - 1) ≤ n := by
  by_contra! less
  rcases Nat.eq_zero_or_pos ((Nat.toDigits 10 n).length - 1) with zero | positive
  · rw [zero] at less
    omega
  · have := (Nat.length_toDigits_le_iff (by decide) positive).mpr less
    omega

/-- Ten is more than the cube of two. -/
theorem two_pow_le_ten_pow {i j : Nat} (h : i ≤ 3 * j) : 2 ^ i ≤ 10 ^ j :=
  calc 2 ^ i ≤ 2 ^ (3 * j) := Nat.pow_le_pow_right (by decide) h
    _ = 8 ^ j := Nat.pow_mul 2 3 j
    _ ≤ 10 ^ j := Nat.pow_le_pow_left (by decide) j

/-- The exponent is lifted until the number is as large as it should be. -/
theorem le_liftExponent {num den fuel t : Nat} (h : den ≤ num * 10 ^ (t + fuel)) :
    den ≤ num * 10 ^ liftExponent num den fuel t := by
  induction fuel generalizing t with
  | zero => exact h
  | succ fuel ih =>
      rw [liftExponent]
      split
      · assumption
      · refine ih ?_
        rwa [Nat.succ_add]

/-- The first digit is not too high. -/
theorem pow_leading_le (hb : b.Normal) (hm : 0 < b.mantissa) : (10 : ℚ) ^ b.leading ≤ b.value := by
  let num := b.mantissa * 2 ^ b.exponent.toNat
  let den := 2 ^ (-b.exponent).toNat
  have hden : 0 < den := Nat.pow_pos (by decide)
  have hnum : 0 < num := Nat.mul_pos hm (Nat.pow_pos (by decide))
  have denQ : (0 : ℚ) < den := by exact_mod_cast hden
  have ratio : (num : ℚ) = b.value * den := by
    rw [value, mul_assoc, ← Nat.cast_ofNat, ← pow_toNat (by decide)]
    exact Nat.cast_mul _ _
  have lead : b.leading = if num ≥ den then (digitCount (num / den) : Int) - 1
      else -(liftExponent num den 400 1 : Int) := rfl
  rw [lead]
  split
  · rename_i whole
    have hq : 0 < num / den := Nat.div_pos whole hden
    have count : (digitCount (num / den) : Int) - 1 =
        ((Nat.toDigits 10 (num / den)).length - 1 : Nat) := by
      have := Nat.length_toDigits_pos (b := 10) (n := num / den)
      rw [digitCount, if_neg hq.ne']
      omega
    rw [count, zpow_natCast]
    have scaled : (10 ^ ((Nat.toDigits 10 (num / den)).length - 1)) * den ≤ num :=
      (Nat.mul_le_mul_right _ (pow_length_toDigits_le hq)).trans (Nat.div_mul_le_self _ _)
    rw [← mul_le_mul_iff_left₀ denQ, ← ratio]
    exact_mod_cast scaled
  · have reach : den ≤ num * 10 ^ (1 + 400) := by
      have exponent : (-b.exponent).toNat ≤ 3 * (1 + 400) := by
        have := hb.least
        omega
      exact (two_pow_le_ten_pow exponent).trans (Nat.le_mul_of_pos_left _ hnum)
    rw [zpow_neg, zpow_natCast, ← mul_le_mul_iff_left₀ denQ, ← ratio,
      inv_mul_le_iff₀ (by positivity),
      mul_comm]
    exact_mod_cast le_liftExponent reach

/-! ### The digits that are found -/

/-- The digits that are found are rounded to their number, if any are found in time. -/
theorem rounds_search {lead : Int} {fuel n : Nat}
    (h : ∃ j < fuel, b.nearest? (lead - (n + j : Nat) + 1) ≠ none) :
    b.Rounds (b.search lead fuel n).value := by
  induction fuel generalizing n with
  | zero =>
      obtain ⟨j, hj, -⟩ := h
      omega
  | succ fuel ih =>
      rw [search]
      cases found : b.nearest? (lead - n + 1) with
      | some d =>
          dsimp only
          rw [Digits.value_trim]
          exact rounds_of_nearest? found
      | none =>
          obtain ⟨j, hj, there⟩ := h
          refine ih ?_
          cases j with
          | zero => exact absurd found there
          | succ j => exact ⟨j, by omega, by rwa [show n + 1 + j = n + (j + 1) by omega]⟩

/-- Digits are found in time. -/
theorem rounds_search_leading (hb : b.Normal) (hm : 0 < b.mantissa) :
    b.Rounds (b.search b.leading 17 1).value := by
  refine rounds_search ⟨16, by decide, nearest?_isSome hb hm ?_⟩
  have lead := pow_leading_le hb hm
  have high : ((10 ^ 16 : Nat) : ℚ) * 10 ^ (b.leading - (1 + 16 : Nat) + 1) ≤
      (4 * b.mantissa : Nat) * b.quarter := by
    have four : (4 * b.mantissa : Nat) * b.quarter = b.value := by
      rw [quarter, value, zpow_sub₀ (by norm_num)]
      push_cast
      ring
    have ten : ((10 ^ 16 : Nat) : ℚ) * 10 ^ (b.leading - (1 + 16 : Nat) + 1) = 10 ^ b.leading := by
      rw [Nat.cast_pow, Nat.cast_ofNat, ← zpow_natCast, ← zpow_add₀ (by norm_num)]
      congr 1
      omega
    rwa [four, ten]
  exact le_quarters_iff.mp high

end Binary

/-! ### Numbers -/

/-- The parts of a float, with the hidden bit where there is one. -/
theorem ofFloat_eq (x : Float) : Binary.ofFloat x =
    if scale x = 0 then ⟨fraction x, -1074, false⟩
    else ⟨fraction x + 2 ^ 52, (scale x : Int) - 1075, fraction x = 0 && scale x > 1⟩ := rfl

/-- A float is in its normal form. -/
theorem normal_ofFloat (x : Float) : (Binary.ofFloat x).Normal := by
  have small : fraction x < 2 ^ 52 := Nat.mod_lt _ (by decide)
  rw [ofFloat_eq]
  split
  · exact ⟨by dsimp only; omega, le_rfl, fun h => (h rfl).elim, by simp⟩
  · exact ⟨by dsimp only; omega, by dsimp only; omega, fun _ => Nat.le_add_left _ _, by
      simp only [Bool.and_eq_true, decide_eq_true_eq]
      omega⟩

variable {x y : Float}

/-- What is not zero has a mantissa. -/
theorem mantissa_pos (some : (x == 0) = false) : 0 < (Binary.ofFloat x).mantissa := by
  have fields := mt beq_zero_iff.mpr (Bool.eq_false_iff.mp some)
  rw [ofFloat_eq]
  split
  · dsimp only
    omega
  · exact Nat.add_pos_right _ (by decide)

/-- **The shortest digits** of a number are rounded to it. -/
theorem rounds_shortest (some : (x == 0) = false) :
    (Binary.ofFloat x).Rounds (shortest x).value :=
  Binary.rounds_search_leading (normal_ofFloat x) (mantissa_pos some)

/-- The shortest digits of what is not zero are not zero. -/
theorem value_shortest_pos (some : (x == 0) = false) : 0 < (shortest x).value := by
  have positive := mantissa_pos some
  have gap := (Binary.ofFloat x).gapBelow_le
  refine lt_of_lt_of_le (mul_pos ?_ (Binary.ofFloat x).quarter_pos) (rounds_shortest some).bounds.1
  exact_mod_cast (by omega : 0 < 4 * (Binary.ofFloat x).mantissa - (Binary.ofFloat x).gapBelow)

/-- **The shortest digits tell the magnitude of a number.** -/
theorem eq_of_shortest (hx : (x == 0) = false) (hy : (y == 0) = false)
    (h : (shortest x).value = (shortest y).value) :
    scale x = scale y ∧ fraction x = fraction y := by
  have ⟨exponent, mantissa⟩ := Binary.Rounds.unique (normal_ofFloat x) (normal_ofFloat y)
    (rounds_shortest hx) (h ▸ rounds_shortest hy)
  have smallX : fraction x < 2 ^ 52 := Nat.mod_lt _ (by decide)
  have smallY : fraction y < 2 ^ 52 := Nat.mod_lt _ (by decide)
  rw [ofFloat_eq, ofFloat_eq] at exponent mantissa
  split at exponent <;> split at exponent <;> simp_all
  all_goals omega

end MiniRuby.Decimal
