import Mathlib.Data.Rat.Floor
import MiniRuby.Boot
import MiniRuby.Library

/-!
# Integer arithmetic is exact or refused

The operations of integers are those of the mathematical integers: the answer is the word for the
exact result, and if there is none, a fault of range.  Sums, differences and products are worked out
exactly and then made into words.  Quotients and remainders are those of a division that the host
lends, of which it is known only that it goes to the floor where the quotient is a word.  So it has
to be shown that it is never asked for anything else, and that what is refused before is the right
thing: the only quotient that is no word is that of the least word and -1.

* `Integer.fits_fdiv_iff`: which quotients are words.
* `Integer.div_eq`, `Integer.mod_eq`: so quotients and remainders are exact or refused, too.
* `Integer.div_congr`, `Integer.mod_congr`: they do not depend on the division that is lent.
* `arithmetic_exact`: what the native methods of integers answer.
-/

namespace MiniRuby

namespace Integer

variable {a b : Int64} {d d' : Division}

/-! ### Division -/

theorem toInt_ne_zero (hb : b ≠ 0) : b.toInt ≠ 0 := fun h =>
  hb (Int64.toInt_inj.mp (h.trans (by decide)))

theorem toInt_eq_minValue_iff : a.toInt = -9223372036854775808 ↔ a = Int64.minValue := by
  rw [← Int64.toInt_inj, Int64.toInt_minValue]
  norm_num

theorem toInt_eq_neg_one_iff : b.toInt = -1 ↔ b = -1 := by
  rw [← Int64.toInt_inj, show (-1 : Int64).toInt = -1 by decide]

/-- Division to the floor rounds the quotient down. -/
theorem fdiv_eq_floor (x y : Int) : x.fdiv y = ⌊(x : ℚ) / y⌋ := by
  have natural (x : Int) (n : Nat) : x.fdiv n = ⌊(x : ℚ) / (n : Int)⌋ := by
    rw [Int.fdiv_eq_ediv_of_nonneg x (Int.natCast_nonneg n)]
    exact (Rat.floor_intCast_div_natCast x n).symm
  obtain ⟨n, rfl | rfl⟩ := y.eq_nat_or_neg
  · exact natural x n
  · have negated := natural (-x) n
    rw [← Int.neg_fdiv_neg, neg_neg, negated]
    push_cast
    rw [div_neg, neg_div]

/-- What is left over lies between zero and the divisor. -/
theorem fmod_bounds {y : Int} (x : Int) (hy : y ≠ 0) :
    0 < y ∧ 0 ≤ x.fmod y ∧ x.fmod y < y ∨ y < 0 ∧ y < x.fmod y ∧ x.fmod y ≤ 0 := by
  rcases lt_or_gt_of_ne hy with hy | hy
  · have low := Int.fmod_nonneg_of_pos (-x) (neg_pos.mpr hy)
    have high := Int.fmod_lt_of_pos (-x) (neg_pos.mpr hy)
    rw [Int.neg_fmod_neg] at low high
    exact .inr ⟨hy, by omega, by omega⟩
  · exact .inl ⟨hy, Int.fmod_nonneg_of_pos x hy, Int.fmod_lt_of_pos x hy⟩

/-- What is left over has the sign of the divisor. -/
theorem sign_fmod {y : Int} (x : Int) (hy : y ≠ 0) :
    x.fmod y = 0 ∨ (x.fmod y).sign = y.sign := by
  rcases fmod_bounds x hy with ⟨hy, low, -⟩ | ⟨hy, -, high⟩
  · rcases low.eq_or_lt with zero | positive
    · exact .inl zero.symm
    · exact .inr (by rw [Int.sign_eq_one_of_pos positive, Int.sign_eq_one_of_pos hy])
  · rcases high.eq_or_lt with zero | negative
    · exact .inl zero
    · exact .inr (by rw [Int.sign_eq_neg_one_of_neg negative, Int.sign_eq_neg_one_of_neg hy])

/-- What is left over is smaller than the divisor. -/
theorem abs_fmod_lt {y : Int} (x : Int) (hy : y ≠ 0) : |x.fmod y| < |y| := by
  rcases fmod_bounds x hy with ⟨hy, low, high⟩ | ⟨hy, low, high⟩
  · rwa [abs_of_nonneg low, abs_of_pos hy]
  · rw [abs_of_nonpos high, abs_of_neg hy]
    exact neg_lt_neg low

/-- **The only quotient that is no word** is that of the least word and -1. -/
theorem fits_fdiv_iff (hb : b ≠ 0) :
    Fits (a.toInt.fdiv b.toInt) ↔ ¬ (a = Int64.minValue ∧ b = -1) := by
  rw [← toInt_eq_minValue_iff, ← toInt_eq_neg_one_iff]
  have low := a.le_toInt
  have high := a.toInt_lt
  constructor
  · rintro ⟨-, h⟩ ⟨ha, hb⟩
    rw [ha, hb] at h
    exact absurd h (by decide)
  · intro h
    -- A quotient is no greater than the dividend, so it is one more than the greatest word at most.
    have small := Int.natAbs_fdiv_le_natAbs a.toInt b.toInt
    refine ⟨by omega, lt_of_not_ge fun hq => h ?_⟩
    have greatest : a.toInt.fdiv b.toInt = 9223372036854775808 := by omega
    have bounds := fmod_bounds a.toInt (toInt_ne_zero hb)
    rw [Int.fmod_def, greatest] at bounds
    omega

/-- Quotients are exact or refused. -/
theorem div_eq (floors : d.Floors) (hb : b ≠ 0) : div d a b = ofInt (a.toInt.fdiv b.toInt) := by
  rw [div, if_neg hb, ofInt]
  by_cases h : a = Int64.minValue ∧ b = -1
  · rw [if_pos h, if_neg fun fits => (fits_fdiv_iff hb).mp fits h]
  · have fits := (fits_fdiv_iff hb).mpr h
    rw [if_neg h, if_pos fits, ← floors.quotient a b hb fits, Int64.ofInt_toInt]

/-- A remainder is smaller than the divisor, so it is a word. -/
theorem fits_fmod (hb : b ≠ 0) : Fits (a.toInt.fmod b.toInt) := by
  have low := b.le_toInt
  have high := b.toInt_lt
  have bounds := fmod_bounds a.toInt (toInt_ne_zero hb)
  constructor <;> omega

/-- Remainders are exact. -/
theorem mod_eq (floors : d.Floors) (hb : b ≠ 0) : mod d a b = ofInt (a.toInt.fmod b.toInt) := by
  rw [mod, if_neg hb, ofInt, if_pos (fits_fmod hb)]
  by_cases h : b = -1
  · have bounds := fmod_bounds a.toInt (toInt_ne_zero hb)
    have nothing : a.toInt.fmod b.toInt = 0 := by
      rw [toInt_eq_neg_one_iff.mpr h] at bounds ⊢
      omega
    rw [if_pos h, nothing]
    rfl
  · have fits := (fits_fdiv_iff (a := a) hb).mpr fun both => h both.2
    rw [if_neg h, ← floors.remainder a b hb fits, Int64.ofInt_toInt]

/-- **Quotients do not depend on the division that is lent**, as long as it goes to the floor. -/
theorem div_congr (floors : d.Floors) (floors' : d'.Floors) : div d a b = div d' a b := by
  by_cases hb : b = 0
  · rw [div, div, if_pos hb, if_pos hb]
  · rw [div_eq floors hb, div_eq floors' hb]

/-- **Remainders do not depend on the division that is lent**, as long as it goes to the floor. -/
theorem mod_congr (floors : d.Floors) (floors' : d'.Floors) : mod d a b = mod d' a b := by
  by_cases hb : b = 0
  · rw [mod, mod, if_pos hb, if_pos hb]
  · rw [mod_eq floors hb, mod_eq floors' hb]

theorem Division.floors_floored : Division.floored.Floors where
  quotient _ _ _ fits := toInt_ofInt fits
  remainder _ _ hb _ := toInt_ofInt (fits_fmod hb)

end Integer

/-! ### Answers -/

namespace Run

/-- Whether an action answers an integer and leaves the machine alone. -/
def Answers (i : Int) (x : Run Value) : Prop :=
  ∃ r : Int64, r.toInt = i ∧ ∀ m, x m = .done (.int r) m

/-- Whether an action fails with a fault of some kind and leaves the machine alone. -/
def Refuses (kind : FaultKind) (x : Run Value) : Prop :=
  ∃ f : Fault, f.kind = kind ∧ ∀ m, x m = .failed (.ofFault f) m

/-- Whether an action answers an integer, or, if that is the value of no word, fails with a fault of
range. -/
def IsExact (i : Int) (x : Run Value) : Prop :=
  (Integer.Fits i → x.Answers i) ∧ (¬ Integer.Fits i → x.Refuses .range)

/-- Whether an action answers an integer on a machine, and leaves the machine alone. -/
def AnswersOn (m : Machine) (i : Int) (x : Run Value) : Prop :=
  ∃ r : Int64, r.toInt = i ∧ x m = .done (.int r) m

/-- Whether an action fails with a fault of some kind on a machine, and leaves the machine alone. -/
def RefusesOn (m : Machine) (kind : FaultKind) (x : Run Value) : Prop :=
  ∃ f : Fault, f.kind = kind ∧ x m = .failed (.ofFault f) m

/-- Whether an action answers an integer on a machine, or, if that is the value of no word, fails
with a fault of range. -/
def IsExactOn (m : Machine) (i : Int) (x : Run Value) : Prop :=
  (Integer.Fits i → x.AnswersOn m i) ∧ (¬ Integer.Fits i → x.RefusesOn m .range)

theorem Answers.on {i : Int} {x y : Run Value} (h : y.Answers i) {m : Machine} (same : x m = y m) :
    x.AnswersOn m i :=
  let ⟨r, value, answers⟩ := h
  ⟨r, value, same.trans (answers m)⟩

theorem Refuses.on {kind : FaultKind} {x y : Run Value} (h : y.Refuses kind) {m : Machine}
    (same : x m = y m) : x.RefusesOn m kind :=
  let ⟨f, of, fails⟩ := h
  ⟨f, of, same.trans (fails m)⟩

/-- What does on one machine as something exact does is exact there. -/
theorem IsExact.on {i : Int} {x y : Run Value} (h : y.IsExact i) {m : Machine} (same : x m = y m) :
    x.IsExactOn m i :=
  ⟨fun fits => (h.1 fits).on same, fun large => (h.2 large).on same⟩

theorem answers_ofInt {i : Int} (h : Integer.Fits i) :
    (Value.int <$> ofExcept (Integer.ofInt i)).Answers i := by
  refine ⟨.ofInt i, (Integer.ofInt_eq_ok_iff i _).mp (if_pos h), fun m => ?_⟩
  rw [Integer.ofInt, if_pos h]
  rfl

theorem isExact_ofInt (i : Int) : (Value.int <$> ofExcept (Integer.ofInt i)).IsExact i := by
  refine ⟨answers_ofInt, fun h => ⟨.overflow, rfl, fun m => ?_⟩⟩
  rw [Integer.ofInt, if_neg h]
  rfl

theorem refuses_error (f : Fault) :
    (Value.int <$> ofExcept (.error f)).Refuses f.kind :=
  ⟨f, rfl, fun _ => rfl⟩

end Run

namespace IntegerOp

theorem unary_int (f : Int64 → Except Fault Int64) (a : Int64) :
    unary f (.int a) = Value.int <$> Run.ofExcept (f a) := rfl

/-- A quotient is worked out by the division of the machine's host. -/
theorem run_div (a b : Int64) (m : Machine) : run .div (.int a) [.int b] m =
    (Value.int <$> Run.ofExcept (Integer.div m.host.division a b)) m := rfl

/-- A remainder is worked out by the division of the machine's host. -/
theorem run_mod (a b : Int64) (m : Machine) : run .mod (.int a) [.int b] m =
    (Value.int <$> Run.ofExcept (Integer.mod m.host.division a b)) m := rfl

end IntegerOp

/-- The native method that the instances of a class have by a name, with the arguments it takes. -/
def Catalogue.native? (owner : ClassId) (name : String) : Option (Arity × Native) :=
  (entries.find? fun e => e.owner = owner ∧ e.name = name).map fun e => (e.arity, e.op)

/-- Whether integers have a native method by a name that takes as many arguments as are given, and a
property holds of what it does on these. -/
def Integer.Responds (a : Int64) (name : String) (args : List Int64) (P : Run Value → Prop) :
    Prop :=
  ∃ arity op, Catalogue.native? .integer name = some (arity, op) ∧
    arity.accepts args.length = true ∧
    ∀ fuel invoke, P (op.run fuel invoke (.int a) (args.map .int))

theorem Integer.Responds.intro {a : Int64} {name : String} {args : List Int64}
    {P : Run Value → Prop} (arity : Arity) (op : IntegerOp)
    (known : Catalogue.native? .integer name = some (arity, .integer op))
    (taken : arity.accepts args.length = true) (holds : P (op.run (.int a) (args.map .int))) :
    Responds a name args P :=
  ⟨arity, .integer op, known, taken, fun _ _ => holds⟩

/-- **Integer arithmetic is exact or refused.**  Each operation answers the exact result, or, if
that does not fit into a word, fails with a fault of range.  Nothing is divided by zero.  Else a
quotient is rounded down, and only that of the least word and -1 does not fit; and the remainder is
what the quotient leaves, whether or not it fits.  The remainder is zero or has the sign of the
divisor, and it is smaller than the divisor.  Whatever division the host lends, as long as it goes
to the floor where the quotient fits, these are the quotient and the remainder that are answered. -/
theorem arithmetic_exact (a b : Int64) :
    Integer.Responds a "+" [b] (Run.IsExact (a.toInt + b.toInt)) ∧
    Integer.Responds a "-" [b] (Run.IsExact (a.toInt - b.toInt)) ∧
    Integer.Responds a "*" [b] (Run.IsExact (a.toInt * b.toInt)) ∧
    Integer.Responds a "-@" [] (Run.IsExact (-a.toInt)) ∧
    Integer.Responds a "abs" [] (Run.IsExact |a.toInt|) ∧
    Integer.Responds a "succ" [] (Run.IsExact (a.toInt + 1)) ∧
    if b = 0 then
      Integer.Responds a "/" [b] (Run.Refuses .zeroDivision) ∧
      Integer.Responds a "%" [b] (Run.Refuses .zeroDivision)
    else ∃ q r : Int, q = ⌊(a.toInt : ℚ) / b.toInt⌋ ∧ r = a.toInt - b.toInt * q ∧
      (r = 0 ∨ r.sign = b.toInt.sign) ∧ |r| < |b.toInt| ∧
      (Integer.Fits q ↔ ¬ (a = Int64.minValue ∧ b = -1)) ∧
      ∀ m : Machine, m.host.division.Floors →
        Integer.Responds a "/" [b] (Run.IsExactOn m q) ∧
        Integer.Responds a "%" [b] (Run.AnswersOn m r) := by
  have magnitude : Run.IsExact |a.toInt| (IntegerOp.unary Integer.abs (.int a)) := by
    rw [IntegerOp.unary_int, Int.abs_eq_natAbs, Integer.abs]
    exact Run.isExact_ofInt _
  refine ⟨.intro (.exact 1) .add (by decide +kernel) rfl (Run.isExact_ofInt _),
    .intro (.exact 1) .sub (by decide +kernel) rfl (Run.isExact_ofInt _),
    .intro (.exact 1) .mul (by decide +kernel) rfl (Run.isExact_ofInt _),
    .intro (.exact 0) .neg (by decide +kernel) rfl (Run.isExact_ofInt _),
    .intro (.exact 0) .abs (by decide +kernel) rfl magnitude,
    .intro (.exact 0) .succ (by decide +kernel) rfl (Run.isExact_ofInt _), ?_⟩
  have divided {P : Run Value → Prop} (h : P (IntegerOp.run .div (.int a) [.int b])) :
      Integer.Responds a "/" [b] P := .intro (.exact 1) .div (by decide +kernel) rfl h
  have reduced {P : Run Value → Prop} (h : P (IntegerOp.run .mod (.int a) [.int b])) :
      Integer.Responds a "%" [b] P := .intro (.exact 1) .mod (by decide +kernel) rfl h
  by_cases hb : b = 0
  · subst hb
    rw [if_pos rfl]
    exact ⟨divided ⟨.divisionByZero, rfl, fun _ => rfl⟩,
      reduced ⟨.divisionByZero, rfl, fun _ => rfl⟩⟩
  · rw [if_neg hb]
    have nonzero := Integer.toInt_ne_zero hb
    refine ⟨a.toInt.fdiv b.toInt, a.toInt.fmod b.toInt, Integer.fdiv_eq_floor _ _,
      Int.fmod_def _ _, Integer.sign_fmod _ nonzero, Integer.abs_fmod_lt _ nonzero,
      Integer.fits_fdiv_iff hb, fun m floors => ⟨divided ?_, reduced ?_⟩⟩
    · refine (Run.isExact_ofInt _).on ((IntegerOp.run_div a b m).trans ?_)
      rw [Integer.div_eq floors hb]
    · refine (Run.answers_ofInt (Integer.fits_fmod hb)).on ((IntegerOp.run_mod a b m).trans ?_)
      rw [Integer.mod_eq floors hb]

/-- -7 divided by 2 is -4, and 1 is left over.  The least word divided by -1 is no word, and nothing
is left over. -/
theorem arithmetic_exact_floored :
    let m := Machine.bare (.collecting "")
    m.host.division.Floors ∧
    (Integer.Responds (-7) "/" [2] (Run.IsExactOn m (-4)) ∧
      Integer.Responds (-7) "%" [2] (Run.AnswersOn m 1)) ∧
    Integer.Responds Int64.minValue "/" [-1] (Run.IsExactOn m 9223372036854775808) ∧
    Integer.Responds Int64.minValue "%" [-1] (Run.AnswersOn m 0) := by
  intro m
  have floors : m.host.division.Floors := Integer.Division.floors_floored
  have divides (a b : Int64) (q r : Int) (hb : b ≠ 0) (hq : a.toInt.fdiv b.toInt = q)
      (hr : a.toInt - b.toInt * q = r) :
      Integer.Responds a "/" [b] (Run.IsExactOn m q) ∧
        Integer.Responds a "%" [b] (Run.AnswersOn m r) := by
    obtain ⟨-, -, -, -, -, -, rest⟩ := arithmetic_exact a b
    rw [if_neg hb] at rest
    obtain ⟨q', r', quotient, remainder, -, -, -, answers⟩ := rest
    rw [← Integer.fdiv_eq_floor, hq] at quotient
    rw [quotient, hr] at remainder
    exact quotient ▸ remainder ▸ answers m floors
  exact ⟨floors, divides (-7) 2 (-4) 1 (by decide) (by decide) (by decide),
    divides Int64.minValue (-1) _ 0 (by decide) (by decide) (by decide)⟩

end MiniRuby
