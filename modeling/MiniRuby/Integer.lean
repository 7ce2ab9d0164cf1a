import MiniRuby.Fault
import MiniRuby.Text.Blank

/-!
# Integers

Integers are words of 64 bits, and arithmetic on them is exact or refused: every operation is that
of the mathematical integers, and a result that does not fit into a word is a fault.  Division
goes to the floor, and the remainder goes with it.
-/

namespace MiniRuby.Integer

/-- Whether an integer is the value of a word. -/
def Fits (i : Int) : Prop := -9223372036854775808 ≤ i ∧ i < 9223372036854775808

instance (i : Int) : Decidable (Fits i) := inferInstanceAs (Decidable (_ ∧ _))

/-- The word for an integer, unless there is none. -/
def ofInt (i : Int) : Except Fault Int64 :=
  if Fits i then .ok (.ofInt i) else .error .overflow

def add (a b : Int64) : Except Fault Int64 := ofInt (a.toInt + b.toInt)

def sub (a b : Int64) : Except Fault Int64 := ofInt (a.toInt - b.toInt)

def mul (a b : Int64) : Except Fault Int64 := ofInt (a.toInt * b.toInt)

/-- The division of words, as it is lent by others: the quotient, rounded down, and what it
leaves. -/
structure Division where
  quotient : Int64 → Int64 → Int64
  remainder : Int64 → Int64 → Int64

/-- What is relied on in a division: it goes to the floor wherever the quotient is a word.  Of zero
as a divisor, and of the least word and -1, nothing is said. -/
structure Division.Floors (d : Division) : Prop where
  quotient : ∀ a b : Int64, b ≠ 0 → Fits (a.toInt.fdiv b.toInt) →
    (d.quotient a b).toInt = a.toInt.fdiv b.toInt
  remainder : ∀ a b : Int64, b ≠ 0 → Fits (a.toInt.fdiv b.toInt) →
    (d.remainder a b).toInt = a.toInt.fmod b.toInt

/-- A division that goes to the floor. -/
def Division.floored : Division where
  quotient a b := .ofInt (a.toInt.fdiv b.toInt)
  remainder a b := .ofInt (a.toInt.fmod b.toInt)

/-- The quotient, rounded down; the only one that is no word is refused before it is asked for. -/
def div (d : Division) (a b : Int64) : Except Fault Int64 :=
  if b = 0 then .error .divisionByZero
  else if a = Int64.minValue ∧ b = -1 then .error .overflow
  else .ok (d.quotient a b)

/-- What the quotient leaves.  Nothing is left over by -1, whether or not the quotient is a word. -/
def mod (d : Division) (a b : Int64) : Except Fault Int64 :=
  if b = 0 then .error .divisionByZero
  else if b = -1 then .ok 0
  else .ok (d.remainder a b)

def neg (a : Int64) : Except Fault Int64 := ofInt (-a.toInt)

def abs (a : Int64) : Except Fault Int64 := ofInt a.toInt.natAbs

def succ (a : Int64) : Except Fault Int64 := ofInt (a.toInt + 1)

/-- The largest exponent that a power is taken to. -/
def maxExponent : Nat := 4294967295

/-- The product of `acc` and a power, by squaring the base and halving the exponent. -/
def powerFrom (acc base : Int64) (n : Nat) : Except Fault Int64 :=
  if n = 0 then .ok acc
  else if n = 1 then mul acc base
  else do
    let acc ← (if n % 2 = 1 then mul acc base else .ok acc)
    powerFrom acc (← mul base base) (n / 2)

/-- A power with a natural exponent. -/
def pow (a : Int64) (n : Nat) : Except Fault Int64 :=
  if n > maxExponent then .error .overflow else powerFrom 1 a n

/-- The digits of an integer, after its sign. -/
def text (a : Int64) : String := toString a.toInt

/-- The integer whose digits go on with those that characters begin with, underscores anywhere
between them. -/
def readDigits (n : Int64) : List Char → Except Fault Int64
  | [] => .ok n
  | c :: cs =>
    if c = '_' then readDigits n cs
    else if c.isDigit then do
      let tens ← mul n 10
      readDigits (← add tens (.ofNat (c.toNat - '0'.toNat))) cs
    else .ok n

/-- The sign that a text begins with, or else a plus, and what comes after it. -/
def readSign : List Char → Int64 × List Char
  | '-' :: cs => (-1, cs)
  | '+' :: cs => (1, cs)
  | cs => (1, cs)

/-- The integer that a text begins with: blanks, a sign, perhaps, and digits.  A text without digits
there stands for zero.  The digits have to make a word before the sign is looked at. -/
def read (cs : List Char) : Except Fault Int64 :=
  let (sign, digits) := readSign (cs.dropWhile Text.isBlank)
  (sign * ·) <$> readDigits 0 digits

theorem toInt_fits (a : Int64) : Fits a.toInt := ⟨a.le_toInt, a.toInt_lt⟩

theorem toInt_ofInt {i : Int} (h : Fits i) : (Int64.ofInt i).toInt = i :=
  Int64.toInt_ofInt_of_le h.1 h.2

theorem ofInt_of_fits {i : Int} (h : Fits i) : ofInt i = .ok (.ofInt i) := if_pos h

theorem ofInt_of_not_fits {i : Int} (h : ¬ Fits i) : ofInt i = .error .overflow := if_neg h

theorem ofInt_toInt (a : Int64) : ofInt a.toInt = .ok a := by
  rw [ofInt_of_fits (toInt_fits a), Int64.ofInt_toInt]

theorem ofInt_eq_ok_iff (i : Int) (a : Int64) : ofInt i = .ok a ↔ a.toInt = i := by
  unfold ofInt
  split
  · rename_i h
    constructor
    · intro he
      cases he
      exact toInt_ofInt h
    · intro he
      rw [← he]
      simp
  · rename_i h
    constructor
    · intro he
      cases he
    · intro he
      exact absurd (he ▸ toInt_fits a) h

theorem ofInt_eq_error_iff (i : Int) (f : Fault) :
    ofInt i = .error f ↔ ¬ Fits i ∧ f = .overflow := by
  unfold ofInt
  split <;> simp_all [eq_comm]

/-- What goes on from a result is exact or refused if the result is, and if nothing that fits comes
of one that does not. -/
theorem ofInt_bind_eq {i j : Int} {f : Int64 → Except Fault Int64}
    (goes : Fits i → f (.ofInt i) = ofInt j) (stops : ¬ Fits i → ¬ Fits j) :
    ofInt i >>= f = ofInt j := by
  by_cases fits : Fits i
  · rw [ofInt_of_fits fits]
    exact goes fits
  · rw [ofInt_of_not_fits fits, ofInt_of_not_fits (stops fits)]
    rfl

end MiniRuby.Integer
