/-!
# Shortest decimals

The decimal digits that stand for a floating-point number: the fewest that are read back as the
same number, and among those the nearest to it.  All comparisons are exact.
-/

namespace MiniRuby.Decimal

/-- A positive number `mantissa * 2 ^ exponent` as the floating-point format holds it, with the
knowledge whether the gap below it is half as wide as the gap above. -/
structure Binary where
  mantissa : Nat
  exponent : Int
  narrowBelow : Bool

/-- The magnitude of a finite number. -/
def Binary.ofFloat (x : Float) : Binary :=
  let bits : Nat := x.toBits.toNat
  let fraction : Nat := bits % 4503599627370496
  let scale : Nat := bits / 4503599627370496 % 2048
  if scale = 0 then ⟨fraction, -1074, false⟩
  else ⟨fraction + 4503599627370496, (scale : Int) - 1075, fraction = 0 && scale > 1⟩

/-- A decimal `digits * 10 ^ exponent`. -/
structure Digits where
  digits : Nat
  exponent : Int
deriving DecidableEq

/-- How many decimal digits a number is written with; none for zero. -/
def digitCount (n : Nat) : Nat := if n = 0 then 0 else (Nat.toDigits 10 n).length

/-- The least `t` up to the bound such that `num * 10 ^ t` reaches `den`. -/
def liftExponent (num den : Nat) : Nat → Nat → Nat
  | 0, t => t
  | fuel + 1, t => if num * Nat.pow 10 t ≥ den then t else liftExponent num den fuel (t + 1)

/-- The power of ten of the first digit of a positive number. -/
def Binary.leading (b : Binary) : Int :=
  let num := b.mantissa * Nat.pow 2 b.exponent.toNat
  let den := Nat.pow 2 (-b.exponent).toNat
  if num ≥ den then (digitCount (num / den) : Int) - 1
  else -(liftExponent num den 400 1 : Int)

/-- The decimal with last digit at `10 ^ k` that lies nearest to the number among the two that
enclose it, if one of them is read back as the number.  Of two at the same distance it is the
larger. -/
def Binary.nearest? (b : Binary) (k : Int) : Option Nat :=
  let unit := Nat.pow 10 k.toNat * Nat.pow 2 (2 - b.exponent).toNat
  let scale := Nat.pow 2 (b.exponent - 2).toNat * Nat.pow 10 (-k).toNat
  let value := 4 * b.mantissa * scale
  let low := (4 * b.mantissa - (if b.narrowBelow then 1 else 2)) * scale
  let high := (4 * b.mantissa + 2) * scale
  let closed := b.mantissa % 2 = 0
  let readsBack (c : Nat) : Bool :=
    if closed then low ≤ c * unit && c * unit ≤ high else low < c * unit && c * unit < high
  let below := value / unit
  let above := below + 1
  match readsBack below, readsBack above with
  | true, true => if value - below * unit < above * unit - value then some below else some above
  | true, false => some below
  | false, true => some above
  | false, false => none

/-- Drop the zeros at the end of the digits. -/
def Digits.trim (d : Digits) : Nat → Digits
  | 0 => d
  | fuel + 1 =>
    if d.digits ≠ 0 && d.digits % 10 = 0 then
      Digits.trim ⟨d.digits / 10, d.exponent + 1⟩ fuel
    else d

/-- Try ever more digits, starting with `n` of them. -/
def Binary.search (b : Binary) (lead : Int) : Nat → Nat → Digits
  | 0, _ => ⟨b.mantissa, 0⟩
  | fuel + 1, n =>
    let k := lead - n + 1
    match b.nearest? k with
    | some d => Digits.trim ⟨d, k⟩ 20
    | none => b.search lead fuel (n + 1)

/-- The shortest digits of a finite, non-zero number's magnitude. -/
def shortest (x : Float) : Digits :=
  let b := Binary.ofFloat x
  b.search b.leading 17 1

end MiniRuby.Decimal
