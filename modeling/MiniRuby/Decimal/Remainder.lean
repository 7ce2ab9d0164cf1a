import MiniRuby.Decimal.Shortest

/-!
# Remainders

The remainder of two floating-point numbers is itself one, so it is computed without rounding.
-/

namespace MiniRuby.Decimal

/-- Whether the sign bit of a number is set. -/
def isSigned (x : Float) : Bool := x.toBits ≥ 0x8000000000000000

/-- The remainder of division toward zero, with the sign of the dividend. -/
def truncatedRemainder (x y : Float) : Float :=
  if x.isNaN || y.isNaN || x.isInf || y == 0 then 0.0 / 0.0
  else if y.isInf || x == 0 then x
  else
    let a := Binary.ofFloat x
    let b := Binary.ofFloat y
    let q := if a.exponent ≤ b.exponent then a.exponent else b.exponent
    let m := a.mantissa * Nat.pow 2 (a.exponent - q).toNat
      % (b.mantissa * Nat.pow 2 (b.exponent - q).toNat)
    let r := Float.scaleB (Float.ofNat m) q
    if isSigned x then -r else r

/-- The remainder of division toward the floor, with the sign of the divisor. -/
def flooredRemainder (x y : Float) : Float :=
  let r := truncatedRemainder x y
  if r != 0 && (r < 0 : Bool) != (y < 0 : Bool) then r + y else r

/-- The number without its fraction. -/
def truncate (x : Float) : Float := if x < 0 then x.ceil else x.floor

end MiniRuby.Decimal
