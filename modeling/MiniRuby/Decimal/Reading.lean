/-!
# Reading numbers

Unsigned decimals: digits, perhaps a point and more digits, perhaps an exponent.
-/

namespace MiniRuby.Decimal

/-- The number that a run of digits stands for. -/
def natOfDigits (cs : List Char) : Nat :=
  cs.foldl (fun n c => 10 * n + (c.toNat - '0'.toNat)) 0

/-- The floating-point number nearest to `mantissa * 10 ^ exponent`.  Magnitudes that are far out
of range are settled without computing the power. -/
def toFloat (mantissa : Nat) (exponent : Int) : Float :=
  let size : Int := (Nat.toDigits 10 mantissa).length + exponent
  if mantissa = 0 then 0
  else if size > 400 then 1.0 / 0.0
  else if size < -400 then 0
  else if exponent < 0 then Float.ofScientific mantissa true exponent.natAbs
  else Float.ofScientific mantissa false exponent.natAbs

/-- Read an exponent: a sign, perhaps, and one digit at least. -/
def readExponent? (cs : List Char) : Option Int :=
  let (negative, digits) :=
    match cs with
    | '-' :: ds => (true, ds)
    | '+' :: ds => (false, ds)
    | ds => (false, ds)
  if digits.isEmpty || !digits.all Char.isDigit then none
  else
    let n : Int := natOfDigits digits
    some (if negative then -n else n)

/-- Read an unsigned decimal number. -/
def read? (cs : List Char) : Option Float :=
  let whole := cs.takeWhile Char.isDigit
  let rest := cs.drop whole.length
  let (fraction, rest) :=
    match rest with
    | '.' :: ds => (ds.takeWhile Char.isDigit, ds.dropWhile Char.isDigit)
    | _ => ([], rest)
  let number (exponent : Int) : Float :=
    toFloat (natOfDigits (whole ++ fraction)) (exponent - fraction.length)
  if whole.isEmpty then none
  else
    match rest with
    | [] => some (number 0)
    | 'e' :: ds => (readExponent? ds).map number
    | _ => none

end MiniRuby.Decimal
