import MiniRuby.Decimal.Shortest

/-!
# Writing numbers

A floating-point number is written with its shortest digits, positionally while the power of ten
of its first digit is moderate and with an exponent otherwise.  The two places that write numbers,
listings of programs and the text of a value, differ only in the details that `Style` records.
-/

namespace MiniRuby.Decimal

/-- The details of writing a number. -/
structure Style where
  /-- Whether a mantissa of one digit is followed by `.0`. -/
  wholeMantissa : Bool
  /-- Whether an exponent that is not negative carries a plus sign. -/
  plusSign : Bool
  /-- The least number of digits of an exponent. -/
  exponentWidth : Nat
  infinity : String

/-- Numbers in listings: `1e16`, `1.5e-7`, `inf`. -/
def Style.listing : Style := ⟨false, false, 1, "inf"⟩

/-- Numbers as values: `1.0e+16`, `1.5e-07`, `Infinity`. -/
def Style.value : Style := ⟨true, true, 2, "Infinity"⟩

/-- The powers of ten of a first digit that is written positionally. -/
def isPositional (lead : Int) : Bool := -4 ≤ lead && lead < 16

def zeros (n : Nat) : String := String.ofList (List.replicate n '0')

/-- Digits with the point where it belongs, and at least one digit on either side of it. -/
def positional (digits : List Char) (lead : Int) : String :=
  if lead < 0 then "0." ++ zeros (-lead - 1).toNat ++ String.ofList digits
  else
    let whole := lead.toNat + 1
    if digits.length ≤ whole then
      String.ofList digits ++ zeros (whole - digits.length) ++ ".0"
    else String.ofList (digits.take whole) ++ "." ++ String.ofList (digits.drop whole)

/-- A mantissa with one digit before the point, and an exponent. -/
def scientific (style : Style) (digits : List Char) (lead : Int) : String :=
  let mantissa :=
    match digits with
    | [d] => String.singleton d ++ (if style.wholeMantissa then ".0" else "")
    | d :: ds => String.singleton d ++ "." ++ String.ofList ds
    | [] => ""
  let sign := if lead < 0 then "-" else if style.plusSign then "+" else ""
  let exponent := toString lead.natAbs
  mantissa ++ "e" ++ sign ++ zeros (style.exponentWidth - exponent.length) ++ exponent

/-- The text of a number. -/
def write (style : Style) (x : Float) : String :=
  if x.isNaN then "NaN"
  else
    let sign := if x.toBits ≥ 0x8000000000000000 then "-" else ""
    if x.isInf then sign ++ style.infinity
    else if x == 0 then sign ++ "0.0"
    else
      let d := shortest x
      let digits := Nat.toDigits 10 d.digits
      let lead := d.exponent + digits.length - 1
      sign ++ (if isPositional lead then positional digits lead else scientific style digits lead)

end MiniRuby.Decimal
