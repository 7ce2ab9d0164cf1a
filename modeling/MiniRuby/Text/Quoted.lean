import MiniRuby.Text.Printable
import MiniRuby.Text.Extending

/-!
# Quoted text

Two ways to write a text between double quotes.  In listings of tokens and programs every
character without a printed form of its own is written by its code point.  The text of a string
value spells the common control characters by letters and the other ones by two hexadecimal
digits, and leaves all else as it is.
-/

namespace MiniRuby.Text

/-- Hexadecimal digits in small letters. -/
def hex (n : Nat) : List Char := Nat.toDigits 16 n

/-- A character as listings write it. -/
def listingChar (c : Char) : List Char :=
  if c = '\t' then ['\\', 't']
  else if c = '\n' then ['\\', 'n']
  else if c = '\r' then ['\\', 'r']
  else if c = '\x00' then ['\\', '0']
  else if c = '"' then ['\\', '"']
  else if c = '\\' then ['\\', '\\']
  else if c.toNat < 0x7f && 0x20 ≤ c.toNat then [c]
  else if isExtending c || !isPrintable c then
    ['\\', 'u', Char.ofNat 0x7b] ++ hex c.toNat ++ [Char.ofNat 0x7d]
  else [c]

/-- A text as listings write it. -/
def listing (s : String) : String :=
  String.ofList ('"' :: s.toList.flatMap listingChar ++ ['"'])

/-- The control characters are those below the blank and those from delete up to `9f`. -/
def isControl (c : Char) : Bool :=
  c.toNat < 0x20 || (0x7f ≤ c.toNat && c.toNat ≤ 0x9f)

/-- Two hexadecimal digits in capital letters. -/
def hexPair (n : Nat) : List Char :=
  let digits := (Nat.toDigits 16 n).map Char.toUpper
  List.replicate (2 - digits.length) '0' ++ digits

/-- A character as the text of a string value writes it. -/
def inspectChar (c : Char) : List Char :=
  if c = '"' then ['\\', '"']
  else if c = '\\' then ['\\', '\\']
  else if c = '\n' then ['\\', 'n']
  else if c = '\t' then ['\\', 't']
  else if c = '\r' then ['\\', 'r']
  else if c = '\x1b' then ['\\', 'e']
  else if c = '\x00' then ['\\', '0']
  else if isControl c then ['\\', 'x'] ++ hexPair c.toNat
  else [c]

/-- The text of a string value. -/
def inspect (s : String) : String :=
  String.ofList ('"' :: s.toList.flatMap inspectChar ++ ['"'])

end MiniRuby.Text
