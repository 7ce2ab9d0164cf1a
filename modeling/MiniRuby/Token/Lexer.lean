import MiniRuby.Syntax.Error
import MiniRuby.Decimal.Reading

/-!
# Reading tokens

A text is read from left to right.  Blanks between tokens are skipped, and so are comments; a run
of blanks that holds line breaks leaves a single line break token at the first of them.  Every
other token is read from its first character `c` and the characters `rest` after it, and the
answer tells how many characters of `rest` belong to it.  So each token takes up at least one
character, and reading comes to an end because what is left to read gets shorter.
-/

namespace MiniRuby

namespace Lexer

/-! ### Names -/

/-- Characters a name can start with. -/
def isNameStart (c : Char) : Bool := c.isAlpha || c = '_'

/-- Characters a name can go on with. -/
def isNameChar (c : Char) : Bool := c.isAlphanum || c = '_'

/-- Whether a text starts with a name. -/
def startsName : List Char → Bool
  | c :: _ => isNameStart c
  | [] => false

/-- Whether a text starts with a digit. -/
def startsDigit : List Char → Bool
  | c :: _ => c.isDigit
  | [] => false

/-- The question or exclamation mark that ends a name; it belongs to the name unless an equals
sign follows it. -/
def nameMark : List Char → List Char
  | c :: rest =>
    if c = '?' || c = '!' then
      match rest with
      | '=' :: _ => []
      | _ => [c]
    else []
  | [] => []

/-- The rest of a name: all name characters, and a mark if there is one. -/
def nameTail (rest : List Char) : List Char :=
  let chars := rest.takeWhile isNameChar
  chars ++ nameMark (rest.drop chars.length)

/-- A word: reserved, a constant if it starts with a capital, else an identifier. -/
def wordKind (c : Char) (word : String) : TokenKind :=
  match Keyword.ofText? word with
  | some k => .keyword k
  | none => if c.isUpper then .const word else .ident word

/-! ### Numbers -/

/-- The rest of a number: the characters it is spelled with, whether it has a fraction or an
exponent, and how many characters of the text it takes up. -/
structure NumberTail where
  text : List Char
  isFloat : Bool
  length : Nat

def isExponentMark (c : Char) : Bool := c = 'e' || c = 'E'

def isSign (c : Char) : Bool := c = '+' || c = '-'

/-- Read the rest of a number.  Underscores are skipped; a point belongs to the number if it is
the first and a digit follows it, an exponent mark if an exponent follows it. -/
def numberTail (isFloat : Bool) : List Char → NumberTail
  | [] => ⟨[], isFloat, 0⟩
  | c :: rest =>
    if c.isDigit then
      let t := numberTail isFloat rest
      ⟨c :: t.text, t.isFloat, t.length + 1⟩
    else if c = '_' then
      let t := numberTail isFloat rest
      ⟨t.text, t.isFloat, t.length + 1⟩
    else if c = '.' && !isFloat && startsDigit rest then
      let t := numberTail true rest
      ⟨c :: t.text, t.isFloat, t.length + 1⟩
    else if isExponentMark c && startsDigit rest then
      let t := numberTail true rest
      ⟨'e' :: t.text, t.isFloat, t.length + 1⟩
    else if isExponentMark c then
      match rest with
      | s :: rest' =>
        if isSign s && startsDigit rest' then
          let t := numberTail true rest'
          ⟨'e' :: s :: t.text, t.isFloat, t.length + 2⟩
        else ⟨[], isFloat, 0⟩
      | [] => ⟨[], isFloat, 0⟩
    else ⟨[], isFloat, 0⟩

/-- Whole numbers have to fit into 64 bits. -/
def maxNumber : Nat := 18446744073709551615

/-! ### Strings -/

/-- The character that a backslash and the character `c` stand for between double quotes. -/
def unescape (c : Char) : Char :=
  match c with
  | 'a' => '\x07'
  | 'b' => '\x08'
  | 'e' => '\x1b'
  | 'f' => '\x0c'
  | 'n' => '\n'
  | 'r' => '\r'
  | 's' => ' '
  | 't' => '\t'
  | 'v' => '\x0b'
  | '0' => '\x00'
  | c => c

/-- The contents of a string and how many characters they and the closing quote take up. -/
structure StringTail where
  text : List Char
  length : Nat

/-- Put a character in front, for which `n` characters were read. -/
def StringTail.push (c : List Char) (n : Nat) (t : StringTail) : StringTail :=
  ⟨c ++ t.text, t.length + n⟩

/-- Read up to a double quote; nothing if there is none. -/
def doubleQuoted? : List Char → Option StringTail
  | [] => none
  | '"' :: _ => some ⟨[], 1⟩
  | '\\' :: c :: rest => (doubleQuoted? rest).map (.push [unescape c] 2)
  | c :: rest => (doubleQuoted? rest).map (.push [c] 1)

/-- The characters that a backslash and `c` stand for between single quotes. -/
def singleEscape (c : Char) : List Char := if c = '\'' || c = '\\' then [c] else ['\\', c]

/-- Read up to a single quote; nothing if there is none. -/
def singleQuoted? : List Char → Option StringTail
  | [] => none
  | '\'' :: _ => some ⟨[], 1⟩
  | '\\' :: c :: rest => (singleQuoted? rest).map (.push (singleEscape c) 2)
  | c :: rest => (singleQuoted? rest).map (.push [c] 1)

/-! ### Symbols -/

/-- The operators that a symbol can name, longer ones before the ones they start with. -/
def symbolOperators : List (List Char) :=
  [['[', ']', '='], ['=', '=', '='], ['<', '=', '>'], ['[', ']'], ['=', '='], ['!', '='],
    ['<', '='], ['>', '='], ['<', '<'], ['*', '*'], ['-', '@'], ['+'], ['-'], ['*'], ['/'], ['%'],
    ['<'], ['>'], ['!'], ['&'], ['|']]

/-- The equals sign of a setter's name, unless it begins another operator. -/
def setterMark (name rest : List Char) : List Char :=
  match rest with
  | '=' :: after =>
    if name.getLast? = some '?' || name.getLast? = some '!' then []
    else
      match after with
      | '=' :: _ => []
      | '>' :: _ => []
      | _ => ['=']
  | _ => []

/-- The name in a symbol, given the text after the colon. -/
def symbolName? (rest : List Char) : Option (List Char) :=
  match rest with
  | c :: after =>
    if isNameStart c then
      let name := c :: nameTail after
      some (name ++ setterMark name (rest.drop name.length))
    else if c = '@' then
      match after with
      | d :: _ => if isNameStart d then some ('@' :: after.takeWhile isNameChar) else none
      | [] => none
    else symbolOperators.find? fun op => op.isPrefixOf rest
  | [] => none

/-! ### Punctuation -/

/-- The punctuation mark that starts with `c`, and how many further characters it has. -/
def punct? (c : Char) (rest : List Char) : Option (Punct × Nat) :=
  match c, rest with
  | ';', _ => some (.semicolon, 0)
  | ',', _ => some (.comma, 0)
  | '.', _ => some (.dot, 0)
  | '(', _ => some (.lparen, 0)
  | ')', _ => some (.rparen, 0)
  | '[', _ => some (.lbracket, 0)
  | ']', _ => some (.rbracket, 0)
  | '%', _ => some (.percent, 0)
  | '+', '=' :: _ => some (.assignOp .add, 1)
  | '+', _ => some (.plus, 0)
  | '-', '=' :: _ => some (.assignOp .sub, 1)
  | '-', _ => some (.minus, 0)
  | '/', '=' :: _ => some (.assignOp .div, 1)
  | '/', _ => some (.slash, 0)
  | '*', '*' :: _ => some (.power, 1)
  | '*', '=' :: _ => some (.assignOp .mul, 1)
  | '*', _ => some (.star, 0)
  | '=', '=' :: '=' :: _ => some (.caseEqual, 2)
  | '=', '=' :: _ => some (.equal, 1)
  | '=', '>' :: _ => some (.arrow, 1)
  | '=', _ => some (.assign, 0)
  | '<', '=' :: '>' :: _ => some (.compare, 2)
  | '<', '=' :: _ => some (.lessEqual, 1)
  | '<', '<' :: _ => some (.shiftLeft, 1)
  | '<', _ => some (.less, 0)
  | '>', '=' :: _ => some (.greaterEqual, 1)
  | '>', _ => some (.greater, 0)
  | '!', '=' :: _ => some (.unequal, 1)
  | '!', _ => some (.bang, 0)
  | '&', '&' :: _ => some (.logicalAnd, 1)
  | '&', _ => some (.bitAnd, 0)
  | '|', '|' :: _ => some (.logicalOr, 1)
  | '|', _ => some (.bitOr, 0)
  | _, _ => none

/-! ### Tokens -/

/-- Whether a minus sign is followed by the rest of the name `-@`, and not by an instance
variable. -/
def isMinusName : List Char → Bool
  | '@' :: rest => !startsName rest
  | _ => false

/-- Read a number that starts with the digit `c` at `pos`. -/
def scanNumber (pos : Nat) (c : Char) (rest : List Char) :
    Except SyntaxError (TokenKind × Nat) :=
  let t := numberTail false rest
  let digits := c :: t.text
  let span : Span := ⟨pos, pos + t.length⟩
  if t.isFloat then
    match Decimal.read? digits with
    | some x => .ok (.float x, t.length)
    | none => .error ⟨.badFloat (String.ofList digits), span⟩
  else
    let n := Decimal.natOfDigits digits
    if n ≤ maxNumber then .ok (.num n, t.length)
    else .error ⟨.numberTooLong (String.ofList digits), span⟩

/-- Read a string whose contents and closing quote have been looked for. -/
def scanString (pos : Nat) (rest : List Char) (tail : Option StringTail) :
    Except SyntaxError (TokenKind × Nat) :=
  match tail with
  | some t => .ok (.str (String.ofList t.text), t.length)
  | none => .error ⟨.unexpectedEnd, .point (pos + 1 + rest.length)⟩

/-- Read a symbol whose colon stands at `pos`. -/
def scanSymbol (pos : Nat) (rest : List Char) : Except SyntaxError (TokenKind × Nat) :=
  match symbolName? rest with
  | some name => .ok (.symbol (String.ofList name), name.length)
  | none =>
    match rest with
    | '@' :: _ => .error ⟨.unexpectedChar '@', ⟨pos, pos + 1⟩⟩
    | _ => .error ⟨.unexpectedChar ':', .point pos⟩

/-- Read the token that starts with the character `c` at `pos`.  The answer is the token and the
number of characters of `rest` that belong to it. -/
def scan (pos : Nat) (c : Char) (rest : List Char) : Except SyntaxError (TokenKind × Nat) :=
  if isNameStart c then
    let tail := nameTail rest
    .ok (wordKind c (String.ofList (c :: tail)), tail.length)
  else if c.isDigit then scanNumber pos c rest
  else if c = '"' then scanString pos rest (doubleQuoted? rest)
  else if c = '\'' then scanString pos rest (singleQuoted? rest)
  else if c = '@' then
    if startsName rest then
      let tail := rest.takeWhile isNameChar
      .ok (.instanceVar (String.ofList (c :: tail)), tail.length)
    else .error ⟨.unexpectedChar c, .point pos⟩
  else if c = ':' then scanSymbol pos rest
  else if c = '-' && isMinusName rest then .ok (.ident "-@", 1)
  else
    match punct? c rest with
    | some (p, n) => .ok (.punct p, n)
    | none => .error ⟨.unexpectedChar c, .point pos⟩

/-- Whether `c` is skipped between tokens. -/
def isGap (c : Char) : Bool := c = ' ' || c = '\t' || c = '\r'

/-- Whether a backslash that is followed by `rest` joins two lines. -/
def joinsLines : List Char → Bool
  | c :: _ => c = '\n'
  | [] => false

/-- Read a text whose first character stands at `pos`.  `broken` tells whether a line break has
been met since the last token or comment. -/
def tokensFrom (pos : Nat) (broken : Bool) : List Char → Except SyntaxError (List Token)
  | [] => .ok [⟨.eof, .point pos⟩]
  | c :: rest =>
    if isGap c then tokensFrom (pos + 1) broken rest
    else if c = '\n' then do
      let tokens ← tokensFrom (pos + 1) true rest
      .ok (if broken then tokens else ⟨.lineTerm, .point pos⟩ :: tokens)
    else if c = '\\' && joinsLines rest then tokensFrom (pos + 2) broken (rest.drop 1)
    else if c = '#' then
      let n := (rest.takeWhile (· ≠ '\n')).length
      tokensFrom (pos + 1 + n) false (rest.drop n)
    else do
      let (kind, n) ← scan pos c rest
      let tokens ← tokensFrom (pos + 1 + n) false (rest.drop n)
      .ok (⟨kind, ⟨pos, pos + n⟩⟩ :: tokens)
termination_by cs => cs.length
decreasing_by all_goals simp only [List.length_cons, List.length_drop]; omega

end Lexer

/-- The tokens of a text.  The last one, and no other, marks the end of the text. -/
def tokenize (text : List Char) : Except SyntaxError (List Token) := Lexer.tokensFrom 0 false text

end MiniRuby
