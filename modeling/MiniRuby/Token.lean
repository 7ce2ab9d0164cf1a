import MiniRuby.Span
import MiniRuby.Decimal.Writing
import MiniRuby.Text.Quoted

/-!
# Tokens

The words of the language: names, literals, keywords, punctuation, and line breaks, each with the
span of the text it was read from.
-/

namespace MiniRuby

/-- The reserved words. -/
inductive Keyword where
  | kBegin | kBreak | kClass | kDef | kDo | kElse | kElsif | kEnd | kEnsure | kFalse | kIf
  | kNext | kNil | kNot | kRescue | kReturn | kSelf | kThen | kTrue | kUnless | kWhile
deriving DecidableEq

namespace Keyword

/-- All reserved words, in alphabetical order. -/
def all : List Keyword :=
  [.kBegin, .kBreak, .kClass, .kDef, .kDo, .kElse, .kElsif, .kEnd, .kEnsure, .kFalse, .kIf,
    .kNext, .kNil, .kNot, .kRescue, .kReturn, .kSelf, .kThen, .kTrue, .kUnless, .kWhile]

/-- How a reserved word is spelled in a program. -/
def text : Keyword → String
  | kBegin => "begin"
  | kBreak => "break"
  | kClass => "class"
  | kDef => "def"
  | kDo => "do"
  | kElse => "else"
  | kElsif => "elsif"
  | kEnd => "end"
  | kEnsure => "ensure"
  | kFalse => "false"
  | kIf => "if"
  | kNext => "next"
  | kNil => "nil"
  | kNot => "not"
  | kRescue => "rescue"
  | kReturn => "return"
  | kSelf => "self"
  | kThen => "then"
  | kTrue => "true"
  | kUnless => "unless"
  | kWhile => "while"

/-- The reserved word that is spelled this way. -/
def ofText? (s : String) : Option Keyword := all.find? (·.text = s)

/-- How listings of tokens name a reserved word. -/
def label : Keyword → String
  | kBegin => "Begin"
  | kBreak => "Break"
  | kClass => "Class"
  | kDef => "Def"
  | kDo => "Do"
  | kElse => "Else"
  | kElsif => "Elsif"
  | kEnd => "End"
  | kEnsure => "Ensure"
  | kFalse => "False"
  | kIf => "If"
  | kNext => "Next"
  | kNil => "Nil"
  | kNot => "Not"
  | kRescue => "Rescue"
  | kReturn => "Return"
  | kSelf => "SelfValue"
  | kThen => "Then"
  | kTrue => "True"
  | kUnless => "Unless"
  | kWhile => "While"

/-- Every reserved word is found by its spelling. -/
theorem ofText?_text (k : Keyword) : ofText? k.text = some k := by
  cases k <;> decide

end Keyword

/-- The operators that combine with an assignment. -/
inductive ArithOp where
  | add | sub | mul | div
deriving DecidableEq

namespace ArithOp

/-- The method that an operator calls. -/
def method : ArithOp → String
  | add => "+"
  | sub => "-"
  | mul => "*"
  | div => "/"

def label : ArithOp → String
  | add => "Add"
  | sub => "Sub"
  | mul => "Mul"
  | div => "Div"

end ArithOp

/-- Punctuation. -/
inductive Punct where
  | lparen | rparen | lbracket | rbracket | semicolon | comma | dot
  | plus | minus | star | slash | percent | power | shiftLeft
  | assign | assignOp (op : ArithOp)
  | equal | caseEqual | unequal | greater | greaterEqual | less | lessEqual | compare
  | bitAnd | bitOr | bang | logicalAnd | logicalOr | arrow
deriving DecidableEq

namespace Punct

/-- The method that an operator calls, if it is one that calls a method. -/
def method? : Punct → Option String
  | plus => some "+"
  | minus => some "-"
  | star => some "*"
  | slash => some "/"
  | percent => some "%"
  | power => some "**"
  | shiftLeft => some "<<"
  | equal => some "=="
  | caseEqual => some "==="
  | unequal => some "!="
  | greater => some ">"
  | greaterEqual => some ">="
  | less => some "<"
  | lessEqual => some "<="
  | compare => some "<=>"
  | bitAnd => some "&"
  | bitOr => some "|"
  | bang => some "!"
  | _ => none

/-- How listings of tokens name a punctuation mark. -/
def label : Punct → String
  | lparen => "LParen"
  | rparen => "RParen"
  | lbracket => "LBracket"
  | rbracket => "RBracket"
  | semicolon => "Semi"
  | comma => "Comma"
  | dot => "Dot"
  | plus => "Plus"
  | minus => "Minus"
  | star => "Mul"
  | slash => "Div"
  | percent => "Rem"
  | power => "Pow"
  | shiftLeft => "Shl"
  | assign => "Assign"
  | assignOp op => "AssignOp(" ++ op.label ++ ")"
  | equal => "Eq"
  | caseEqual => "TEq"
  | unequal => "Ne"
  | greater => "Gt"
  | greaterEqual => "Ge"
  | less => "Lt"
  | lessEqual => "Le"
  | compare => "Cmp"
  | bitAnd => "BitAnd"
  | bitOr => "BitOr"
  | bang => "Not"
  | logicalAnd => "LAnd"
  | logicalOr => "LOr"
  | arrow => "FatArrow"

end Punct

/-- What a token is. -/
inductive TokenKind where
  | eof
  | ident (name : String)
  | instanceVar (name : String)
  | const (name : String)
  /-- An unsigned whole number.  Whether it is in range is known only once a sign before it is. -/
  | num (value : Nat)
  | float (value : Float)
  | str (text : String)
  | symbol (name : String)
  | keyword (word : Keyword)
  | punct (mark : Punct)
  | lineTerm

namespace TokenKind

/-- Whether the token is a certain punctuation mark. -/
def isPunct (k : TokenKind) (p : Punct) : Bool :=
  match k with
  | punct q => q = p
  | _ => false

/-- Whether the token is a certain reserved word. -/
def isKeyword (k : TokenKind) (w : Keyword) : Bool :=
  match k with
  | keyword v => v = w
  | _ => false

def isEof : TokenKind → Bool
  | eof => true
  | _ => false

def isLineTerm : TokenKind → Bool
  | lineTerm => true
  | _ => false

/-- Whether the token can end a statement: a line break, a semicolon, or the end of the text. -/
def isTerm : TokenKind → Bool
  | lineTerm | eof | punct .semicolon => true
  | _ => false

/-- How listings write a token. -/
def render : TokenKind → String
  | eof => "EOF"
  | ident s => "Ident(" ++ Text.listing s ++ ")"
  | instanceVar s => "InstanceVar(" ++ Text.listing s ++ ")"
  | const s => "Const(" ++ Text.listing s ++ ")"
  | num n => "NumLit(" ++ toString n ++ ")"
  | float x => "FloatLit(" ++ Decimal.write .listing x ++ ")"
  | str s => "StringLit(" ++ Text.listing s ++ ")"
  | symbol s => "Symbol(" ++ Text.listing s ++ ")"
  | keyword w => "Reserved(" ++ w.label ++ ")"
  | punct p => "Punct(" ++ p.label ++ ")"
  | lineTerm => "LineTerm"

end TokenKind

/-- A token and the characters it was read from. -/
structure Token where
  kind : TokenKind
  span : Span

namespace Token

/-- A token with its place, as listings write it. -/
def render (t : Token) : String :=
  t.kind.render ++ " at " ++ toString t.span.first ++ "..=" ++ toString t.span.last

end Token

end MiniRuby
