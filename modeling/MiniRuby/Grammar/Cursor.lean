import MiniRuby.Action
import MiniRuby.Name
import MiniRuby.Syntax.Error
import MiniRuby.Syntax.Node

/-!
# The reader's cursor

A program is read token by token.  The cursor holds the tokens that are left, the place of the
token taken last, the table of names, and which local variables are known in the bodies that are
open.  The end of the text is a token that can be looked at but is never taken.
-/

namespace MiniRuby

/-- The kinds of bodies that know local variables of their own. -/
inductive BodyKind where
  | top
  | classBody
  | methodBody
deriving DecidableEq

/-- A body that is being read and the local variables first met in it. -/
structure Body where
  kind : BodyKind
  locals : List NameId

/-- How far the reader has come. -/
structure Cursor where
  rest : List Token
  prev : Span
  names : NameTable
  /-- The open bodies, innermost first. -/
  bodies : List Body

namespace Cursor

/-- The token at the cursor, which may be a line break. -/
def current (c : Cursor) : Token := c.rest.headD ⟨.eof, default⟩

/-- What is left without the line breaks at the front. -/
def significant (c : Cursor) : List Token := c.rest.dropWhile (·.kind.isLineTerm)

/-- The next token that is not a line break. -/
def ahead (c : Cursor) : Token := c.significant.headD ⟨.eof, default⟩

/-- Whether blanks separate the token taken last and the next one. -/
def hasGap (c : Cursor) : Bool := c.current.span.first > c.prev.last + 1

/-- Whether blanks separate the next token and the one after it. -/
def hasGapAfter (c : Cursor) : Bool :=
  match c.rest with
  | t :: u :: _ => u.span.first > t.span.last + 1
  | _ => true

/-- Whether the token after the next one is a certain punctuation mark. -/
def isSecond (c : Cursor) (p : Punct) : Bool :=
  match c.rest with
  | _ :: u :: _ => u.kind.isPunct p
  | _ => false

/-- Whether an opening parenthesis follows without a gap. -/
def opensCall (c : Cursor) : Bool := c.current.kind.isPunct .lparen && !c.hasGap

/-- Whether a name is known as a local variable in some open body. -/
def isLocal (c : Cursor) (name : NameId) : Bool := c.bodies.any fun b => b.locals.contains name

/-- Whether a method's body is open. -/
def inMethod (c : Cursor) : Bool := c.bodies.any fun b => b.kind = .methodBody

/-- Make a name known as a local variable of the innermost body, unless it is known already. -/
def declare (c : Cursor) (name : NameId) : Cursor :=
  if c.isLocal name then c
  else
    match c.bodies with
    | b :: bs => { c with bodies := ⟨b.kind, name :: b.locals⟩ :: bs }
    | [] => c

end Cursor

/-- A rule of the grammar at work. -/
abbrev Parser := Action Cursor SyntaxError

namespace Parser

variable {α : Type}

/-- Fail because of `cause` at `span`. -/
def failAt (cause : SyntaxCause) (span : Span) : Parser α := Action.fail ⟨cause, span⟩

/-- The token at the cursor. -/
def current : Parser Token := Action.view Cursor.current

/-- The place of the token taken last. -/
def prevSpan : Parser Span := Action.view Cursor.prev

/-- The position of a name in the table of names. -/
def intern (name : String) : Parser NameId := Action.transform fun c =>
  let r := c.names.intern name
  (r.1, { c with names := r.2 })

/-- Make a name known as a local variable. -/
def declare (name : NameId) : Parser Unit := Action.update (·.declare name)

/-- Take the next token, skipping line breaks before it.  At the end of the text the program is
cut short. -/
def take : Parser Token := fun c =>
  match c.significant with
  | t :: rest =>
    if t.kind.isEof then .failed ⟨.unexpectedEnd, t.span⟩ c
    else .done t { c with rest, prev := t.span }
  | [] => .failed ⟨.unexpectedEnd, c.ahead.span⟩ c

/-- Take the token at the cursor, unless it is the end of the text. -/
def advance : Parser Unit := fun c =>
  match c.rest with
  | t :: rest => if t.kind.isEof then .done () c else .done () { c with rest, prev := t.span }
  | [] => .done () c

/-- Take a punctuation mark if it comes next, line breaks aside. -/
def eatPunct (p : Punct) : Parser Bool := do
  if (← Action.view Cursor.ahead).kind.isPunct p then
    let _ ← take
    pure true
  else pure false

/-- Take a punctuation mark if it stands at the cursor. -/
def eatPunctHere (p : Punct) : Parser Bool := do
  if (← current).kind.isPunct p then
    let _ ← take
    pure true
  else pure false

/-- Take the operator of a compound assignment if it stands at the cursor. -/
def eatAssignOp : Parser (Option ArithOp) := do
  match (← current).kind with
  | .punct (.assignOp op) =>
    advance
    pure (some op)
  | _ => pure none

/-- Take a reserved word if it comes next, line breaks aside. -/
def eatKeyword (w : Keyword) : Parser Bool := do
  if (← Action.view Cursor.ahead).kind.isKeyword w then
    let _ ← take
    pure true
  else pure false

/-- Take a reserved word if it stands at the cursor. -/
def eatKeywordHere (w : Keyword) : Parser Bool := do
  if (← current).kind.isKeyword w then
    advance
    pure true
  else pure false

/-- Whether a token is a line break or a semicolon. -/
def isSeparator (t : Token) : Bool := t.kind.isTerm && !t.kind.isEof

/-- Skip a run of line breaks and semicolons.  The answer tells whether a statement may end here,
as it also may at the end of the text. -/
def eatTerms : Parser Bool := fun c =>
  if c.current.kind.isTerm then
    let skipped := c.rest.takeWhile isSeparator
    let prev := match skipped.getLast? with
      | some t => t.span
      | none => c.prev
    .done true { c with rest := c.rest.dropWhile isSeparator, prev }
  else .done false c

/-- The next token has to be a certain reserved word. -/
def expectKeyword (w : Keyword) : Parser Unit := do
  let t ← take
  if t.kind.isKeyword w then pure () else failAt (.expectedKeyword w) t.span

/-- The next token has to be a certain punctuation mark. -/
def expectPunct (p : Punct) : Parser Unit := do
  let t ← take
  if t.kind.isPunct p then pure () else failAt .unexpectedToken t.span

/-- The next token has to be an identifier. -/
def expectIdent : Parser NameId := do
  let t ← take
  match t.kind with
  | .ident name => intern name
  | _ => failAt .expectedIdentifier t.span

/-- Read with a further body open. -/
def within (kind : BodyKind) (p : Parser α) : Parser α := do
  Action.update fun c => { c with bodies := ⟨kind, []⟩ :: c.bodies }
  let a ← p
  Action.update fun c => { c with bodies := c.bodies.tail }
  pure a

/-- Repeat a step until it has nothing to add, at most once for each token of a list. -/
def iterate (step : α → Parser (Option α)) : List Token → α → Parser α
  | [], a => do
    match ← step a with
    | some _ => Action.exhaust
    | none => pure a
  | _ :: tokens, a => do
    match ← step a with
    | some b => iterate step tokens b
    | none => pure a

/-- Repeat a step until it has nothing to add.  A step that adds something takes a token, so the
tokens that are left bound the number of steps. -/
def chain (step : α → Parser (Option α)) (a : α) : Parser α := fun c => iterate step c.rest a c

end Parser

/-- The rules of the grammar that other rules come back to. -/
inductive Rule where
  /-- Statements up to a token that ends them. -/
  | stmts
  /-- An expression, perhaps negated by a word. -/
  | expr
  /-- An assignment or an operand of one. -/
  | arg
  /-- An operand that may carry a minus sign. -/
  | signed
  /-- An operand that may carry an exclamation mark. -/
  | unary
  /-- A condition and its branches, after the word at the given place. -/
  | branch (place : Span)

/-- A reader for each rule. -/
abbrev Rules := Rule → Parser Node

end MiniRuby
