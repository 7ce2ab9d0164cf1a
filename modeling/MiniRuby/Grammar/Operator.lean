import MiniRuby.Grammar.Block

/-!
# Operators

Operands and the operators between them.  The infix operators form levels of precedence, the
loosest first; operators of one level associate to the left, except for the equality operators, of
which a chain is refused, and the power operator, which stands apart and associates to the right.
-/

namespace MiniRuby.Parser

/-- The range of integer literals. -/
def minInteger : Int := -9223372036854775808

def maxInteger : Int := 9223372036854775807

/-- An operand that is not an operation. -/
def primary (rules : Rules) : Parser Node := do
  let t ← take
  let place := t.span
  match t.kind with
  | .ident text => identifier rules text place
  | .instanceVar text => .instanceVar place <$> intern text
  | .const text => constant rules text place
  | .num n =>
    if (n : Int) ≤ maxInteger then pure (.int place (Int64.ofInt n))
    else failAt .integerTooBig place
  | .float x => pure (.float place x)
  | .str s => pure (.str place s)
  | .symbol text => .symbol place <$> intern text
  | .punct .lparen => do
    let node ← rules .stmts
    expectPunct .rparen
    pure node
  | .punct .lbracket => do
    let elements ← argsUntil rules .rbracket
    pure (.array (place.merge (← prevSpan)) elements)
  | .keyword w =>
    match w with
    | .kNil => pure (.nil place)
    | .kTrue => pure (.bool place true)
    | .kFalse => pure (.bool place false)
    | .kSelf => pure (.self place)
    | .kIf => do
      let node ← branches rules place
      expectKeyword .kEnd
      pure node
    | .kUnless => unlessBlock rules place
    | .kWhile => whileBlock rules place
    | .kDef => methodDefinition rules place
    | .kClass => do
      if ← Action.view Cursor.inMethod then failAt .classInMethod place
      else classDefinition rules place
    | .kBegin => beginBlock rules place
    | .kReturn => .ofReturn place <$> jumpValue rules place
    | .kBreak => .ofBreak place <$> jumpValue rules place
    | .kNext => .ofNext place <$> jumpValue rules place
    | _ => failAt .unexpectedToken place
  | _ => failAt .unexpectedToken place

/-- An operand with what is chained onto it, perhaps negated. -/
def unary (rules : Rules) : Parser Node := do
  if ← eatPunct .bang then
    let place ← prevSpan
    .ofNot place <$> rules .unary
  else
    let node ← primary rules
    chained rules node

/-- An infix operator as a call; its name is looked up after its operands. -/
def infixCall (p : Punct) (left right : Node) : Parser Node := do
  let name ← intern (p.method?.getD "")
  pure (.ofInfix name left right)

/-- A power, or an operand that is none. -/
def power (rules : Rules) : Parser Node := do
  let left ← unary rules
  if ← eatPunctHere .power then
    let right ← rules .signed
    infixCall .power left right
  else pure left

/-- Take the number that follows a minus sign at `place`, if one does, and give it the sign. -/
def signedNumber? (place : Span) : Parser (Option Node) := do
  let t ← current
  let whole := place.merge t.span
  match t.kind with
  | .num n =>
    if minInteger ≤ -(n : Int) then
      advance
      pure (some (.int whole (Int64.ofInt (-(n : Int)))))
    else failAt .integerTooBig whole
  | .float x =>
    advance
    pure (some (.float whole (-x)))
  | _ => pure none

/-- The number that a minus sign at `place` belongs to, unless that is the base of a power. -/
def signedLiteral? (place : Span) : Parser (Option Node) := do
  if ← Action.view (·.isSecond .power) then pure none
  else signedNumber? place

/-- An operand that may carry a minus sign.  A number takes the sign itself, unless it is the base
of a power: then the power is negated. -/
def signed (rules : Rules) : Parser Node := do
  if ← eatPunct .minus then
    let place ← prevSpan
    match ← signedLiteral? place with
    | some literal => chained rules literal
    | none =>
      let operand ← rules .signed
      pure (.ofSend (place.merge operand.span) (some operand) NameId.minus [])
  else power rules

/-- How the operators of a level are read. -/
inductive LevelKind where
  /-- Any number of them, from the left. -/
  | leftAssoc
  /-- One of them at most. -/
  | nonAssoc
  /-- The short-circuit operators. -/
  | shortOr
  | shortAnd
deriving DecidableEq

/-- Operators of the same precedence. -/
structure Level where
  kind : LevelKind
  ops : List Punct

/-- The levels of precedence, the loosest first. -/
def levels : List Level :=
  [⟨.shortOr, [.logicalOr]⟩,
    ⟨.shortAnd, [.logicalAnd]⟩,
    ⟨.nonAssoc, [.equal, .caseEqual, .unequal]⟩,
    ⟨.leftAssoc, [.greaterEqual, .greater, .lessEqual, .less, .compare]⟩,
    ⟨.leftAssoc, [.bitOr]⟩,
    ⟨.leftAssoc, [.bitAnd]⟩,
    ⟨.leftAssoc, [.shiftLeft]⟩,
    ⟨.leftAssoc, [.plus, .minus]⟩,
    ⟨.leftAssoc, [.star, .slash, .percent]⟩]

/-- The operator of a level that stands at the cursor is taken, if there is one. -/
def eatOperator (level : Level) : Parser (Option Punct) := do
  match (← current).kind with
  | .punct p =>
    if level.ops.contains p then
      let _ ← take
      pure (some p)
    else pure none
  | _ => pure none

/-- Join two operands. -/
def Level.join (level : Level) (p : Punct) (left right : Node) : Parser Node :=
  match level.kind with
  | .shortOr => pure (.ofOr left right)
  | .shortAnd => pure (.ofAnd left right)
  | _ => infixCall p left right

/-- Go on after the left operand `left` if an operator of the level follows. -/
def Level.extend (level : Level) (operand : Parser Node) (left : Node) : Parser (Option Node) := do
  match ← eatOperator level with
  | some p =>
    let right ← operand
    some <$> level.join p left right
  | none => pure none

/-- An operation whose outermost operator is of one of the given levels. -/
def operation (rules : Rules) : List Level → Parser Node
  | [] => signed rules
  | level :: tighter => do
    let left ← operation rules tighter
    match level.kind with
    | .nonAssoc => do
      match ← level.extend (operation rules tighter) left with
      | some node => pure node
      | none => pure left
    | _ => chain (level.extend (operation rules tighter)) left

/-! ### Assignment -/

/-- Check that a node can be assigned to, and make a new local variable known. -/
def checkTarget (target : Node) : Parser Unit := do
  match target with
  | .ident _ name => declare name
  | .instanceVar _ _ => pure ()
  | .const place _ =>
    if ← Action.view Cursor.inMethod then failAt .dynamicConstant place
    else pure ()
  | .send place (some _) name args =>
    if args.isEmpty || name = NameId.subscript then pure ()
    else failAt .notAssignable place
  | _ => failAt .notAssignable target.span

/-- An assignment, or an operation that is none.  `a += b` stands for `a = a + b`. -/
def assignment (rules : Rules) : Parser Node := do
  let left ← operation rules levels
  if ← eatPunctHere .assign then
    checkTarget left
    let right ← rules .arg
    pure (.ofAssign left right)
  else
    match ← eatAssignOp with
    | some op =>
      checkTarget left
      let right ← rules .arg
      let name ← intern op.method
      pure (.ofAssign left (.ofInfix name left right))
    | none => pure left

end MiniRuby.Parser
