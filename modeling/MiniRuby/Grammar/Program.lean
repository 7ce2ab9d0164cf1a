import MiniRuby.Grammar.Operator

/-!
# Programs

Statements, and the whole grammar put together.  Every rule takes a token before it comes back to
another rule, so a fuel of one more than the number of tokens is enough to read any text.
-/

namespace MiniRuby

namespace Parser

/-- An expression: an assignment, or one that is negated by a word. -/
def expression (rules : Rules) : Parser Node := do
  if ← eatKeyword .kNot then
    let place ← prevSpan
    .ofNot place <$> rules .expr
  else assignment rules

/-- The statement `node` with a modifier after it, if one stands there. -/
def modified (rules : Rules) (node : Node) : Parser (Option Node) := do
  if ← eatKeywordHere .kIf then
    let place ← prevSpan
    let test ← rules .expr
    pure (some (.ofCond place test node (.nop place)))
  else if ← eatKeywordHere .kUnless then
    let place ← prevSpan
    let test ← rules .expr
    pure (some (.ofCond place test (.nop place) node))
  else if ← eatKeywordHere .kWhile then
    let place ← prevSpan
    let test ← rules .expr
    pure (some (.ofLoop place test node))
  else pure none

/-- A statement: an expression and the modifiers after it. -/
def statement (rules : Rules) : Parser Node := do
  let node ← expression rules
  chain (modified rules) node

/-- One more statement, unless a token comes next that ends them.  `more` tells whether the last
one has been ended. -/
def nextStatement (rules : Rules) : List Node × Bool → Parser (Option (List Node × Bool)) :=
  fun (body, more) => do
    if !more then pure none
    else if endsStmts (← Action.view Cursor.ahead).kind then pure none
    else
      let node ← statement rules
      let more ← eatTerms
      pure (some (node :: body, more))

/-- Statements, separated by line breaks or semicolons, up to a token that ends them. -/
def statements (rules : Rules) : Parser Node := do
  let _ ← eatTerms
  let place := (← current).span
  let (body, _) ← chain (nextStatement rules) ([], true)
  pure (.ofStmts place body.reverse)

/-- What a rule reads, given readers for the rules it comes back to. -/
def ofRule (rules : Rules) : Rule → Parser Node
  | .stmts => statements rules
  | .expr => expression rules
  | .arg => assignment rules
  | .signed => signed rules
  | .unary => unary rules
  | .branch place => branches rules place

/-- What a rule reads when rules are nested at most as deeply as there is fuel. -/
def rule : Nat → Rule → Parser Node
  | 0, _ => Action.exhaust
  | n + 1, r => ofRule (rule n) r

/-- A whole program: statements up to the end of the text. -/
def program (fuel : Nat) : Parser Node := do
  let node ← rule fuel .stmts
  let t ← Action.view Cursor.ahead
  if t.kind.isEof then pure node
  else failAt .unexpectedToken t.span

end Parser

/-- Read a program from its tokens, with the given local variables known.  The table of names
grows by the names that are met, also when the program turns out to be wrong. -/
def parseTokens (tokens : List Token) (names : NameTable) (locals : List NameId) :
    Outcome Cursor SyntaxError Node :=
  Parser.program (tokens.length + 1) ⟨tokens, ⟨0, 0⟩, names, [⟨.top, locals⟩]⟩

end MiniRuby
