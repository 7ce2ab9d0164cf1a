import MiniRuby.Grammar.Call

/-!
# Blocks

Conditions, loops, guarded bodies, and the definitions of methods and classes.
-/

namespace MiniRuby.Parser

/-- Whether a token ends a list of statements. -/
def endsStmts : TokenKind → Bool
  | .eof => true
  | .keyword w =>
    match w with
    | .kElse | .kElsif | .kEnd | .kRescue | .kEnsure | .kThen => true
    | _ => false
  | .punct .rparen => true
  | _ => false

/-- What separates a condition from what depends on it: a word, a statement end, or both. -/
def opening (w : Keyword) : Parser Unit := do
  if ← eatTerms then
    let _ ← eatKeyword w
    pure ()
  else expectKeyword w

/-- The branch after the word `else`, which has no statements if it is not there. -/
def elseBranch (rules : Rules) : Parser Node := do
  if ← eatKeyword .kElse then rules .stmts
  else pure (.nop (← current).span)

/-- The branch taken when a condition does not hold, which may be a condition again. -/
def otherBranch (rules : Rules) : Parser Node := do
  if ← eatKeyword .kElsif then rules (.branch (← prevSpan))
  else elseBranch rules

/-- A condition with its branches, up to but not including the closing word. -/
def branches (rules : Rules) (place : Span) : Parser Node := do
  let test ← rules .expr
  opening .kThen
  let yes ← rules .stmts
  let no ← otherBranch rules
  pure (.ofCond place test yes no)

/-- A negated condition, with its closing word. -/
def unlessBlock (rules : Rules) (place : Span) : Parser Node := do
  let test ← rules .expr
  opening .kThen
  let no ← rules .stmts
  let yes ← elseBranch rules
  expectKeyword .kEnd
  pure (.ofCond place test yes no)

/-- A loop, with its closing word. -/
def whileBlock (rules : Rules) (place : Span) : Parser Node := do
  let test ← rules .expr
  opening .kDo
  let body ← rules .stmts
  expectKeyword .kEnd
  pure (.ofLoop (place.merge (← prevSpan)) test body)

/-- The value of a jump, which is nil if there is none. -/
def jumpValue (rules : Rules) (place : Span) : Parser Node := do
  let kind := (← current).kind
  if kind.isTerm || endsStmts kind || kind.isKeyword .kIf || kind.isKeyword .kUnless
      || kind.isKeyword .kWhile then
    pure (.nil place)
  else rules .arg

/-- The classes of errors that a rescue clause names. -/
def rescueClasses (rules : Rules) : Parser (List Node) := do
  if (← current).kind.isPunct .arrow then pure []
  else commandArgs rules

/-- The variable that a rescue clause binds the error to. -/
def rescueBinder : Parser (Option NameId) := do
  if ← eatPunctHere .arrow then
    let name ← expectIdent
    declare name
    pure (some name)
  else pure none

/-- A rescue clause after its word. -/
def rescueClause (rules : Rules) : Parser (RescueClause Node) := do
  if ← eatTerms then
    let body ← rules .stmts
    pure ⟨[], none, body⟩
  else
    let classes ← rescueClasses rules
    let binder? ← rescueBinder
    opening .kThen
    let body ← rules .stmts
    pure ⟨classes, binder?, body⟩

/-- One more rescue clause, if its word comes next. -/
def nextRescue (rules : Rules) (clauses : List (RescueClause Node)) :
    Parser (Option (List (RescueClause Node))) := do
  if ← eatKeyword .kRescue then
    let clause ← rescueClause rules
    pure (some (clauses ++ [clause]))
  else pure none

/-- Any number of rescue clauses. -/
def rescueClauses (rules : Rules) : Parser (List (RescueClause Node)) :=
  chain (nextRescue rules) []

/-- What is done when no error is raised; it can stand only after rescue clauses. -/
def otherwiseClause (rules : Rules) (rescued : Bool) : Parser (Option Node) := do
  if ← eatKeyword .kElse then
    if rescued then some <$> rules .stmts
    else failAt .elseWithoutRescue (← prevSpan)
  else pure none

/-- What is done in any case. -/
def ensureClause (rules : Rules) : Parser (Option Node) := do
  if ← eatKeyword .kEnsure then some <$> rules .stmts
  else pure none

/-- Statements with the clauses that guard them.  Without any clause they are just statements. -/
def guardedBody (rules : Rules) : Parser Node := do
  let body ← rules .stmts
  let rescues ← rescueClauses rules
  let otherwise ← otherwiseClause rules !rescues.isEmpty
  let cleanup ← ensureClause rules
  if rescues.isEmpty && cleanup.isNone then pure body
  else
    let place := body.span.merge (← prevSpan)
    pure (.guarded place body rescues (otherwise.getD (.nop place)) (cleanup.getD (.nop place)))

/-- A guarded body between its words. -/
def beginBlock (rules : Rules) (place : Span) : Parser Node := do
  let node ← guardedBody rules
  expectKeyword .kEnd
  match node with
  | .guarded .. => pure node
  | _ => pure (.ofStmts (place.merge (← prevSpan)) [node])

/-! ### Definitions -/

/-- The name of a method that is spelled `text`.  An equals sign that follows without a gap makes it
a setter. -/
def setterName (text : String) : Parser NameId := do
  let marked := text.endsWith "?" || text.endsWith "!"
  if !marked && (← Action.view fun c => c.current.kind.isPunct .assign && !c.hasGap) then
    let _ ← take
    intern (text ++ "=")
  else intern text

/-- The name of a method that is defined, given its first token. -/
def definedName (t : Token) : Parser NameId :=
  match t.kind with
  | .ident s => setterName s
  | .const s => setterName s
  | .keyword w => setterName w.text
  | .punct p => operatorName p
  | _ => failAt .invalidMethodName t.span

/-- A parameter, given those before it. -/
def param (rules : Rules) (params : List (Param Node)) : Parser (Param Node) := do
  let place := (← current).span
  let name ← expectIdent
  if params.any fun p => p.name = name then failAt .duplicateParameter place
  else
    declare name
    if ← eatPunctHere .assign then
      let value ← rules .arg
      pure ⟨name, some value⟩
    else if params.any fun p => p.default?.isSome then failAt .requiredAfterOptional place
    else pure ⟨name, none⟩

/-- One more parameter, if a comma stands before it. -/
def nextParam (rules : Rules) :
    List (Param Node) × Bool → Parser (Option (List (Param Node) × Bool)) :=
  fun (params, more) => do
    if !more then pure none
    else
      let p ← param rules params
      let comma ← eatPunct .comma
      pure (some (params ++ [p], comma))

/-- Parameters, one at least. -/
def someParams (rules : Rules) : Parser (List (Param Node)) := do
  let (params, _) ← chain (nextParam rules) ([], true)
  pure params

/-- Parameters with or without parentheses, if there are any. -/
def anyParams (rules : Rules) : Parser (List (Param Node)) := do
  if ← eatPunctHere .lparen then
    if ← eatPunct .rparen then pure []
    else
      let params ← someParams rules
      expectPunct .rparen
      pure params
  else
    match (← current).kind with
    | .ident _ => someParams rules
    | _ => pure []

/-- The parameters of a method, up to the statements of its body. -/
def paramList (rules : Rules) : Parser (List (Param Node)) := do
  if ← eatTerms then pure []
  else
    let params ← anyParams rules
    let _ ← eatTerms
    pure params

/-- The object that a method is defined on, if a dot stands after the first token `t`. -/
def definitionTarget (t : Token) : Parser (Option Node) := do
  let dotted := (← current).kind.isPunct .dot
  match t.kind with
  | .keyword .kSelf => pure (if dotted then some (.self t.span) else none)
  | .const s =>
    if dotted then
      let name ← intern s
      pure (some (.const t.span name))
    else pure none
  | _ => pure none

/-- The name of a method that is defined, given the first token `t`; after a target it follows the
dot. -/
def definitionName (t : Token) (target? : Option Node) : Parser NameId := do
  match target? with
  | some _ =>
    let _ ← take
    definedName (← take)
  | none => definedName t

/-- The parameters and the body of a method. -/
def methodParts (rules : Rules) : Parser (List (Param Node) × Node) := do
  let params ← paramList rules
  let body ← guardedBody rules
  pure (params, body)

/-- A method definition after its word. -/
def methodDefinition (rules : Rules) (place : Span) : Parser Node := do
  let t ← take
  let target? ← definitionTarget t
  let name ← definitionName t target?
  let (params, body) ← within .methodBody (methodParts rules)
  expectKeyword .kEnd
  let whole := place.merge (← prevSpan)
  match target? with
  | some target => pure (.singletonDef whole target name params body)
  | none => pure (.methodDef whole name params body)

/-- The name of a class that is defined. -/
def className (t : Token) : Parser NameId :=
  match t.kind with
  | .const s => intern s
  | _ => failAt .classNameNotConstant t.span

/-- The parent that a class definition names. -/
def classParent (rules : Rules) : Parser (Option Node) := do
  if ← eatPunctHere .less then some <$> rules .expr
  else pure none

/-- A class definition after its word. -/
def classDefinition (rules : Rules) (place : Span) : Parser Node := do
  let t ← take
  let name ← className t
  let parent? ← classParent rules
  let _ ← eatTerms
  let body ← within .classBody (guardedBody rules)
  expectKeyword .kEnd
  pure (.classDef (place.merge (← prevSpan)) name parent? body)

end MiniRuby.Parser
