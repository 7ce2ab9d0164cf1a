import MiniRuby.Grammar.Cursor

/-!
# Calls

Arguments, method names, and the calls and index operations that are chained onto an expression.
A name followed by its first argument without a parenthesis is a command call; whether a name
starts one is decided by the next token and the gaps around it.
-/

namespace MiniRuby.Parser

/-- One more argument, or the closing mark.  `more` tells whether the list goes on. -/
def argOrClose (rules : Rules) (close : Punct) :
    List Node × Bool → Parser (Option (List Node × Bool)) := fun (args, more) => do
  if !more then pure none
  else if ← eatPunct close then pure (some (args, false))
  else
    let arg ← rules .arg
    if ← eatPunct .comma then pure (some (arg :: args, true))
    else
      expectPunct close
      pure (some (arg :: args, false))

/-- Arguments up to the closing mark, which is taken too.  A comma may stand before it. -/
def argsUntil (rules : Rules) (close : Punct) : Parser (List Node) := do
  let (args, _) ← chain (argOrClose rules close) ([], true)
  pure args.reverse

/-- One more argument of a command call, if a comma stands before it. -/
def commandArg (rules : Rules) : List Node × Bool → Parser (Option (List Node × Bool)) :=
  fun (args, more) => do
    if !more then pure none
    else
      let arg ← rules .arg
      let comma ← eatPunctHere .comma
      pure (some (arg :: args, comma))

/-- The arguments of a command call: one at least, and more after commas. -/
def commandArgs (rules : Rules) : Parser (List Node) := do
  let (args, _) ← chain (commandArg rules) ([], true)
  pure args.reverse

/-- The reserved words that do not start an argument. -/
def endsCommand : Keyword → Bool
  | .kDo | .kIf | .kUnless | .kWhile | .kThen | .kEnd | .kElse | .kElsif | .kRescue
  | .kEnsure => true
  | _ => false

/-- Whether the name taken last starts a command call.  After a gap, a minus sign or a star starts
an argument only if none follows it; without a gap only a few literals do. -/
def startsCommand (c : Cursor) : Bool :=
  if c.hasGap then
    match c.current.kind with
    | .lineTerm | .eof => false
    | .punct .lparen | .punct .lbracket | .punct .bang => true
    | .punct .minus | .punct .star => !c.hasGapAfter
    | .punct _ => false
    | .keyword w => !endsCommand w
    | _ => true
  else
    match c.current.kind with
    | .instanceVar _ | .str _ | .num _ => true
    | _ => false

/-- The name of an operator method whose first mark `p` was taken last. -/
def operatorName (p : Punct) : Parser NameId := do
  if p = .lbracket then
    if ← eatPunctHere .rbracket then
      if !(← Action.view Cursor.hasGap) then
        if ← eatPunctHere .assign then pure NameId.subscriptAssign else pure NameId.subscript
      else pure NameId.subscript
    else failAt .invalidOperator (← current).span
  else
    match p.method? with
    | some name => intern name
    | none => failAt .invalidOperator (← prevSpan)

/-- The name that a token after a dot is: that of a name, a reserved word, or an operator. -/
def calledName (t : Token) : Parser NameId :=
  match t.kind with
  | .ident s => intern s
  | .const s => intern s
  | .keyword w => intern w.text
  | .punct p => operatorName p
  | _ => failAt .methodNameNotIdentifier t.span

/-- A method name after a dot. -/
def methodName : Parser (NameId × Span) := do
  let t ← take
  let name ← calledName t
  pure (name, t.span.merge (← prevSpan))

/-- The arguments of a call on a receiver: in parentheses, those of a command, or none. -/
def callArgs (rules : Rules) : Parser (List Node) := do
  if ← Action.view Cursor.opensCall then
    let _ ← take
    argsUntil rules .rparen
  else if ← Action.view startsCommand then commandArgs rules
  else pure []

/-- A call on `receiver`, after the dot. -/
def methodCall (rules : Rules) (receiver : Node) : Parser Node := do
  let (name, place) ← methodName
  let args ← callArgs rules
  pure (.ofSend (place.merge (← prevSpan)) (some receiver) name args)

/-- An index operation on `receiver`, from its opening bracket on. -/
def indexing (rules : Rules) (receiver : Node) : Parser Node := do
  let t ← take
  let args ← argsUntil rules .rbracket
  pure (.ofSend (t.span.merge (← prevSpan)) (some receiver) NameId.subscript args)

/-- A call or an index operation on `node`.  A dot may stand on a later line, a bracket has to
follow without a gap. -/
def link (rules : Rules) (node : Node) : Parser (Option Node) := do
  if ← eatPunct .dot then some <$> methodCall rules node
  else if (← Action.view fun c => c.current.kind.isPunct .lbracket && !c.hasGap) then
    some <$> indexing rules node
  else pure none

/-- The calls and index operations chained onto `node`. -/
def chained (rules : Rules) (node : Node) : Parser Node := chain (link rules) node

/-- A call without receiver, with its arguments in parentheses. -/
def functionCall (rules : Rules) (name : NameId) (place : Span) : Parser Node := do
  let _ ← take
  let args ← argsUntil rules .rparen
  pure (.ofSend (place.merge (← prevSpan)) none name args)

/-- An identifier: a call, a local variable, a command call, or a bare name. -/
def identifier (rules : Rules) (text : String) (place : Span) : Parser Node := do
  let name ← intern text
  if ← Action.view Cursor.opensCall then functionCall rules name place
  else if ← Action.view (·.isLocal name) then pure (.ident place name)
  else if ← Action.view startsCommand then
    let args ← commandArgs rules
    pure (.ofSend place none name args)
  else pure (.ident place name)

/-- A constant, or a call of the method of that name. -/
def constant (rules : Rules) (text : String) (place : Span) : Parser Node := do
  let name ← intern text
  if ← Action.view Cursor.opensCall then functionCall rules name place
  else pure (.const place name)

end MiniRuby.Parser
