import MiniRuby.Integer
import MiniRuby.Library.Argument
import MiniRuby.Text.Case
import MiniRuby.Text.Quoted

/-!
# Texts

The native methods of strings and symbols.  All but one of them leave their operands alone and
answer with a new string; `<<` adds to the receiver in place.
-/

namespace MiniRuby

/-- Whether one list of characters stands somewhere in another. -/
def occursIn (pattern : List Char) : List Char → Bool
  | [] => pattern.isEmpty
  | c :: cs => pattern.isPrefixOf (c :: cs) || occursIn pattern cs

/-- A text, written so many times in a row, if memory has room for it. -/
def repeatText (memory : Memory) (s : String) (n : Nat) : Except Fault String :=
  if s.isEmpty then .ok ""
  else if memory.holdsBytes (s.utf8ByteSize * n) then .ok (n.repeat (· ++ s) "")
  else .error .tooBig

namespace StringOp

def receiver (self : Value) : Run StringId :=
  match self with
  | .str id => pure id
  | _ => Run.fault (.wrongReceiver "a String")

/-- The text of the receiver. -/
def selfText (self : Value) : Run String := do
  let id ← receiver self
  Action.view fun m => m.heap.text id

/-- A new string, worked out from the text of the receiver. -/
def mapped (f : String → String) (self : Value) : Run Value := do
  Run.newString (f (← selfText self))

/-- Whether the text of the receiver and a text that is given are in some relation. -/
def tested (test : List Char → List Char → Bool) (self other : Value) : Run Value := do
  let pattern ← Run.expectText other
  let text ← selfText self
  Run.answer (test pattern.toList text.toList)

def repeated (self other : Value) : Run Value := do
  let count ← Run.expectInteger other
  if count < 0 then Run.fault .negativeCount
  else
    let text ← selfText self
    let memory ← Action.view fun m => m.host.memory
    let text ← Run.ofExcept (repeatText memory text count.toInt.toNat)
    Run.newString text

def run (op : StringOp) (self : Value) (args : List Value) : Run Value := do
  let other := Run.arg args 0
  match op with
  | .concat =>
    let right ← Run.expectText other
    let left ← selfText self
    Run.newString (left ++ right)
  | .append =>
    let right ← Run.expectText other
    let id ← receiver self
    Run.updateHeap fun h => h.append id right
    pure self
  | .times => repeated self other
  | .equals =>
    let left ← selfText self
    let right ← Action.view fun m => m.heap.text? other
    Run.answer (right == some left)
  | .size => pure (.int (Int64.ofNat (← selfText self).length))
  | .isEmpty => Run.answer (← selfText self).isEmpty
  | .includes => tested occursIn self other
  | .startsWith => tested List.isPrefixOf self other
  | .upcase => mapped (fun s => String.ofList (Text.upcase s.toList)) self
  | .downcase => mapped (fun s => String.ofList (Text.downcase s.toList)) self
  | .reverse => mapped (fun s => String.ofList s.toList.reverse) self
  | .toS => pure self
  | .toSym => .sym <$> Run.intern (← selfText self)
  | .toI => .int <$> Run.ofExcept (Integer.read (← selfText self).toList)
  | .inspect => mapped (fun s => Text.inspect s) self

end StringOp

namespace SymbolOp

/-- The name that a symbol stands for. -/
def selfName (self : Value) : Run String := do
  match self with
  | .sym name => Action.view fun m => m.names.text name
  | _ => Run.fault (.wrongReceiver "a Symbol")

def run (op : SymbolOp) (self : Value) : Run Value := do
  match op with
  | .toS => Run.newString (← selfName self)
  | .toSym => pure self
  | .inspect => Run.newString (":" ++ (← selfName self))

end SymbolOp

end MiniRuby
