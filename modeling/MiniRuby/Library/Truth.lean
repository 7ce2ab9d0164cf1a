import MiniRuby.Library.Argument

/-!
# Constants

The native methods of `nil`, `true` and `false`.
-/

namespace MiniRuby

def TruthOp.run (op : TruthOp) (args : List Value) : Run Value :=
  match op with
  | .always b => Run.answer b
  | .argument => Run.answer (Run.arg args 0).truthy
  | .noElements => Run.newArray #[]
  | .text s => Run.newString s

end MiniRuby
