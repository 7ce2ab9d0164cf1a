import MiniRuby.Library.Class
import MiniRuby.Library.Kernel
import MiniRuby.Library.Number
import MiniRuby.Library.Object
import MiniRuby.Library.Sequence
import MiniRuby.Library.Text
import MiniRuby.Library.Truth

/-!
# The library

What each native method does.
-/

namespace MiniRuby

/-- Run a native method on a receiver. -/
def Native.run (fuel : Nat) (invoke : Invoke) (native : Native) (self : Value)
    (args : List Value) : Run Value :=
  match native with
  | .object op => op.run invoke self args
  | .kernel op => op.run fuel invoke args
  | .cls op => op.run invoke self args
  | .truth op => op.run args
  | .order op => op.run invoke self args
  | .integer op => op.run self args
  | .float op => op.run self args
  | .string op => op.run self args
  | .symbol op => op.run self
  | .array op => op.run invoke self args
  | .bound op => op.run invoke self args
  | .exception op => op.run self args
  | .reader name => Run.getVariable self name
  | .writer name => Run.setVariable self name (Run.arg args 0)
  | .gather => Run.newArray (self :: args).toArray

end MiniRuby
