import MiniRuby.Integer
import MiniRuby.Text.Columns

/-!
# Hosts

What the interpreter is lent from outside and does not decide itself: how words are divided, which
sizes memory can be reserved for, and how many columns a text takes up on the terminal.  A machine
has a host, and every statement about machines holds whatever the host is.  Where something is
relied on, it is a hypothesis with a name: `Integer.Division.Floors` for the division,
`Memory.RefusesOnly` for the memory.
-/

namespace MiniRuby

/-- The sizes that memory can be reserved for: those of arrays, in elements, and those of texts, in
bytes. -/
structure Memory where
  elements : Nat → Bool
  bytes : Nat → Bool

namespace Memory

/-- What memory is refused for only: arrays of sizes that are impossible. -/
def RefusesOnly (memory : Memory) (impossible : Nat → Prop) : Prop :=
  ∀ size, memory.elements size = false → impossible size

/-- Whether an array that has room for some elements can have it for as many as are wanted.  Memory
is reserved only if they are more. -/
def holdsElements (memory : Memory) (held wanted : Nat) : Bool :=
  wanted ≤ held || memory.elements wanted

/-- Whether a new text can have so many bytes, the number of which has to be a word. -/
def holdsBytes (memory : Memory) (wanted : Nat) : Bool :=
  wanted = 0 || wanted < 18446744073709551616 && memory.bytes wanted

/-- A memory that has room for so many elements or bytes at most. -/
def bounded (limit : Nat) : Memory where
  elements size := size ≤ limit
  bytes size := size ≤ limit

end Memory

/-- What the interpreter is lent from outside. -/
structure Host where
  division : Integer.Division
  memory : Memory
  /-- The number of columns that a text takes up. -/
  columns : List Char → Nat

/-- A host that programs run on. -/
def Host.standard : Host where
  division := .floored
  memory := .bounded 4294967296
  columns := Text.columns

end MiniRuby
