/-!
# Arities

How many arguments a method takes: at least so many, and at most so many or without a limit.
-/

namespace MiniRuby

/-- The numbers of arguments that a method takes; without a greatest one there is no limit. -/
structure Arity where
  least : Nat
  most? : Option Nat
deriving DecidableEq

namespace Arity

/-- Exactly `n` arguments. -/
def exact (n : Nat) : Arity := ⟨n, some n⟩

/-- From `m` to `n` arguments. -/
def between (m n : Nat) : Arity := ⟨m, some n⟩

/-- `n` arguments or more. -/
def atLeast (n : Nat) : Arity := ⟨n, none⟩

/-- Whether so many arguments are taken. -/
def accepts (a : Arity) (given : Nat) : Bool :=
  a.least ≤ given && match a.most? with
    | some most => given ≤ most
    | none => true

/-- The arity as it is told to programs: the number of arguments when there is only one, and
otherwise the least number, negated and less one. -/
def number (a : Arity) : Int64 :=
  if a.most? = some a.least then Int64.ofNat a.least else -Int64.ofNat a.least - 1

/-- The arity as it is written in messages. -/
def text (a : Arity) : String :=
  match a.most? with
  | some most => if most = a.least then toString most else s!"{a.least}..{most}"
  | none => s!"{a.least}+"

theorem accepts_iff (a : Arity) (given : Nat) :
    a.accepts given = true ↔ a.least ≤ given ∧ ∀ most, a.most? = some most → given ≤ most := by
  unfold accepts
  cases a.most? <;> simp

theorem accepts_exact (n given : Nat) : (exact n).accepts given = true ↔ given = n := by
  rw [accepts_iff]
  simp [exact]
  omega

end Arity

end MiniRuby
