import MiniRuby.Fault
import MiniRuby.Span
import MiniRuby.Value

/-!
# Failures

Why an evaluation ends without a value: a fault, a raised exception, or a jump out of a method or
a loop.  A failure remembers where it happened, and the first place that is noted stays.
-/

namespace MiniRuby

/-- What ends an evaluation early. -/
inductive Signal where
  | fault (cause : Fault)
  /-- An exception object that the program raised. -/
  | raised (exception : Value)
  | returned (value : Value)
  | broke (value : Value)
  | skipped (value : Value)

/-- A signal and the text that it came from. -/
structure Failure where
  signal : Signal
  span? : Option Span

namespace Failure

/-- A fault at a place that is not known yet. -/
def ofFault (cause : Fault) : Failure := ⟨.fault cause, none⟩

/-- Note the place of a failure, unless one was noted before. -/
def locate (place : Span) (f : Failure) : Failure :=
  match f.span? with
  | some _ => f
  | none => { f with span? := some place }

/-- A jump that nothing has caught is a fault at the place of the jump. -/
def settle (f : Failure) : Failure :=
  match f.signal with
  | .broke _ => { f with signal := .fault .strayBreak }
  | .skipped _ => { f with signal := .fault .strayNext }
  | .returned _ => { f with signal := .fault .strayReturn }
  | .fault _ | .raised _ => f

@[simp] theorem signal_locate (place : Span) (f : Failure) :
    (f.locate place).signal = f.signal := by
  unfold locate
  split <;> rfl

@[simp] theorem span?_settle (f : Failure) : f.settle.span? = f.span? := by
  unfold settle
  split <;> rfl

theorem isSome_span?_locate (place : Span) (f : Failure) :
    (f.locate place).span?.isSome = true := by
  unfold locate
  split <;> simp_all

end Failure

end MiniRuby
