/-!
# Spans

A span names a stretch of characters of a source text by the positions of its first and its last
character.  Both ends belong to the span, and positions count characters from zero.
-/

namespace MiniRuby

/-- The characters from position `first` up to and including position `last`. -/
structure Span where
  first : Nat
  last : Nat
deriving DecidableEq, Inhabited

namespace Span

/-- The span of the single position `pos`. -/
def point (pos : Nat) : Span := ⟨pos, pos⟩

/-- The least span that covers both: the smaller start and the larger end. -/
def merge (a b : Span) : Span := ⟨min a.first b.first, max a.last b.last⟩

@[simp] theorem merge_first (a b : Span) : (a.merge b).first = min a.first b.first := rfl

@[simp] theorem merge_last (a b : Span) : (a.merge b).last = max a.last b.last := rfl

/-- Merging a span with itself changes nothing. -/
@[simp] theorem merge_self (a : Span) : a.merge a = a := by
  cases a; simp [merge]

end Span

end MiniRuby
