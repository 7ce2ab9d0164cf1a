/-!
# Sets of characters

A property of characters, such as being written with no width, is given by the ranges of code
points that have it.
-/

namespace MiniRuby.Text

/-- A set of characters: the code points that lie in one of the ranges, ends included. -/
structure CharSet where
  ranges : List (Nat × Nat)

namespace CharSet

/-- Whether `c` lies in one of the ranges. -/
def contains (set : CharSet) (c : Char) : Bool :=
  set.ranges.any fun r => r.1 ≤ c.toNat && c.toNat ≤ r.2

theorem contains_iff {set : CharSet} {c : Char} :
    set.contains c = true ↔ ∃ r ∈ set.ranges, r.1 ≤ c.toNat ∧ c.toNat ≤ r.2 := by
  simp [contains]

end CharSet

end MiniRuby.Text
