/-!
# Names

Names of variables, methods and constants are kept in a table and are known by their position in
it.  The table only grows: a name keeps its position for good, and a new name takes the next one.
The first twelve positions belong to names that the interpreter itself refers to.
-/

namespace MiniRuby

/-- A position in the table of names. -/
structure NameId where
  index : Nat
deriving DecidableEq, Inhabited

namespace NameId

/-- The method that sets a new object up. -/
def setup : NameId := ⟨0⟩
def new : NameId := ⟨1⟩
def toS : NameId := ⟨2⟩
def inspect : NameId := ⟨3⟩
def equals : NameId := ⟨4⟩
def differs : NameId := ⟨5⟩
def negate : NameId := ⟨6⟩
def methodMissing : NameId := ⟨7⟩
/-- The instance variable that holds an exception's message. -/
def message : NameId := ⟨8⟩
def subscript : NameId := ⟨9⟩
def subscriptAssign : NameId := ⟨10⟩
def minus : NameId := ⟨11⟩

end NameId

/-- The names known so far, each at its position. -/
structure NameTable where
  entries : Array String
deriving DecidableEq

namespace NameTable

/-- The names that are known from the start, in the order of their positions. -/
def predefined : Array String :=
  #["initialize", "new", "to_s", "inspect", "==", "!=", "!", "method_missing", "@message",
    "[]", "[]=", "-@"]

/-- The table that a machine starts from. -/
def initial : NameTable := ⟨predefined⟩

/-- The position of a name, if it is in the table. -/
def find? (t : NameTable) (name : String) : Option NameId :=
  (t.entries.idxOf? name).map NameId.mk

/-- The position of a name, which is added at the end if it is new. -/
def intern (t : NameTable) (name : String) : NameId × NameTable :=
  match t.find? name with
  | some id => (id, t)
  | none => (⟨t.entries.size⟩, ⟨t.entries.push name⟩)

/-- The name at a position. -/
def text (t : NameTable) (id : NameId) : String := (t.entries[id.index]?).getD "<unknown>"

/-- A name that is known already is not added again. -/
theorem intern_of_find? {t : NameTable} {name : String} {id : NameId}
    (h : t.find? name = some id) : t.intern name = (id, t) := by
  simp [intern, h]

/-- A new name takes the next position. -/
theorem intern_of_find?_eq_none {t : NameTable} {name : String} (h : t.find? name = none) :
    t.intern name = (⟨t.entries.size⟩, ⟨t.entries.push name⟩) := by
  simp [intern, h]

/-- A name is found where it stands. -/
theorem text_of_find? {t : NameTable} {name : String} {id : NameId}
    (h : t.find? name = some id) : id.index < t.entries.size ∧ t.text id = name := by
  obtain ⟨n, hn, rfl⟩ := Option.map_eq_some_iff.mp h
  obtain ⟨i, hi, rfl⟩ := Option.map_eq_some_iff.mp hn
  have he := (Array.finIdxOf?_eq_some_iff.mp hi).1
  exact ⟨i.isLt, by simpa [text] using he⟩

/-- A name that is added at the end is found there, unless it is found before. -/
theorem find?_push (entries : Array String) (name other : String) :
    find? ⟨entries.push name⟩ other =
      (find? ⟨entries⟩ other).or (if name = other then some ⟨entries.size⟩ else none) := by
  obtain ⟨l⟩ := entries
  rw [find?, find?, List.push_toArray, List.idxOf?_toArray, List.idxOf?_toArray, List.idxOf?,
    List.findIdx?_append]
  by_cases h : name = other <;> cases l.findIdx? (· == other) <;> simp [h]

/-- What is found after a name was interned: that name, and what was found before. -/
theorem find?_intern (t : NameTable) (name other : String) :
    (t.intern name).2.find? other =
      if name = other then some (t.intern name).1 else t.find? other := by
  cases h : t.find? name with
  | some id =>
    rw [intern_of_find? h]
    split
    · rename_i same
      rw [← same, h]
    · rfl
  | none =>
    rw [intern_of_find?_eq_none h, find?_push]
    split
    · rename_i same
      rw [← same, h]
      rfl
    · exact Option.or_none

@[simp] theorem find?_intern_self (t : NameTable) (name : String) :
    (t.intern name).2.find? name = some (t.intern name).1 := by
  simp [find?_intern]

/-- The names that are in a table keep their positions in a later one. -/
structure Extends (t t' : NameTable) : Prop where
  size_le : t.entries.size ≤ t'.entries.size
  text_eq : ∀ id : NameId, id.index < t.entries.size → t'.text id = t.text id

namespace Extends

variable {t t₁ t₂ : NameTable}

theorem refl (t : NameTable) : t.Extends t := ⟨Nat.le_refl _, fun _ _ => rfl⟩

theorem trans (h₁ : t.Extends t₁) (h₂ : t₁.Extends t₂) : t.Extends t₂ :=
  ⟨Nat.le_trans h₁.size_le h₂.size_le, fun id hid =>
    (h₂.text_eq id (Nat.lt_of_lt_of_le hid h₁.size_le)).trans (h₁.text_eq id hid)⟩

end Extends

theorem extends_intern (t : NameTable) (name : String) : t.Extends (t.intern name).2 := by
  cases h : t.find? name with
  | some id => simpa [intern, h] using Extends.refl t
  | none =>
    refine ⟨by simp [intern, h], fun id hid => ?_⟩
    simp [intern, h, text, Array.getElem?_push, Nat.ne_of_lt hid]

/-- Interning a name answers a position of the table at which the name stands. -/
theorem text_intern (t : NameTable) (name : String) :
    (t.intern name).1.index < (t.intern name).2.entries.size ∧
      (t.intern name).2.text (t.intern name).1 = name := by
  cases h : t.find? name with
  | some id => simpa [intern, h] using text_of_find? h
  | none => simp [intern, h, text]

end NameTable

end MiniRuby
