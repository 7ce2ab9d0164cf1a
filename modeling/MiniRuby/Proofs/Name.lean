import MiniRuby.Name

/-!
# Tables of names that grow

A table changes only by names that are looked up in it.  So it keeps the names that it has, each at
its position (`NameTable.Grows.toExtends`), and if it holds every name once and the first names
where they belong, then it goes on doing so (`NameTable.Grows.sound`).
-/

namespace MiniRuby.NameTable

variable {t t₁ t₂ : NameTable}

/-- A table that has come from another one by looking names up in it. -/
inductive Grows (t : NameTable) : NameTable → Prop where
  | refl : Grows t t
  | intern {t' : NameTable} (h : Grows t t') (name : String) : Grows t (t'.intern name).2

/-- Whether a position is one of the table. -/
def Has (t : NameTable) (id : NameId) : Prop := id.index < t.entries.size

instance (t : NameTable) (id : NameId) : Decidable (t.Has id) :=
  inferInstanceAs (Decidable (_ < _))

theorem Extends.has {id : NameId} (h : t.Extends t₁) (hid : t.Has id) : t₁.Has id :=
  Nat.lt_of_lt_of_le hid h.size_le

/-- Whether a position has a name that is spelled in a certain way. -/
structure Spells (t : NameTable) (ok : String → Prop) (x : NameId) : Prop where
  has : t.Has x
  spelled : ok (t.text x)

theorem Spells.mono {ok ok' : String → Prop} {x : NameId} (h : t.Spells ok x)
    (imp : ∀ s, ok s → ok' s) : t.Spells ok' x :=
  ⟨h.has, imp _ h.spelled⟩

/-- A name that is looked up is spelled as it was then, however the table has grown. -/
theorem spells_intern {ok : String → Prop} {name : String} (h : ok name)
    (grown : (t.intern name).2.Extends t₁) : t₁.Spells ok (t.intern name).1 := by
  obtain ⟨has, named⟩ := t.text_intern name
  exact ⟨grown.has has, by rwa [grown.text_eq _ has, named]⟩

/-- Whether a table holds every name once, and the first names where they belong. -/
structure Sound (t : NameTable) : Prop where
  distinct : ∀ x y, t.Has x → t.Has y → t.text x = t.text y → x = y
  first : initial.Extends t

theorem Sound.text_inj (h : t.Sound) {x y : NameId} (hx : t.Has x) (hy : t.Has y) :
    t.text x = t.text y ↔ x = y :=
  ⟨h.distinct x y hx hy, congrArg _⟩

/-- A name that is not found stands nowhere in the table. -/
theorem text_ne_of_find?_eq_none {name : String} {id : NameId} (h : t.find? name = none)
    (hid : t.Has id) : t.text id ≠ name := by
  intro e
  have absent : name ∉ t.entries := by simpa [find?] using h
  refine absent (e ▸ ?_)
  rw [text, Array.getElem?_eq_getElem hid]
  exact Array.getElem_mem hid

/-- Where a text stands is where it is found. -/
theorem Sound.find?_of_text (h : t.Sound) {id : NameId} (hid : t.Has id) :
    t.find? (t.text id) = some id := by
  cases found : t.find? (t.text id) with
  | none => exact absurd rfl (text_ne_of_find?_eq_none found hid)
  | some other =>
      obtain ⟨there, same⟩ := text_of_find? found
      rw [h.distinct other id there hid same]

/-- A new name differs from those that are there. -/
theorem Sound.intern (h : t.Sound) (name : String) : (t.intern name).2.Sound := by
  cases hf : t.find? name with
  | some id => rwa [intern_of_find? hf]
  | none =>
      have grown := t.extends_intern name
      refine ⟨fun x y hx hy e => ?_, h.first.trans grown⟩
      obtain ⟨-, named⟩ := t.text_intern name
      rw [intern_of_find?_eq_none hf] at hx hy e grown named
      have either {z : NameId} (hz : Has ⟨t.entries.push name⟩ z) :
          t.Has z ∨ z = ⟨t.entries.size⟩ := by
        rcases Nat.lt_succ_iff_lt_or_eq.mp (by simpa [Has] using hz) with hz | hz
        · exact .inl hz
        · exact .inr (by rw [← hz])
      rcases either hx with hx | rfl
      · rcases either hy with hy | rfl
        · rw [grown.text_eq x hx, grown.text_eq y hy] at e
          exact h.distinct x y hx hy e
        · rw [grown.text_eq x hx, named] at e
          exact (text_ne_of_find?_eq_none hf hx e).elim
      · rcases either hy with hy | rfl
        · rw [grown.text_eq y hy, named] at e
          exact (text_ne_of_find?_eq_none hf hy e.symm).elim
        · rfl

theorem sound_initial : initial.Sound := by
  refine ⟨fun x y hx hy e => ?_, .refl _⟩
  obtain ⟨i⟩ := x
  obtain ⟨j⟩ := y
  have all : ∀ i j : Fin initial.entries.size, initial.text ⟨i⟩ = initial.text ⟨j⟩ → i = j := by
    decide
  exact congrArg (NameId.mk ·.1) (all ⟨i, hx⟩ ⟨j, hy⟩ e)

namespace Grows

theorem trans (h₁ : t.Grows t₁) (h₂ : t₁.Grows t₂) : t.Grows t₂ := by
  induction h₂ with
  | refl => exact h₁
  | intern _ name ih => exact ih.intern name

theorem toExtends (h : t.Grows t₁) : t.Extends t₁ := by
  induction h with
  | refl => exact .refl t
  | @intern t' _ name ih => exact ih.trans (t'.extends_intern name)

theorem sound (h : t.Grows t₁) (ht : t.Sound) : t₁.Sound := by
  induction h with
  | refl => exact ht
  | intern _ name ih => exact ih.intern name

end Grows

/-- Look some names up, one after the other. -/
def internAll (t : NameTable) (names : List String) : NameTable :=
  names.foldl (fun t name => (t.intern name).2) t

/-- The names of the first table stand in the order in which they are looked up, as they are
distinct. -/
theorem initial_eq : initial = internAll ⟨#[]⟩ predefined.toList := by
  decide +kernel

theorem grows_internAll (t : NameTable) (names : List String) : t.Grows (t.internAll names) := by
  induction names generalizing t with
  | nil => exact .refl
  | cons name names ih => exact (Grows.intern .refl name).trans (ih _)

end MiniRuby.NameTable
