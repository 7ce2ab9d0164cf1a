import MiniRuby.ClassTable

/-!
# Tables of classes that change

A table changes by edits: a class is added, under a name that stands for it from then on, or a
method is added to a class or taken from it.  No edit changes the name of a class that is there,
the classes above it, or what its instances carry (`ClassTable.get_apply`).

A program adds a class only under a name that stands for nothing yet, which is also its own, and
below another class (`Edit.Fresh`).  So a table that has grown in this way keeps all that its names
stand for.

* `ClassTable.Grows.kept`: the classes of a table stay as they are, but for their methods.
* `ClassTable.Grows.find?_eq`: a name that stands for a class goes on standing for it.
* `ClassTable.Grows.payload_eq`: a class goes on carrying what it carries.
-/

namespace MiniRuby.ClassTable

variable {t t₁ t₂ : ClassTable}

/-! ### One class among the others -/

/-- A class that is changed is the only one. -/
theorem get_modify (t : ClassTable) (c a : ClassId) (f : ClassInfo → ClassInfo) :
    (t.modify c f).get a =
      if c = a ∧ a.index < t.classes.size then f (t.get a) else t.get a := by
  obtain ⟨i⟩ := c
  obtain ⟨j⟩ := a
  simp only [modify, get, Array.getElem?_modify, ClassId.mk.injEq]
  by_cases hi : i = j
  · subst hi
    by_cases hs : i < t.classes.size <;> simp [hs]
  · simp [hi]

@[simp] theorem size_modify (t : ClassTable) (c : ClassId) (f : ClassInfo → ClassInfo) :
    (t.modify c f).classes.size = t.classes.size := by
  simp [modify]

/-- A new class leaves the others alone. -/
theorem get_register (t : ClassTable) (known name : String) (parent? : Option ClassId)
    (payload? : Option Payload) {a : ClassId} (ha : a ≠ ⟨t.classes.size⟩) :
    (t.register known name parent? payload?).2.get a = t.get a := by
  have hi : a.index ≠ t.classes.size := fun e => ha (congrArg ClassId.mk e)
  simp [register, get, Array.getElem?_push, hi]

/-- A new class has its parent and the ancestors of its parent above it, and no methods. -/
theorem get_register_new (t : ClassTable) (known name : String) (parent? : Option ClassId)
    (payload? : Option Payload) :
    (t.register known name parent? payload?).2.get ⟨t.classes.size⟩ =
      ⟨name, (parent?.map t.ancestors).getD [], payload?, .empty, .empty⟩ := by
  cases parent? <;> simp [register, get]

@[simp] theorem size_register (t : ClassTable) (known name : String) (parent? : Option ClassId)
    (payload? : Option Payload) :
    (t.register known name parent? payload?).2.classes.size = t.classes.size + 1 := by
  simp [register]

/-- A class that is there is not the new one. -/
theorem ne_new {c : ClassId} (hc : c.index < t.classes.size) : c ≠ ⟨t.classes.size⟩ := by
  rintro rfl
  exact Nat.lt_irrefl _ hc

/-- A new class is found under its name, and the others as before. -/
theorem find?_register (t : ClassTable) (known name : String) (parent? : Option ClassId)
    (payload? : Option Payload) (x : String) :
    (t.register known name parent? payload?).2.find? x =
      if x = known then some ⟨t.classes.size⟩ else t.find? x := by
  simp only [register, find?, List.lookup_cons]
  by_cases hx : x = known
  · simp [hx]
  · have hb : (x == known) = false := by simp [hx]
    simp [hx, hb]

/-- Nothing is known of a class that is not in the table. -/
theorem get_of_le {c : ClassId} (hc : t.classes.size ≤ c.index) : t.get c = default := by
  rw [get, Array.getElem?_eq_none hc, Option.getD_none]

/-! ### Edits -/

/-- A change to a table of classes. -/
inductive Edit where
  /-- A new class, and a name that stands for it from then on. -/
  | register (known name : String) (parent? : Option ClassId) (payload? : Option Payload)
  | addMethod (c : ClassId) (method : Method)
  | addClassMethod (c : ClassId) (method : Method)
  | removeMethod (c : ClassId) (name : NameId)

/-- The table after an edit. -/
def apply (t : ClassTable) : Edit → ClassTable
  | .register known name parent? payload? => (t.register known name parent? payload?).2
  | .addMethod c method => t.addMethod c method
  | .addClassMethod c method => t.addClassMethod c method
  | .removeMethod c name => t.removeMethod c name

/-- No edit takes a class away. -/
theorem size_le_apply (t : ClassTable) (e : Edit) :
    t.classes.size ≤ (t.apply e).classes.size := by
  cases e with
  | register known name parent? payload? => simp [apply]
  | addMethod | addClassMethod | removeMethod => exact Nat.le_of_eq (size_modify ..).symm

/-- What a class is, but for its methods. -/
structure SameButMethods (i i' : ClassInfo) : Prop where
  name : i'.name = i.name
  above : i'.above = i.above
  payload? : i'.payload? = i.payload?

theorem SameButMethods.refl (i : ClassInfo) : SameButMethods i i := ⟨rfl, rfl, rfl⟩

theorem SameButMethods.trans {i i₁ i₂ : ClassInfo} (h₁ : SameButMethods i i₁)
    (h₂ : SameButMethods i₁ i₂) : SameButMethods i i₂ :=
  ⟨h₂.name.trans h₁.name, h₂.above.trans h₁.above, h₂.payload?.trans h₁.payload?⟩

/-- Only the methods of a class are changed if each change is of its methods. -/
theorem sameButMethods_modify (t : ClassTable) (c a : ClassId) {f : ClassInfo → ClassInfo}
    (hf : ∀ i, SameButMethods i (f i)) : SameButMethods (t.get a) ((t.modify c f).get a) := by
  rw [get_modify]
  split
  · exact hf _
  · exact .refl _

/-- **An edit changes no more than the methods of a class that is there.** -/
theorem get_apply (t : ClassTable) (e : Edit) {c : ClassId} (hc : c.index < t.classes.size) :
    SameButMethods (t.get c) ((t.apply e).get c) := by
  cases e with
  | register known name parent? payload? =>
      rw [apply, get_register t known name parent? payload? (ne_new hc)]
      exact .refl _
  | addMethod k method | addClassMethod k method | removeMethod k name =>
      exact t.sameButMethods_modify k c fun _ => ⟨rfl, rfl, rfl⟩

/-- Whether an edit is one that programs make: a new class gets a name of its own, which stands for
nothing so far, and is below another class, to which it leaves what its instances carry. -/
def Edit.Fresh (t : ClassTable) : Edit → Prop
  | .register known name parent? payload? =>
    t.find? known = none ∧ name = known ∧ parent?.isSome = true ∧ payload? = none
  | .addMethod _ _ | .addClassMethod _ _ | .removeMethod _ _ => True

/-- A table that has come from another one by edits that programs make. -/
inductive Grows (t : ClassTable) : ClassTable → Prop where
  | refl : Grows t t
  | edit {t' : ClassTable} (h : Grows t t') (e : Edit) (he : e.Fresh t') : Grows t (t'.apply e)

namespace Grows

theorem trans (h₁ : t.Grows t₁) (h₂ : t₁.Grows t₂) : t.Grows t₂ := by
  induction h₂ with
  | refl => exact h₁
  | edit _ e he ih => exact ih.edit e he

theorem addMethod (t : ClassTable) (c : ClassId) (method : Method) :
    t.Grows (t.addMethod c method) :=
  .edit .refl (.addMethod c method) trivial

theorem addClassMethod (t : ClassTable) (c : ClassId) (method : Method) :
    t.Grows (t.addClassMethod c method) :=
  .edit .refl (.addClassMethod c method) trivial

theorem removeMethod (t : ClassTable) (c : ClassId) (name : NameId) :
    t.Grows (t.removeMethod c name) :=
  .edit .refl (.removeMethod c name) trivial

/-- A table grows by a class with a new name. -/
theorem register {name : String} (fresh : t.find? name = none) (parent : ClassId) :
    t.Grows (t.register name name (some parent) none).2 :=
  .edit .refl (.register name name (some parent) none) ⟨fresh, rfl, rfl, rfl⟩

/-- A table that grows has no fewer classes. -/
theorem size_le (h : t.Grows t₁) : t.classes.size ≤ t₁.classes.size := by
  induction h with
  | refl => exact Nat.le_refl _
  | @edit t' _ e _ ih => exact Nat.le_trans ih (t'.size_le_apply e)

/-- **The classes of a table stay as they are**, but for their methods. -/
theorem kept (h : t.Grows t₁) {c : ClassId} (hc : c.index < t.classes.size) :
    SameButMethods (t.get c) (t₁.get c) := by
  induction h with
  | refl => exact .refl _
  | @edit t' h e _ ih => exact ih.trans (t'.get_apply e (Nat.lt_of_lt_of_le hc h.size_le))

/-- Its classes keep their ancestors. -/
theorem ancestors_eq (h : t.Grows t₁) {c : ClassId} (hc : c.index < t.classes.size) :
    t₁.ancestors c = t.ancestors c := by
  rw [ancestors, ancestors, (h.kept hc).above]

/-- **A name that stands for a class goes on standing for it.** -/
theorem find?_eq (h : t.Grows t₁) {name : String} {c : ClassId} (hc : t.find? name = some c) :
    t₁.find? name = some c := by
  induction h with
  | refl => exact hc
  | @edit t' _ e he ih =>
      cases e with
      | register known own parent? payload? =>
          rw [apply, find?_register, if_neg, ih]
          -- The name of a new class stands for nothing before.
          rintro rfl
          rw [he.1] at ih
          cases ih
      | addMethod | addClassMethod | removeMethod => exact ih

/-- A class says about the payload of its instances what it said, and a new one says nothing. -/
theorem payload?_eq (h : t.Grows t₁) (c : ClassId) : (t₁.get c).payload? = (t.get c).payload? := by
  induction h with
  | refl => rfl
  | @edit t' _ e he ih =>
      rw [← ih]
      cases e with
      | register known own parent? payload? =>
          by_cases hc : c = ⟨t'.classes.size⟩
          · have absent : t'.get ⟨t'.classes.size⟩ = default := get_of_le (Nat.le_refl _)
            rw [apply, hc, get_register_new, absent, he.2.2.2]
            rfl
          · rw [apply, get_register t' known own parent? payload? hc]
      | addMethod k method | addClassMethod k method | removeMethod k name =>
          exact SameButMethods.payload? (t'.sameButMethods_modify k c fun _ => ⟨rfl, rfl, rfl⟩)

/-- **A class goes on carrying what it carries.** -/
theorem payload_eq (h : t.Grows t₁) {c : ClassId} (hc : c.index < t.classes.size) :
    t₁.payload c = t.payload c := by
  rw [payload, payload, h.ancestors_eq hc]
  simp only [h.payload?_eq]

end Grows

end MiniRuby.ClassTable
