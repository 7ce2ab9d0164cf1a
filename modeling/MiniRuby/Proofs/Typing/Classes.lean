import MiniRuby.Boot
import MiniRuby.Proofs.ClassTable
import MiniRuby.Proofs.Syntax.All

/-!
# Well-kept tables of classes

A native method of integers, texts or arrays is of no use to other values.  It is put into one of
the first classes, which is its home, and is found from there by the instances of the classes
below.  So that it never comes to a wrong receiver, the table of classes has to be well kept
(`ClassTable.Sound`): the first classes stay what they are, and a class that is added later leaves
it to the classes above what its instances carry.

* `ClassTable.Sound.payload_eq`: a class carries what any first class above it carries, the two
  topmost ones excepted.
* `ClassTable.Sound.register`, `ClassTable.Sound.modify`: adding classes and methods keeps the
  table well kept.
-/

namespace MiniRuby

/-! ### Methods and where they belong -/

/-- The classes for whose instances a native method is meant; none if it is for all values. -/
def Native.home : Native → List ClassId
  | cls _ => [.classes]
  | truth _ => [.nilClass, .trueClass, .falseClass]
  | order _ => [.integer, .float]
  | integer _ => [.integer]
  | float _ => [.float]
  | string _ => [.string]
  | symbol _ => [.symbol]
  | array _ => [.array]
  | bound _ => [.method]
  | exception _ => [.exception]
  | object _ | kernel _ | reader _ | writer _ | gather => []

/-- The class that native methods which are for such a value are found in.  Of the plain objects,
only exceptions have some. -/
def Value.sort : Value → ClassId
  | nil => .nilClass
  | bool true => .trueClass
  | bool false => .falseClass
  | int _ => .integer
  | float _ => .float
  | str _ => .string
  | sym _ => .symbol
  | arr _ => .array
  | cls _ => .classes
  | obj _ => .exception
  | bound _ => .method

/-- Whether a native method is meant for a value. -/
def Native.Suits (op : Native) (v : Value) : Prop := op.home = [] ∨ v.sort ∈ op.home

/-- The homes of native methods are among these classes. -/
theorem Native.home_index (op : Native) : ∀ c ∈ op.home, 2 ≤ c.index ∧ c.index ≤ 12 := by
  cases op <;> simp [home, ClassId.classes, ClassId.nilClass, ClassId.trueClass,
    ClassId.falseClass, ClassId.integer, ClassId.float, ClassId.string, ClassId.symbol,
    ClassId.array, ClassId.method, ClassId.exception]

/-- Whether the interpreter itself looks for methods of this name when it needs the text of a
value. -/
def NameId.IsTextual (name : NameId) : Prop := name = .toS ∨ name = .methodMissing

/-- The native methods that do no more than give a text, or read or set a variable. -/
def Native.Describes : Native → Bool
  | object .toS | cls .name | truth (.text _) | integer .toS | float .toS | string .toS
  | symbol .toS | array .inspect | exception .message | reader _ | writer _ => true
  | _ => false

namespace Method

/-- Whether a method may be put into a class: a native one if the class is its home and its name
suits what it does, and one that a program has defined if its definition is in order. -/
def BelongsIn (ok : Node → Prop) (c : ClassId) : Method → Prop
  | native name _ op => (op.home = [] ∨ c ∈ op.home) ∧ (name.IsTextual → op.Describes = true)
  | defined name params body _ => Node.AllDef ok name params body

/-- Whether a method may be put into any class. -/
def BelongsAnywhere (ok : Node → Prop) : Method → Prop
  | native name _ op => op.home = [] ∧ (name.IsTextual → op.Describes = true)
  | defined name params body _ => Node.AllDef ok name params body

/-- Whether a method may be called on a value. -/
def Fits (ok : Node → Prop) (v : Value) : Method → Prop
  | native _ _ op => op.Suits v
  | defined name params body _ => Node.AllDef ok name params body

variable {ok : Node → Prop} {method : Method} {v : Value}

/-- A method that belongs anywhere fits all values. -/
theorem BelongsAnywhere.fits (h : method.BelongsAnywhere ok) (v : Value) : method.Fits ok v := by
  cases method with
  | native name arity op => exact .inl h.1
  | defined name params body scope => exact h

theorem BelongsAnywhere.belongsIn (h : method.BelongsAnywhere ok) (c : ClassId) :
    method.BelongsIn ok c := by
  cases method with
  | native name arity op => exact ⟨.inl h.1, h.2⟩
  | defined name params body scope => exact h

/-- A method fits a value if the class that it is in is the one for such values. -/
theorem BelongsIn.fits {c : ClassId} (h : method.BelongsIn ok c)
    (hc : 2 ≤ c.index → c.index ≤ 12 → c = v.sort) : method.Fits ok v := by
  cases method with
  | native name arity op =>
      refine h.1.imp_right fun h => ?_
      obtain ⟨hl, hr⟩ := op.home_index c h
      exact hc hl hr ▸ h
  | defined name params body scope => exact h

end Method

/-! ### Bindings -/

namespace Bindings

variable {α : Type} {P : α → Prop}

/-- Whether something holds of all that is bound. -/
def Forall (P : α → Prop) (b : Bindings α) : Prop := ∀ e ∈ b.entries, P e.2

@[simp] theorem forall_empty : (empty : Bindings α).Forall P := nofun

/-- What follows from a property of all bound things holds of all of them. -/
theorem Forall.imp {Q : α → Prop} (h : ∀ a, P a → Q a) {b : Bindings α} (hb : b.Forall P) :
    b.Forall Q :=
  fun e he => h _ (hb e he)

/-- After an entry is put in, the entries are that one and some that were there. -/
theorem mem_insertEntry {name : NameId} {a : α} {es : List (NameId × α)} {e : NameId × α}
    (h : e ∈ insertEntry name a es) : e = (name, a) ∨ e ∈ es := by
  induction es with
  | nil => exact .inl (by simpa [insertEntry] using h)
  | cons e' es ih =>
      rw [insertEntry] at h
      split at h
      · rcases List.mem_cons.mp h with h | h
        · exact .inl h
        · exact .inr (.tail _ h)
      · rcases List.mem_cons.mp h with rfl | h
        · exact .inr (.head _)
        · exact (ih h).imp_right (.tail _)

/-- A property of all bound things is kept if a thing with the property is bound. -/
theorem Forall.insert {b : Bindings α} (hb : b.Forall P) (name : NameId) {a : α} (ha : P a) :
    (b.insert name a).Forall P := by
  intro e he
  rcases mem_insertEntry he with rfl | he
  · exact ha
  · exact hb e he

/-- It is kept if a name is no longer bound. -/
theorem Forall.erase {b : Bindings α} (hb : b.Forall P) (name : NameId) :
    (b.erase name).Forall P :=
  fun e he => hb e (List.mem_filter.mp he).1

/-- What is found under a name is an entry with the name. -/
theorem mem_of_find {name : NameId} {a : α} {es : List (NameId × α)}
    (h : find name es = some a) : (name, a) ∈ es := by
  induction es with
  | nil => cases h
  | cons e es ih =>
      rw [find] at h
      split at h
      · rename_i he
        cases h
        exact he ▸ .head _
      · exact .tail _ (ih h)

/-- What is looked up has the property. -/
theorem Forall.get? {b : Bindings α} (hb : b.Forall P) {name : NameId} {a : α}
    (h : b.get? name = some a) : P a :=
  hb (name, a) (mem_of_find h)

/-- Whether methods are bound to their own names. -/
def Keyed (b : Bindings Method) : Prop := ∀ e ∈ b.entries, e.2.name = e.1

/-- Methods that are kept under their names are so after one more. -/
theorem Keyed.insert {b : Bindings Method} (hb : b.Keyed) (method : Method) :
    (b.insert method.name method).Keyed := by
  intro e he
  rcases mem_insertEntry he with rfl | he
  · rfl
  · exact hb e he

/-- They are so after one less. -/
theorem Keyed.erase {b : Bindings Method} (hb : b.Keyed) (name : NameId) :
    (b.erase name).Keyed :=
  fun e he => hb e (List.mem_filter.mp he).1

/-- A method that is found under a name has the name. -/
theorem Keyed.name_eq {b : Bindings Method} (hb : b.Keyed) {name : NameId} {method : Method}
    (h : b.get? name = some method) : method.name = name :=
  hb (name, method) (mem_of_find h)

end Bindings

/-! ### Tables -/

/-- The table of the first classes, before any of them has a method. -/
def firstTable : ClassTable := (Machine.bare (.collecting "")).classes

namespace ClassTable

/-- The classes that were there are there, as they were but for their methods. -/
structure Extends (t t' : ClassTable) : Prop where
  size_le : t.classes.size ≤ t'.classes.size
  above_eq : ∀ c, c.index < t.classes.size → (t'.get c).above = (t.get c).above
  payload?_eq : ∀ c, c.index < t.classes.size → (t'.get c).payload? = (t.get c).payload?

namespace Extends

variable {t t₁ t₂ : ClassTable}

theorem refl (t : ClassTable) : t.Extends t := ⟨Nat.le_refl _, fun _ _ => rfl, fun _ _ => rfl⟩

theorem trans (h₁ : t.Extends t₁) (h₂ : t₁.Extends t₂) : t.Extends t₂ where
  size_le := Nat.le_trans h₁.size_le h₂.size_le
  above_eq c hc :=
    (h₂.above_eq c (Nat.lt_of_lt_of_le hc h₁.size_le)).trans (h₁.above_eq c hc)
  payload?_eq c hc :=
    (h₂.payload?_eq c (Nat.lt_of_lt_of_le hc h₁.size_le)).trans (h₁.payload?_eq c hc)

/-- The ancestors of a class stay the same while the table grows. -/
theorem ancestors_eq (h : t.Extends t₁) {c : ClassId} (hc : c.index < t.classes.size) :
    t₁.ancestors c = t.ancestors c := by
  rw [ancestors, ancestors, h.above_eq c hc]

end Extends

/-- A table is well kept. -/
structure Sound (ok : Node → Prop) (t : ClassTable) : Prop where
  extends_first : firstTable.Extends t
  /-- A class that is added later has an earlier class above it and says nothing about what its
  instances carry. -/
  later : ∀ c, firstTable.classes.size ≤ c.index → c.index < t.classes.size →
    (t.get c).payload? = none ∧ ∃ p : ClassId, p.index < c.index ∧ (t.get c).above = t.ancestors p
  /-- The names of the first classes stand for them. -/
  known : ∀ c, c.index < firstTable.classes.size → t.find? (firstTable.name c) = some c
  named : ∀ name c, t.find? name = some c → c.index < t.classes.size
  methods : ∀ c, (t.get c).methods.Forall (Method.BelongsIn ok c)
  classMethods : ∀ c, (t.get c).classMethods.Forall (Method.BelongsAnywhere ok)
  /-- Methods are found under their own names. -/
  keyed : ∀ c, (t.get c).methods.Keyed ∧ (t.get c).classMethods.Keyed

/-- A class of the table carries what any first class above it carries, except for the two topmost
classes. -/
theorem first_payload_eq : ∀ i < firstTable.classes.size, ∀ a ∈ firstTable.ancestors ⟨i⟩,
    2 ≤ a.index → firstTable.payload ⟨i⟩ = firstTable.payload a := by
  decide +kernel

/-- The ancestors of the first classes are among them. -/
theorem first_ancestors_lt : ∀ i < firstTable.classes.size, ∀ a ∈ firstTable.ancestors ⟨i⟩,
    a.index < firstTable.classes.size := by
  decide +kernel

/-- The kind of values of a class is told by its ancestors. -/
theorem findSome?_payload?_congr {t t' : ClassTable} {cs : List ClassId}
    (h : ∀ a ∈ cs, (t'.get a).payload? = (t.get a).payload?) :
    (cs.findSome? fun a => (t'.get a).payload?) = cs.findSome? fun a => (t.get a).payload? := by
  induction cs with
  | nil => rfl
  | cons c cs ih =>
      rw [List.findSome?_cons, List.findSome?_cons, h c (.head _),
        ih fun a ha => h a (.tail _ ha)]

namespace Sound

variable {ok : Node → Prop} {t t' : ClassTable} {c a p : ClassId}

/-- What holds of the first classes, and of a class because it holds of one above it, holds of all
classes. -/
theorem induction (h : t.Sound ok) {motive : ClassId → Prop}
    (first : ∀ c, c.index < firstTable.classes.size → motive c)
    (later : ∀ c p, firstTable.classes.size ≤ c.index → c.index < t.classes.size →
      (t.get c).payload? = none → (t.get c).above = t.ancestors p → p.index < t.classes.size →
      motive p → motive c)
    (c : ClassId) (hc : c.index < t.classes.size) : motive c := by
  obtain ⟨i⟩ := c
  -- A class that is added later comes after the one above it.
  induction i using Nat.strongRecOn with
  | ind i ih =>
      by_cases hi : i < firstTable.classes.size
      · exact first ⟨i⟩ hi
      · obtain ⟨hp, p, hlt, ha⟩ := h.later ⟨i⟩ (Nat.le_of_not_lt hi) hc
        have hps : p.index < t.classes.size := Nat.lt_trans hlt hc
        exact later ⟨i⟩ p (Nat.le_of_not_lt hi) hc hp ha hps (ih p.index hlt hps)

/-- The classes above a class are in the table. -/
theorem ancestors_lt (h : t.Sound ok) (hc : c.index < t.classes.size) :
    ∀ a ∈ t.ancestors c, a.index < t.classes.size := by
  refine h.induction (motive := fun c => ∀ a ∈ t.ancestors c, a.index < t.classes.size) ?_ ?_ c hc
  · intro c hc a ha
    rw [h.extends_first.ancestors_eq hc] at ha
    exact Nat.lt_of_lt_of_le (first_ancestors_lt c.index hc a ha) h.extends_first.size_le
  · intro c p _ hc _ habove _ ih a ha
    rw [ancestors, habove] at ha
    rcases List.mem_cons.mp ha with rfl | ha
    · exact hc
    · exact ih a ha

/-- In a larger table a class carries the same. -/
theorem payload_extends (h : t.Sound ok) (he : t.Extends t') (hc : c.index < t.classes.size) :
    t'.payload c = t.payload c := by
  rw [payload, payload, he.ancestors_eq hc,
    findSome?_payload?_congr fun a ha => he.payload?_eq a (h.ancestors_lt hc a ha)]

/-- The first classes make the values that they do on a new machine. -/
theorem payload_first (h : t.Sound ok) (hc : c.index < firstTable.classes.size) :
    t.payload c = firstTable.payload c := by
  rw [payload, payload, h.extends_first.ancestors_eq hc,
    findSome?_payload?_congr fun a ha =>
      h.extends_first.payload?_eq a (first_ancestors_lt c.index hc a ha)]

/-- **What instances carry.**  A class carries what any first class above it carries, except for
the two topmost classes. -/
theorem payload_eq (h : t.Sound ok) (hc : c.index < t.classes.size) :
    ∀ a ∈ t.ancestors c, 2 ≤ a.index → a.index < firstTable.classes.size →
      t.payload c = firstTable.payload a := by
  refine h.induction (motive := fun c => ∀ a ∈ t.ancestors c, 2 ≤ a.index →
    a.index < firstTable.classes.size → t.payload c = firstTable.payload a) ?_ ?_ c hc
  · intro c hc a ha hl _
    rw [h.extends_first.ancestors_eq hc] at ha
    rw [h.payload_first hc]
    exact first_payload_eq c.index hc a ha hl
  · intro c p hge _ hpay habove _ ih a ha hl hr
    have same : t.payload c = t.payload p := by
      rw [payload, payload, ancestors, habove, List.findSome?_cons, hpay]
    rw [ancestors, habove] at ha
    rcases List.mem_cons.mp ha with rfl | ha
    -- The class itself is not one of the first.
    · exact absurd hr (Nat.not_lt.mpr hge)
    · exact same.trans (ih a ha hl hr)

/-- The methods that are found among some classes belong in one of them. -/
theorem exists_of_findIn {methods : ClassInfo → Bindings Method} {name : NameId}
    {cs : List ClassId} {found : Method × ClassId} (h : t.findIn methods name cs = some found) :
    found.2 ∈ cs ∧ (methods (t.get found.2)).get? name = some found.1 := by
  induction cs with
  | nil => cases h
  | cons c cs ih =>
      rw [findIn] at h
      split at h
      · rename_i method hm
        cases h
        exact ⟨.head _, hm⟩
      · obtain ⟨hmem, hget⟩ := ih h
        exact ⟨.tail _ hmem, hget⟩

/-- **A method that is found** belongs in the class that it is found in. -/
theorem belongsIn_of_findMethod? (h : t.Sound ok) {name : NameId} {method : Method}
    {owner : ClassId} (hf : t.findMethod? c name = some (method, owner)) :
    owner ∈ t.ancestors c ∧ method.BelongsIn ok owner := by
  obtain ⟨hmem, hget⟩ := exists_of_findIn hf
  exact ⟨hmem, (h.methods owner).get? hget⟩

/-- A method of a class itself belongs anywhere. -/
theorem belongsAnywhere_of_findClassMethod? (h : t.Sound ok) {name : NameId} {method : Method}
    {owner : ClassId} (hf : t.findClassMethod? c name = some (method, owner)) :
    owner ∈ t.ancestors c ∧ method.BelongsAnywhere ok := by
  obtain ⟨hmem, hget⟩ := exists_of_findIn hf
  exact ⟨hmem, (h.classMethods owner).get? hget⟩

end Sound

/-! ### Changes to a table -/

/-- A table with one more class extends the table. -/
theorem extends_register (t : ClassTable) (known name : String) (parent? : Option ClassId)
    (payload? : Option Payload) : t.Extends (t.register known name parent? payload?).2 where
  size_le := by simp
  above_eq c hc := by rw [get_register t known name parent? payload? (ne_new hc)]
  payload?_eq c hc := by rw [get_register t known name parent? payload? (ne_new hc)]

/-- A change that concerns the methods of a class only. -/
theorem extends_modify (t : ClassTable) (c : ClassId) {f : ClassInfo → ClassInfo}
    (above : ∀ i, (f i).above = i.above) (payload : ∀ i, (f i).payload? = i.payload?) :
    t.Extends (t.modify c f) where
  size_le := by simp
  above_eq a _ := by
    rw [get_modify]
    split
    · exact above _
    · rfl
  payload?_eq a _ := by
    rw [get_modify]
    split
    · exact payload _
    · rfl

/-- Methods are no part of what a table extends. -/
theorem extends_addMethod (t : ClassTable) (c : ClassId) (method : Method) :
    t.Extends (t.addMethod c method) :=
  t.extends_modify c (fun _ => rfl) fun _ => rfl

theorem extends_addClassMethod (t : ClassTable) (c : ClassId) (method : Method) :
    t.Extends (t.addClassMethod c method) :=
  t.extends_modify c (fun _ => rfl) fun _ => rfl

theorem extends_removeMethod (t : ClassTable) (c : ClassId) (name : NameId) :
    t.Extends (t.removeMethod c name) :=
  t.extends_modify c (fun _ => rfl) fun _ => rfl

namespace Sound

variable {ok : Node → Prop} {t : ClassTable} {c p : ClassId}

/-- A new class below one of the table, under a new name, keeps the table well kept. -/
theorem register (h : t.Sound ok) (known name : String) (hp : p.index < t.classes.size)
    (fresh : t.find? known = none) : (t.register known name (some p) none).2.Sound ok where
  extends_first := h.extends_first.trans (extends_register t known name (some p) none)
  later c hge hlt := by
    rw [size_register] at hlt
    have old := extends_register t known name (some p) none
    by_cases hc : c.index < t.classes.size
    · obtain ⟨hpay, q, hq, habove⟩ := h.later c hge hc
      refine ⟨(old.payload?_eq c hc).trans hpay, q, hq, ?_⟩
      rw [old.above_eq c hc, old.ancestors_eq (Nat.lt_trans hq hc), habove]
    · obtain rfl : c = ⟨t.classes.size⟩ := congrArg ClassId.mk (by omega : c.index = _)
      rw [get_register_new]
      exact ⟨rfl, p, hp, (old.ancestors_eq hp).symm⟩
  known c hc := by
    rw [find?_register, if_neg]
    · exact h.known c hc
    -- The name of a first class is taken, so it is not the new one.
    · intro e
      rw [← e, h.known c hc] at fresh
      cases fresh
  named x c hx := by
    rw [find?_register] at hx
    rw [size_register]
    split at hx
    · cases hx
      exact Nat.lt_succ_self _
    · exact Nat.lt_succ_of_lt (h.named x c hx)
  methods c := by
    by_cases hc : c = ⟨t.classes.size⟩
    · rw [hc, get_register_new]
      exact Bindings.forall_empty
    · rw [get_register t known name _ _ hc]
      exact h.methods c
  classMethods c := by
    by_cases hc : c = ⟨t.classes.size⟩
    · rw [hc, get_register_new]
      exact Bindings.forall_empty
    · rw [get_register t known name _ _ hc]
      exact h.classMethods c
  keyed c := by
    by_cases hc : c = ⟨t.classes.size⟩
    · rw [hc, get_register_new]
      exact ⟨nofun, nofun⟩
    · rw [get_register t known name _ _ hc]
      exact h.keyed c

/-- A change to the methods of a class keeps the table well kept if these belong there. -/
theorem modify (h : t.Sound ok) (c : ClassId) {f : ClassInfo → ClassInfo}
    (above : ∀ i, (f i).above = i.above) (payload : ∀ i, (f i).payload? = i.payload?)
    (methods : ∀ i, i.methods.Forall (Method.BelongsIn ok c) →
      (f i).methods.Forall (Method.BelongsIn ok c))
    (classMethods : ∀ i, i.classMethods.Forall (Method.BelongsAnywhere ok) →
      (f i).classMethods.Forall (Method.BelongsAnywhere ok))
    (keyed : ∀ i, i.methods.Keyed ∧ i.classMethods.Keyed →
      (f i).methods.Keyed ∧ (f i).classMethods.Keyed) : (t.modify c f).Sound ok where
  extends_first := h.extends_first.trans (extends_modify t c above payload)
  later a hge hlt := by
    rw [size_modify] at hlt
    have same := extends_modify t c above payload
    obtain ⟨hpay, q, hq, habove⟩ := h.later a hge hlt
    refine ⟨(same.payload?_eq a hlt).trans hpay, q, hq, ?_⟩
    rw [same.above_eq a hlt, same.ancestors_eq (Nat.lt_trans hq hlt), habove]
  known a ha := h.known a ha
  named x a hx := by
    rw [size_modify]
    exact h.named x a hx
  methods a := by
    rw [get_modify]
    split
    · rename_i he
      obtain ⟨rfl, -⟩ := he
      exact methods _ (h.methods c)
    · exact h.methods a
  classMethods a := by
    rw [get_modify]
    split
    · exact classMethods _ (h.classMethods a)
    · exact h.classMethods a
  keyed a := by
    rw [get_modify]
    split
    · exact keyed _ (h.keyed a)
    · exact h.keyed a

/-- A sound table may have one more method where the method belongs. -/
theorem addMethod (h : t.Sound ok) {method : Method} (hm : method.BelongsIn ok c) :
    (t.addMethod c method).Sound ok :=
  h.modify c (fun _ => rfl) (fun _ => rfl) (fun _ hi => hi.insert _ hm) (fun _ hi => hi)
    fun _ hi => ⟨hi.1.insert method, hi.2⟩

/-- It may have one more method of a class itself. -/
theorem addClassMethod (h : t.Sound ok) {method : Method} (hm : method.BelongsAnywhere ok) :
    (t.addClassMethod c method).Sound ok :=
  h.modify c (fun _ => rfl) (fun _ => rfl) (fun _ hi => hi) (fun _ hi => hi.insert _ hm)
    fun _ hi => ⟨hi.1, hi.2.insert method⟩

/-- Removing a method keeps a table sound. -/
theorem removeMethod (h : t.Sound ok) (name : NameId) : (t.removeMethod c name).Sound ok :=
  h.modify c (fun _ => rfl) (fun _ => rfl) (fun _ hi => hi.erase name) (fun _ hi => hi)
    fun _ hi => ⟨hi.1.erase name, hi.2⟩

end Sound

end ClassTable

end MiniRuby
