import MiniRuby.Proofs.Typing.Classes

/-!
# Well-kept machines

A machine is well kept (`Machine.Sound`) when its classes are, when every cell of the heap has a
class whose instances carry what the cell holds, and when all that is stored anywhere lives, that
is, refers to cells and classes that are there.  A machine grows (`Machine.Grows`) as a program
runs: cells and classes stay where they are and keep their class and the classes above them, so
what lives goes on living.

* `Machine.Sound.sort_eq`: a value is of the sort that the first classes above its class say.
* `Machine.Sound.fits_of_findMethod?`: so the methods that are found for a value fit it.
* `Machine.Sound.of_grows`: a machine that has grown is well kept if what is new in it is in order.
  All changes that steps make to a machine follow from this.
-/

namespace MiniRuby

/-- Whether output is refused. -/
def Sink.Refuses : Sink → Prop
  | collecting _ => False
  | refusing _ => True

/-- Whether a value refers to something that is there. -/
def Value.Lives (m : Machine) : Value → Prop
  | .str id => id.index < m.heap.strings.size
  | .arr id => id.index < m.heap.arrays.size
  | .obj id => id.index < m.heap.objects.size
  | .bound id => id.index < m.heap.bounds.size
  | .cls c => c.index < m.classes.classes.size
  | .nil | .bool _ | .int _ | .float _ | .sym _ => True

/-- Whether a class is there and its instances carry the given payload. -/
def ClassId.Carries (m : Machine) (p : Payload) (c : ClassId) : Prop :=
  c.index < m.classes.classes.size ∧ m.classes.payload c = p

/-- Whether a value is an exception: a plain object whose class is below that of exceptions. -/
def Value.IsException (m : Machine) (v : Value) : Prop :=
  ∃ id, v = .obj id ∧ id.index < m.heap.objects.size ∧
    (m.heap.object id).cls.index < m.classes.classes.size ∧
    ClassId.exception ∈ m.classes.ancestors (m.heap.object id).cls

/-- Whether a bound method may be called. -/
structure BoundCell.Sound (ok : Node → Prop) (m : Machine) (cell : BoundCell) : Prop where
  cls : cell.cls = .method
  receiver : cell.receiver.Lives m
  method : cell.method.Fits ok cell.receiver
  owner : cell.owner.index < m.classes.classes.size

namespace Machine

/-- What is there stays there, with its class and the classes above. -/
structure Grows (m m' : Machine) : Prop where
  classes : m.classes.Extends m'.classes
  strings : m.heap.strings.size ≤ m'.heap.strings.size
  arrays : m.heap.arrays.size ≤ m'.heap.arrays.size
  objects : m.heap.objects.size ≤ m'.heap.objects.size
  bounds : m.heap.bounds.size ≤ m'.heap.bounds.size
  object_cls : ∀ id : ObjectId, id.index < m.heap.objects.size →
    (m'.heap.object id).cls = (m.heap.object id).cls
  refuses : m'.sink.Refuses ↔ m.sink.Refuses

/-- A machine is well kept. -/
structure Sound (ok : Node → Prop) (m : Machine) : Prop where
  classes : m.classes.Sound ok
  strings : ∀ cell ∈ m.heap.strings, cell.cls.Carries m .text
  arrays : ∀ cell ∈ m.heap.arrays,
    cell.cls.Carries m .elements ∧ ∀ v ∈ cell.elements, v.Lives m
  objects : ∀ cell ∈ m.heap.objects, cell.cls.Carries m .ivars ∧ cell.ivars.Forall (·.Lives m)
  bounds : ∀ cell ∈ m.heap.bounds, cell.Sound ok m
  /-- The object that is self at the top is there. -/
  main : 0 < m.heap.objects.size
  frames : ∀ b ∈ m.frames.frames, b.Forall (·.Lives m)
  constants : m.constants.Forall (·.Lives m)

namespace Grows

variable {m m₁ m₂ : Machine}

theorem refl (m : Machine) : m.Grows m :=
  ⟨.refl _, Nat.le_refl _, Nat.le_refl _, Nat.le_refl _, Nat.le_refl _, fun _ _ => rfl, .rfl⟩

theorem trans (h₁ : m.Grows m₁) (h₂ : m₁.Grows m₂) : m.Grows m₂ where
  classes := h₁.classes.trans h₂.classes
  strings := Nat.le_trans h₁.strings h₂.strings
  arrays := Nat.le_trans h₁.arrays h₂.arrays
  objects := Nat.le_trans h₁.objects h₂.objects
  bounds := Nat.le_trans h₁.bounds h₂.bounds
  object_cls id hid :=
    (h₂.object_cls id (Nat.lt_of_lt_of_le hid h₁.objects)).trans (h₁.object_cls id hid)
  refuses := h₂.refuses.trans h₁.refuses

/-- A machine grows by no more than a change of what is neither its heap nor its classes. -/
theorem of_eq (classes : m₁.classes = m.classes) (heap : m₁.heap = m.heap)
    (refuses : m₁.sink.Refuses ↔ m.sink.Refuses) : m.Grows m₁ := by
  refine ⟨?_, ?_, ?_, ?_, ?_, ?_, refuses⟩
  · rw [classes]
    exact .refl _
  all_goals simp [heap]

end Grows

end Machine

open Machine (Grows)

variable {ok : Node → Prop} {m m' : Machine}

/-- **What lives** goes on living on a machine that has grown. -/
theorem Value.Lives.grow {v : Value} (h : v.Lives m) (hg : m.Grows m') : v.Lives m' := by
  cases v with
  | str id => exact Nat.lt_of_lt_of_le h hg.strings
  | arr id => exact Nat.lt_of_lt_of_le h hg.arrays
  | obj id => exact Nat.lt_of_lt_of_le h hg.objects
  | bound id => exact Nat.lt_of_lt_of_le h hg.bounds
  | cls c => exact Nat.lt_of_lt_of_le h hg.classes.size_le
  | _ => trivial

/-- No value is of one of the first two classes and of nothing below them. -/
theorem Value.two_le_sort (v : Value) : 2 ≤ v.sort.index := by
  cases v with
  | bool b => cases b <;> decide
  | _ => exact Nat.le_of_ble_eq_true rfl

/-- A class goes on making values of the same kind. -/
theorem ClassId.Carries.grow {p : Payload} {c : ClassId} (h : c.Carries m p)
    (hm : m.classes.Sound ok) (hg : m.Grows m') : c.Carries m' p :=
  ⟨Nat.lt_of_lt_of_le h.1 hg.classes.size_le, (hm.payload_extends hg.classes h.1).trans h.2⟩

/-- An exception is one on machines that have grown. -/
theorem Value.IsException.grow {v : Value} (h : v.IsException m) (hg : m.Grows m') :
    v.IsException m' := by
  obtain ⟨id, rfl, hid, hc, ha⟩ := h
  refine ⟨id, rfl, Nat.lt_of_lt_of_le hid hg.objects, ?_, ?_⟩
  · rw [hg.object_cls id hid]
    exact Nat.lt_of_lt_of_le hc hg.classes.size_le
  · rw [hg.object_cls id hid, hg.classes.ancestors_eq hc]
    exact ha

/-- An exception lives. -/
theorem Value.IsException.lives {v : Value} (h : v.IsException m) : v.Lives m := by
  obtain ⟨id, rfl, hid, -⟩ := h
  exact hid

/-- A bound method goes on fitting its receiver. -/
theorem BoundCell.Sound.grow {cell : BoundCell} (h : cell.Sound ok m) (hg : m.Grows m') :
    cell.Sound ok m' :=
  ⟨h.cls, h.receiver.grow hg, h.method, Nat.lt_of_lt_of_le h.owner hg.classes.size_le⟩

namespace Machine.Sound

/-- **A machine that has grown is well kept**, if its classes are and if every cell, frame and
constant in it was there before or is in order. -/
theorem of_grows (hm : m.Sound ok) (hg : m.Grows m') (classes : m'.classes.Sound ok)
    (strings : ∀ cell ∈ m'.heap.strings, cell ∈ m.heap.strings ∨ cell.cls.Carries m' .text)
    (arrays : ∀ cell ∈ m'.heap.arrays, cell ∈ m.heap.arrays ∨
      cell.cls.Carries m' .elements ∧ ∀ v ∈ cell.elements, v.Lives m')
    (objects : ∀ cell ∈ m'.heap.objects, cell ∈ m.heap.objects ∨
      cell.cls.Carries m' .ivars ∧ cell.ivars.Forall (·.Lives m'))
    (bounds : ∀ cell ∈ m'.heap.bounds, cell ∈ m.heap.bounds ∨ cell.Sound ok m')
    (frames : ∀ b ∈ m'.frames.frames, b ∈ m.frames.frames ∨ b.Forall (·.Lives m'))
    (constants : m'.constants = m.constants ∨ m'.constants.Forall (·.Lives m')) :
    m'.Sound ok where
  classes := classes
  strings cell hc := by
    rcases strings cell hc with h | h
    · exact (hm.strings cell h).grow hm.classes hg
    · exact h
  arrays cell hc := by
    rcases arrays cell hc with h | h
    · obtain ⟨hcls, hv⟩ := hm.arrays cell h
      exact ⟨hcls.grow hm.classes hg, fun v hmem => (hv v hmem).grow hg⟩
    · exact h
  objects cell hc := by
    rcases objects cell hc with h | h
    · obtain ⟨hcls, hv⟩ := hm.objects cell h
      exact ⟨hcls.grow hm.classes hg, hv.imp fun v hl => hl.grow hg⟩
    · exact h
  bounds cell hc := by
    rcases bounds cell hc with h | h
    · exact (hm.bounds cell h).grow hg
    · exact h
  main := Nat.lt_of_lt_of_le hm.main hg.objects
  frames b hb := by
    rcases frames b hb with h | h
    · exact (hm.frames b h).imp fun v hl => hl.grow hg
    · exact h
  constants := by
    rcases constants with h | h
    · rw [h]
      exact hm.constants.imp fun v hl => hl.grow hg
    · exact h

end Machine.Sound

/-! ### Looking up -/

namespace Heap

variable {h : Heap}

/-- A cell at an id that is in use is one of the heap. -/
theorem string_mem {id : StringId} (hid : id.index < h.strings.size) :
    h.string id ∈ h.strings := by
  rw [string, Array.getElem?_eq_getElem hid]
  exact Array.getElem_mem hid

theorem array_mem {id : ArrayId} (hid : id.index < h.arrays.size) : h.array id ∈ h.arrays := by
  rw [array, Array.getElem?_eq_getElem hid]
  exact Array.getElem_mem hid

theorem object_mem {id : ObjectId} (hid : id.index < h.objects.size) :
    h.object id ∈ h.objects := by
  rw [object, Array.getElem?_eq_getElem hid]
  exact Array.getElem_mem hid

theorem bound_mem {id : BoundId} (hid : id.index < h.bounds.size) : h.bound id ∈ h.bounds := by
  rw [bound, Array.getElem?_eq_getElem hid]
  exact Array.getElem_mem hid

end Heap

namespace Machine.Sound

/-- The elements of an array live. -/
theorem elements (hm : m.Sound ok) (id : ArrayId) : ∀ v ∈ m.heap.elements id, v.Lives m := by
  intro v hv
  by_cases hid : id.index < m.heap.arrays.size
  · exact (hm.arrays _ (Heap.array_mem hid)).2 v hv
  · rw [Heap.elements, Heap.array, Array.getElem?_eq_none (Nat.le_of_not_lt hid)] at hv
    exact absurd hv (Array.not_mem_empty v)

/-- What instance variables hold lives. -/
theorem ivars (hm : m.Sound ok) (id : ObjectId) : (m.heap.object id).ivars.Forall (·.Lives m) := by
  by_cases hid : id.index < m.heap.objects.size
  · exact (hm.objects _ (Heap.object_mem hid)).2
  · rw [Heap.object, Array.getElem?_eq_none (Nat.le_of_not_lt hid)]
    exact Bindings.forall_empty

/-- What variables hold lives. -/
theorem localVar (hm : m.Sound ok) {name : NameId} {v : Value} {ids : List FrameId}
    (h : m.frames.find name ids = some v) : v.Lives m := by
  induction ids with
  | nil => cases h
  | cons id ids ih =>
      rw [FrameStore.find] at h
      split at h
      · rename_i w hw
        cases h
        by_cases hid : id.index < m.frames.frames.size
        · rw [FrameStore.frame, Array.getElem?_eq_getElem hid] at hw
          exact (hm.frames _ (Array.getElem_mem hid)).get? hw
        · rw [FrameStore.frame, Array.getElem?_eq_none (Nat.le_of_not_lt hid)] at hw
          cases hw
      · exact ih h

/-- What constants stand for lives. -/
theorem constant (hm : m.Sound ok) {name : NameId} {v : Value} (h : m.constant name = .ok v) :
    v.Lives m := by
  rw [Machine.constant] at h
  split at h
  · rename_i w hw
    cases h
    exact hm.constants.get? hw
  · cases hc : m.classes.find? (m.names.text name) with
    | some c =>
        simp only [hc] at h
        cases h
        exact hm.classes.named _ c hc
    | none =>
        simp only [hc] at h
        cases h

/-! ### The class of a value -/

/-- A value that does not live in the heap has the class of its sort. -/
theorem classOf_known (hm : m.Sound ok) {v : Value} {name : String}
    (h : m.heap.home v = .known name) : m.classOf v = .ok v.sort ∧ v.sort.index ≤ 11 := by
  have known : ∀ k : ClassId, v.sort = k → firstTable.name k = name →
      k.index < firstTable.classes.size ∧ k.index ≤ 11 →
      m.classOf v = .ok v.sort ∧ v.sort.index ≤ 11 := by
    rintro k rfl rfl ⟨hk, hl⟩
    refine ⟨?_, hl⟩
    simp only [classOf, ClassTable.classOf, h, hm.classes.known v.sort hk]
  cases v with
  | str | arr | obj | bound => cases h
  | nil => cases h; exact known .nilClass rfl (by decide +kernel) (by decide)
  | bool b =>
      cases b <;> cases h
      · exact known .falseClass rfl (by decide +kernel) (by decide)
      · exact known .trueClass rfl (by decide +kernel) (by decide)
  | int i => cases h; exact known .integer rfl (by decide +kernel) (by decide)
  | float x => cases h; exact known .float rfl (by decide +kernel) (by decide)
  | sym n => cases h; exact known .symbol rfl (by decide +kernel) (by decide)
  | cls c => cases h; exact known .classes rfl (by decide +kernel) (by decide)

/-- A value with a cell of its own has the class that the cell says. -/
theorem classOf_cell {v : Value} {c : ClassId} (h : m.heap.home v = .cell c) :
    m.classOf v = .ok c := by
  simp only [classOf, ClassTable.classOf, h]

/-- The first classes carry what they carry from the start. -/
theorem carries_first (hm : m.Sound ok) {c : ClassId} {p : Payload}
    (hc : c.index < firstTable.classes.size) (hp : firstTable.payload c = p) : c.Carries m p :=
  ⟨Nat.lt_of_lt_of_le hc hm.classes.extends_first.size_le, (hm.classes.payload_first hc).trans hp⟩

/-- The class of a value is in the table. -/
theorem classOf_lt (hm : m.Sound ok) {v : Value} (hv : v.Lives m) {c : ClassId}
    (h : m.classOf v = .ok c) : c.index < m.classes.classes.size := by
  cases hh : m.heap.home v with
  | known name =>
      obtain ⟨e, hl⟩ := hm.classOf_known hh
      cases e.symm.trans h
      exact Nat.lt_of_lt_of_le (Nat.lt_of_le_of_lt hl (by decide)) hm.classes.extends_first.size_le
  | cell c' =>
      cases (classOf_cell hh).symm.trans h
      cases v with
      | str id => cases hh; exact (hm.strings _ (Heap.string_mem hv)).1
      | arr id => cases hh; exact (hm.arrays _ (Heap.array_mem hv)).1.1
      | obj id => cases hh; exact (hm.objects _ (Heap.object_mem hv)).1.1
      | bound id =>
          cases hh
          rw [(hm.bounds _ (Heap.bound_mem hv)).cls]
          exact Nat.lt_of_lt_of_le (by decide) hm.classes.extends_first.size_le
      | bool b => cases b <;> cases hh
      | _ => cases hh

/-- What tells the first classes apart: the payloads that they have, and that the classes of
values outside the heap are below no other one. -/
theorem first_classes :
    (∀ i ≤ 12, 2 ≤ i → firstTable.payload ⟨i⟩ = .text → i = ClassId.string.index) ∧
    (∀ i ≤ 12, 2 ≤ i → firstTable.payload ⟨i⟩ = .elements → i = ClassId.array.index) ∧
    (∀ i ≤ 12, 2 ≤ i → firstTable.payload ⟨i⟩ = .ivars → i = ClassId.exception.index) ∧
    ∀ i ≤ 11, 2 ≤ i → ∀ a ∈ firstTable.ancestors ⟨i⟩, 2 ≤ a.index → a.index = i := by
  decide +kernel

/-- **The sort of a value.**  Of the classes that native methods are at home in, at most the one
for values of its sort is above the class of a value. -/
theorem sort_eq (hm : m.Sound ok) {v : Value} (hv : v.Lives m) {c a : ClassId}
    (h : m.classOf v = .ok c) (ha : a ∈ m.classes.ancestors c) (hl : 2 ≤ a.index)
    (hr : a.index ≤ 12) : a = v.sort := by
  obtain ⟨text, elements, ivars, primitive⟩ := first_classes
  have first : ∀ {k : ClassId}, k.index ≤ 11 → 2 ≤ k.index → a ∈ m.classes.ancestors k →
      a = k := by
    intro k hk hk' ha
    have hk'' : k.index < firstTable.classes.size := Nat.lt_of_le_of_lt hk (by decide)
    rw [hm.classes.extends_first.ancestors_eq hk''] at ha
    exact congrArg ClassId.mk (primitive k.index hk hk' a ha hl)
  have carried : ∀ {p : Payload}, c.Carries m p → firstTable.payload a = p := by
    intro p hp
    have hr' : a.index < firstTable.classes.size := Nat.lt_of_le_of_lt hr (by decide)
    exact (hm.classes.payload_eq hp.1 a ha hl hr').symm.trans hp.2
  cases hh : m.heap.home v with
  | known name =>
      obtain ⟨e, hk⟩ := hm.classOf_known hh
      cases e.symm.trans h
      exact first hk v.two_le_sort ha
  | cell c' =>
      -- The class may be one of the program; what it carries tells which home is above it.
      cases (classOf_cell hh).symm.trans h
      cases v with
      | str id =>
          cases hh
          have hp := carried (hm.strings _ (Heap.string_mem hv))
          exact congrArg ClassId.mk (text a.index hr hl hp)
      | arr id =>
          cases hh
          have hp := carried (hm.arrays _ (Heap.array_mem hv)).1
          exact congrArg ClassId.mk (elements a.index hr hl hp)
      | obj id =>
          cases hh
          have hp := carried (hm.objects _ (Heap.object_mem hv)).1
          exact congrArg ClassId.mk (ivars a.index hr hl hp)
      | bound id =>
          cases hh
          rw [(hm.bounds _ (Heap.bound_mem hv)).cls] at ha
          exact first (k := .method) (by decide) (by decide) ha
      | bool b => cases b <;> cases hh
      | _ => cases hh

/-- A method is found by the class of the receiver, or the receiver is a class and has it. -/
theorem of_findMethod? {v : Value} {name : NameId} {found : Method × ClassId}
    (h : m.findMethod? v name = .ok (some found)) :
    (∃ c, m.classOf v = .ok c ∧ m.classes.findMethod? c name = some found) ∨
      ∃ c, v = .cls c ∧ m.classes.findClassMethod? c name = some found := by
  have byClass : (do .ok (m.classes.findMethod? (← m.classOf v) name)) =
      (.ok (some found) : Except Fault _) →
      ∃ c, m.classOf v = .ok c ∧ m.classes.findMethod? c name = some found := by
    intro h
    cases hc : m.classOf v with
    | error cause =>
        rw [hc] at h
        cases h
    | ok c =>
        rw [hc] at h
        exact ⟨c, rfl, Except.ok.inj h⟩
  cases v with
  | cls c =>
      rw [findMethod?] at h
      split at h
      · rename_i hf
        exact .inr ⟨c, rfl, hf.trans (Except.ok.inj h)⟩
      · exact .inl (byClass h)
  | _ => exact .inl (byClass h)

/-- **Dispatch finds what fits.**  The method that a value has under a name may be called on it,
and its owner is in the table. -/
theorem fits_of_findMethod? (hm : m.Sound ok) {v : Value} (hv : v.Lives m) {name : NameId}
    {method : Method} {owner : ClassId} (h : m.findMethod? v name = .ok (some (method, owner))) :
    method.Fits ok v ∧ owner.index < m.classes.classes.size := by
  rcases of_findMethod? h with ⟨c, hc, hf⟩ | ⟨c, rfl, hf⟩
  · obtain ⟨hmem, hin⟩ := hm.classes.belongsIn_of_findMethod? hf
    exact ⟨hin.fits (hm.sort_eq hv hc hmem),
      hm.classes.ancestors_lt (hm.classOf_lt hv hc) owner hmem⟩
  -- The methods of a class itself may be put into any class.
  · obtain ⟨hmem, hany⟩ := hm.classes.belongsAnywhere_of_findClassMethod? hf
    exact ⟨hany.fits _, hm.classes.ancestors_lt hv owner hmem⟩

/-- What is an instance of the class of exceptions or of one below it is an exception. -/
theorem isException_of_isA (hm : m.Sound ok) {v : Value} (hv : v.Lives m)
    (h : m.isA v .exception = .ok true) : v.IsException m := by
  cases hc : m.classOf v with
  | error cause =>
      rw [isA, hc] at h
      cases h
  | ok c =>
      rw [isA, hc] at h
      have ha : ClassId.exception ∈ m.classes.ancestors c := by
        simpa [ClassTable.isSubclass] using Except.ok.inj h
      have hs := hm.sort_eq hv hc ha (by decide) (by decide)
      -- Only plain objects are of that sort.
      cases v with
      | obj id =>
          cases hc
          exact ⟨id, rfl, hv, (hm.objects _ (Heap.object_mem hv)).1.1, ha⟩
      | bool b => cases b <;> cases hs
      | _ => cases hs

end Machine.Sound

/-! ### Changes to a machine -/

/-- An element of a row in which one place has been changed is an old one or the changed one. -/
theorem mem_of_mem_modify {α : Type} {a : Array α} {i : Nat} {f : α → α} {x : α}
    (h : x ∈ a.modify i f) : x ∈ a ∨ ∃ y ∈ a, x = f y := by
  obtain ⟨j, hj, rfl⟩ := Array.mem_iff_getElem.mp h
  have hj' : j < a.size := by simpa using hj
  rw [Array.getElem_modify]
  split
  · exact .inr ⟨a[j], Array.getElem_mem hj', rfl⟩
  · exact .inl (Array.getElem_mem hj')

namespace Machine

/-- A machine goes over into one that has grown and is well kept. -/
structure Leads (ok : Node → Prop) (m m' : Machine) : Prop where
  grows : m.Grows m'
  sound : m'.Sound ok

namespace Leads

variable {m₁ m₂ : Machine}

/-- A sound machine leads to itself. -/
theorem refl (hm : m.Sound ok) : m.Leads ok m := ⟨.refl m, hm⟩

theorem trans (h₁ : m.Leads ok m₁) (h₂ : m₁.Leads ok m₂) : m.Leads ok m₂ :=
  ⟨h₁.grows.trans h₂.grows, h₂.sound⟩

end Leads

namespace Sound

/-- Names, the text that was read last, output and the number of open calls do not matter. -/
theorem leads_of_eq (hm : m.Sound ok) (classes : m'.classes = m.classes) (heap : m'.heap = m.heap)
    (frames : m'.frames = m.frames) (constants : m'.constants = m.constants)
    (refuses : m'.sink.Refuses ↔ m.sink.Refuses) : m.Leads ok m' := by
  have hg : m.Grows m' := .of_eq classes heap refuses
  refine ⟨hg, hm.of_grows hg (classes ▸ hm.classes) ?_ ?_ ?_ ?_ ?_ (.inl constants)⟩
  · exact fun cell hc => .inl (heap ▸ hc)
  · exact fun cell hc => .inl (heap ▸ hc)
  · exact fun cell hc => .inl (heap ▸ hc)
  · exact fun cell hc => .inl (heap ▸ hc)
  · exact fun b hb => .inl (frames ▸ hb)

/-- Classes may be exchanged for more that are sound. -/
theorem leads_classes (hm : m.Sound ok) {t : ClassTable} (he : m.classes.Extends t)
    (ht : t.Sound ok) : m.Leads ok { m with classes := t } := by
  have hg : m.Grows { m with classes := t } :=
    ⟨he, Nat.le_refl _, Nat.le_refl _, Nat.le_refl _, Nat.le_refl _, fun _ _ => rfl, .rfl⟩
  exact ⟨hg, hm.of_grows hg ht (fun _ h => .inl h) (fun _ h => .inl h) (fun _ h => .inl h)
    (fun _ h => .inl h) (fun _ h => .inl h) (.inl rfl)⟩

/-- A value that lives may be bound to a local. -/
theorem leads_setLocal (hm : m.Sound ok) (scope : Scope) (name : NameId) {v : Value}
    (hv : v.Lives m) : m.Leads ok { m with frames := m.frames.set scope name v } := by
  have hg : m.Grows { m with frames := m.frames.set scope name v } := .of_eq rfl rfl .rfl
  refine ⟨hg, hm.of_grows hg hm.classes (fun _ h => .inl h) (fun _ h => .inl h)
    (fun _ h => .inl h) (fun _ h => .inl h) (fun b hb => ?_) (.inl rfl)⟩
  simp only [FrameStore.set] at hb
  rcases mem_of_mem_modify hb with h | ⟨b', h, rfl⟩
  · exact .inl h
  · exact .inr ((hm.frames b' h).insert name hv)

/-- A new frame has nothing in it. -/
theorem leads_openScope (hm : m.Sound ok) (scope : Scope) :
    m.Leads ok { m with frames := (m.frames.child scope).2 } := by
  have hg : m.Grows { m with frames := (m.frames.child scope).2 } := .of_eq rfl rfl .rfl
  refine ⟨hg, hm.of_grows hg hm.classes (fun _ h => .inl h) (fun _ h => .inl h)
    (fun _ h => .inl h) (fun _ h => .inl h) (fun b hb => ?_) (.inl rfl)⟩
  rcases Array.mem_push.mp hb with h | rfl
  · exact .inl h
  · exact .inr Bindings.forall_empty

/-- A value that lives may be bound to a constant. -/
theorem leads_setConstant (hm : m.Sound ok) (name : NameId) {v : Value} (hv : v.Lives m) :
    m.Leads ok { m with constants := m.constants.insert name v } := by
  have hg : m.Grows { m with constants := m.constants.insert name v } := .of_eq rfl rfl .rfl
  exact ⟨hg, hm.of_grows hg hm.classes (fun _ h => .inl h) (fun _ h => .inl h)
    (fun _ h => .inl h) (fun _ h => .inl h) (fun _ h => .inl h)
    (.inr (hm.constants.insert name hv))⟩

/-! ### Changes to the heap -/

/-- A string may be made of a class that makes strings. -/
theorem leads_newString (hm : m.Sound ok) {c : ClassId} (hc : c.Carries m .text) (text : String) :
    m.Leads ok { m with heap := (m.heap.newString c text).2 } := by
  have hg : m.Grows { m with heap := (m.heap.newString c text).2 } :=
    ⟨.refl _, by simp [Heap.newString], Nat.le_refl _, Nat.le_refl _, Nat.le_refl _,
      fun _ _ => rfl, .rfl⟩
  refine ⟨hg, hm.of_grows hg hm.classes (fun cell h => ?_) (fun _ h => .inl h)
    (fun _ h => .inl h) (fun _ h => .inl h) (fun _ h => .inl h) (.inl rfl)⟩
  rcases Array.mem_push.mp h with h | rfl
  · exact .inl h
  · exact .inr (hc.grow hm.classes hg)

/-- An array may be made of values that live. -/
theorem leads_newArray (hm : m.Sound ok) {c : ClassId} (hc : c.Carries m .elements)
    {elements : Array Value} (he : ∀ v ∈ elements, v.Lives m) :
    m.Leads ok { m with heap := (m.heap.newArray c elements).2 } := by
  have hg : m.Grows { m with heap := (m.heap.newArray c elements).2 } :=
    ⟨.refl _, Nat.le_refl _, by simp [Heap.newArray], Nat.le_refl _, Nat.le_refl _,
      fun _ _ => rfl, .rfl⟩
  refine ⟨hg, hm.of_grows hg hm.classes (fun _ h => .inl h) (fun cell h => ?_)
    (fun _ h => .inl h) (fun _ h => .inl h) (fun _ h => .inl h) (.inl rfl)⟩
  rcases Array.mem_push.mp h with h | rfl
  · exact .inl h
  · exact .inr ⟨hc.grow hm.classes hg, fun v hv => (he v hv).grow hg⟩

/-- An object may be made, without variables at first. -/
theorem leads_newObject (hm : m.Sound ok) {c : ClassId} (hc : c.Carries m .ivars) :
    m.Leads ok { m with heap := (m.heap.newObject c).2 } := by
  have hg : m.Grows { m with heap := (m.heap.newObject c).2 } := by
    refine ⟨.refl _, Nat.le_refl _, Nat.le_refl _, by simp [Heap.newObject], Nat.le_refl _,
      fun id hid => ?_, .rfl⟩
    simp [Heap.object, Heap.newObject, Array.getElem?_push, Nat.ne_of_lt hid]
  refine ⟨hg, hm.of_grows hg hm.classes (fun _ h => .inl h) (fun _ h => .inl h)
    (fun cell h => ?_) (fun _ h => .inl h) (fun _ h => .inl h) (.inl rfl)⟩
  rcases Array.mem_push.mp h with h | rfl
  · exact .inl h
  · exact .inr ⟨hc.grow hm.classes hg, Bindings.forall_empty⟩

/-- A bound method may be made if its method fits the receiver. -/
theorem leads_newBound (hm : m.Sound ok) {cell : BoundCell} (hc : cell.Sound ok m) :
    m.Leads ok { m with heap := (m.heap.newBound cell).2 } := by
  have hg : m.Grows { m with heap := (m.heap.newBound cell).2 } :=
    ⟨.refl _, Nat.le_refl _, Nat.le_refl _, Nat.le_refl _, by simp [Heap.newBound],
      fun _ _ => rfl, .rfl⟩
  refine ⟨hg, hm.of_grows hg hm.classes (fun _ h => .inl h) (fun _ h => .inl h)
    (fun _ h => .inl h) (fun cell' h => ?_) (fun _ h => .inl h) (.inl rfl)⟩
  rcases Array.mem_push.mp h with h | rfl
  · exact .inl h
  · exact .inr (hc.grow hg)

/-- A text may grow, as no value depends on what it says. -/
theorem leads_append (hm : m.Sound ok) (id : StringId) (more : String) :
    m.Leads ok { m with heap := m.heap.append id more } := by
  have hg : m.Grows { m with heap := m.heap.append id more } :=
    ⟨.refl _, by simp [Heap.append], Nat.le_refl _, Nat.le_refl _, Nat.le_refl _,
      fun _ _ => rfl, .rfl⟩
  refine ⟨hg, hm.of_grows hg hm.classes (fun cell h => ?_) (fun _ h => .inl h)
    (fun _ h => .inl h) (fun _ h => .inl h) (fun _ h => .inl h) (.inl rfl)⟩
  simp only [Heap.append] at h
  rcases mem_of_mem_modify h with h | ⟨cell', h', rfl⟩
  · exact .inl h
  · exact .inr ((hm.strings cell' h').grow hm.classes hg)

/-- Elements may be changed to others that live. -/
theorem leads_modifyElements (hm : m.Sound ok) (id : ArrayId) {f : Array Value → Array Value}
    (hf : ∀ elements : Array Value, (∀ v ∈ elements, v.Lives m) → ∀ v ∈ f elements, v.Lives m) :
    m.Leads ok { m with heap := m.heap.modifyElements id f } := by
  have hg : m.Grows { m with heap := m.heap.modifyElements id f } :=
    ⟨.refl _, Nat.le_refl _, by simp [Heap.modifyElements], Nat.le_refl _, Nat.le_refl _,
      fun _ _ => rfl, .rfl⟩
  refine ⟨hg, hm.of_grows hg hm.classes (fun _ h => .inl h) (fun cell h => ?_)
    (fun _ h => .inl h) (fun _ h => .inl h) (fun _ h => .inl h) (.inl rfl)⟩
  simp only [Heap.modifyElements] at h
  rcases mem_of_mem_modify h with h | ⟨cell', h', rfl⟩
  · exact .inl h
  · obtain ⟨hc, he⟩ := hm.arrays cell' h'
    exact .inr ⟨hc.grow hm.classes hg, fun v hv => (hf _ he v hv).grow hg⟩

/-- A value that lives may be put into a variable. -/
theorem leads_setVariable (hm : m.Sound ok) (id : ObjectId) (name : NameId) {v : Value}
    (hv : v.Lives m) : m.Leads ok { m with heap := m.heap.setVariable id name v } := by
  have hg : m.Grows { m with heap := m.heap.setVariable id name v } := by
    refine ⟨.refl _, Nat.le_refl _, Nat.le_refl _, by simp [Heap.setVariable], Nat.le_refl _,
      fun id' hid => ?_, .rfl⟩
    simp only [Heap.object, Heap.setVariable, Array.getElem?_modify]
    split <;> simp [hid]
  refine ⟨hg, hm.of_grows hg hm.classes (fun _ h => .inl h) (fun _ h => .inl h)
    (fun cell h => ?_) (fun _ h => .inl h) (fun _ h => .inl h) (.inl rfl)⟩
  simp only [Heap.setVariable] at h
  rcases mem_of_mem_modify h with h | ⟨cell', h', rfl⟩
  · exact .inl h
  · obtain ⟨hc, he⟩ := hm.objects cell' h'
    exact .inr ⟨hc.grow hm.classes hg, (he.insert name hv).imp fun w hw => hw.grow hg⟩

end Sound

end Machine

end MiniRuby
