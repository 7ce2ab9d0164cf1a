import MiniRuby.Machine
import MiniRuby.Proofs.ClassTable
import MiniRuby.Proofs.Name

/-!
# Machines that grow

As a program runs, its machine grows: what is there stays there.  A cell of the heap keeps its
class, a string is only added to, and an instance variable that has been set stays set
(`Heap.Extends`).  Classes and names are never taken away, nor what the names of classes stand for,
and a constant that has been set stays set (`Machine.Evolves`).

The changes that steps make to a machine are all of this kind.  Here this is said of each way to
change a heap, and of each part of a machine.
-/

namespace MiniRuby

/-! ### Names -/

namespace NameTable

/-- A name is found at the same position in a later table. -/
theorem Grows.find?_eq {t t' : NameTable} (h : t.Grows t') {name : String} {id : NameId}
    (hf : t.find? name = some id) : t'.find? name = some id := by
  induction h with
  | refl => exact hf
  | intern _ other ih =>
      rw [find?_intern]
      split
      · rename_i same
        rw [same, intern_of_find? ih]
      · exact ih

end NameTable

/-! ### The heap -/

/-- What stands at a position stays there when something is added at the end. -/
theorem getD_push {α : Type} (xs : Array α) (a d : α) {i : Nat} (hi : i < xs.size) :
    i < (xs.push a).size ∧ ((xs.push a)[i]?).getD d = (xs[i]?).getD d := by
  refine ⟨by simp; omega, ?_⟩
  rw [Array.getElem?_push, if_neg (Nat.ne_of_lt hi)]

/-- What stands at a position is changed or not. -/
theorem getD_modify {α : Type} (xs : Array α) (f : α → α) (d : α) {i : Nat} (hi : i < xs.size)
    (j : Nat) : i < (xs.modify j f).size ∧
      (((xs.modify j f)[i]?).getD d = (xs[i]?).getD d ∨
        ((xs.modify j f)[i]?).getD d = f ((xs[i]?).getD d)) := by
  refine ⟨by simpa using hi, ?_⟩
  rw [Array.getElem?_modify]
  split
  · exact .inr (by simp [hi])
  · exact .inl rfl

namespace Heap

/-- The cells of a heap are there, each with its class; texts are only added to, and instance
variables stay bound. -/
structure Extends (h h' : Heap) : Prop where
  string : ∀ id : StringId, id.index < h.strings.size → id.index < h'.strings.size ∧
    (h'.string id).cls = (h.string id).cls ∧ ∃ more, h'.text id = h.text id ++ more
  array : ∀ id : ArrayId, id.index < h.arrays.size → id.index < h'.arrays.size ∧
    (h'.array id).cls = (h.array id).cls
  object : ∀ id : ObjectId, id.index < h.objects.size → id.index < h'.objects.size ∧
    (h'.object id).cls = (h.object id).cls ∧
    ∀ name, (h.ivar? id name).isSome = true → (h'.ivar? id name).isSome = true
  bound : ∀ id : BoundId, id.index < h.bounds.size → id.index < h'.bounds.size ∧
    h'.bound id = h.bound id

namespace Extends

variable {h h₁ h₂ : Heap}

theorem refl (h : Heap) : h.Extends h where
  string _ hid := ⟨hid, rfl, "", (String.append_empty).symm⟩
  array _ hid := ⟨hid, rfl⟩
  object _ hid := ⟨hid, rfl, fun _ => id⟩
  bound _ hid := ⟨hid, rfl⟩

theorem trans (e₁ : h.Extends h₁) (e₂ : h₁.Extends h₂) : h.Extends h₂ where
  string id hid := by
    obtain ⟨lt₁, cls₁, more₁, text₁⟩ := e₁.string id hid
    obtain ⟨lt₂, cls₂, more₂, text₂⟩ := e₂.string id lt₁
    refine ⟨lt₂, cls₂.trans cls₁, more₁ ++ more₂, ?_⟩
    rw [text₂, text₁, String.append_assoc]
  array id hid := by
    obtain ⟨lt₁, cls₁⟩ := e₁.array id hid
    obtain ⟨lt₂, cls₂⟩ := e₂.array id lt₁
    exact ⟨lt₂, cls₂.trans cls₁⟩
  object id hid := by
    obtain ⟨lt₁, cls₁, bound₁⟩ := e₁.object id hid
    obtain ⟨lt₂, cls₂, bound₂⟩ := e₂.object id lt₁
    exact ⟨lt₂, cls₂.trans cls₁, fun name hn => bound₂ name (bound₁ name hn)⟩
  bound id hid := by
    obtain ⟨lt₁, same₁⟩ := e₁.bound id hid
    obtain ⟨lt₂, same₂⟩ := e₂.bound id lt₁
    exact ⟨lt₂, same₂.trans same₁⟩

/-! What is made gets a cell of its own. -/

/-- Making a string keeps all cells that were there. -/
theorem newString (h : Heap) (cls : ClassId) (text : String) :
    h.Extends (h.newString cls text).2 where
  string id hid := by
    obtain ⟨lt, same⟩ := getD_push h.strings ⟨cls, text⟩ default hid
    have cell : (h.newString cls text).2.string id = h.string id := same
    exact ⟨lt, congrArg StringCell.cls cell, "", by rw [Heap.text, cell, String.append_empty]; rfl⟩
  array := (refl h).array
  object := (refl h).object
  bound := (refl h).bound

/-- So does making an array. -/
theorem newArray (h : Heap) (cls : ClassId) (elements : Array Value) :
    h.Extends (h.newArray cls elements).2 where
  string := (refl h).string
  array id hid := by
    obtain ⟨lt, same⟩ := getD_push h.arrays ⟨cls, elements⟩ default hid
    exact ⟨lt, congrArg ArrayCell.cls same⟩
  object := (refl h).object
  bound := (refl h).bound

theorem newObject (h : Heap) (cls : ClassId) : h.Extends (h.newObject cls).2 where
  string := (refl h).string
  array := (refl h).array
  object id hid := by
    obtain ⟨lt, same⟩ := getD_push h.objects ⟨cls, .empty⟩ default hid
    have cell : (h.newObject cls).2.object id = h.object id := same
    refine ⟨lt, congrArg ObjectCell.cls cell, fun name hn => ?_⟩
    rwa [ivar?, cell]
  bound := (refl h).bound

theorem newBound (h : Heap) (cell : BoundCell) : h.Extends (h.newBound cell).2 where
  string := (refl h).string
  array := (refl h).array
  object := (refl h).object
  bound _ hid := getD_push h.bounds cell default hid

/-! A change keeps the class of a cell. -/

/-- A text that grows stays where it is. -/
theorem append (h : Heap) (id : StringId) (more : String) : h.Extends (h.append id more) where
  string id' hid := by
    obtain ⟨lt, same⟩ := getD_modify h.strings (fun c => { c with text := c.text ++ more }) default
      hid id.index
    refine ⟨lt, ?_⟩
    rcases same with same | same
    · have cell : (h.append id more).string id' = h.string id' := same
      exact ⟨congrArg StringCell.cls cell, "", by rw [Heap.text, cell, String.append_empty]; rfl⟩
    · have cell : (h.append id more).string id' =
          { h.string id' with text := (h.string id').text ++ more } := same
      exact ⟨by rw [cell], more, by rw [Heap.text, cell]; rfl⟩
  array := (refl h).array
  object := (refl h).object
  bound := (refl h).bound

/-- Elements that are changed stay in their array. -/
theorem modifyElements (h : Heap) (id : ArrayId) (f : Array Value → Array Value) :
    h.Extends (h.modifyElements id f) where
  string := (refl h).string
  array id' hid := by
    obtain ⟨lt, same⟩ := getD_modify h.arrays (fun c => { c with elements := f c.elements }) default
      hid id.index
    exact ⟨lt, same.elim (congrArg ArrayCell.cls) (congrArg ArrayCell.cls)⟩
  object := (refl h).object
  bound := (refl h).bound

/-- A variable that is set stays with its object. -/
theorem setVariable (h : Heap) (id : ObjectId) (name : NameId) (v : Value) :
    h.Extends (h.setVariable id name v) where
  string := (refl h).string
  array := (refl h).array
  object id' hid := by
    obtain ⟨lt, same⟩ := getD_modify h.objects
      (fun c => { c with ivars := c.ivars.insert name v }) default hid id.index
    refine ⟨lt, same.elim (congrArg ObjectCell.cls) (congrArg ObjectCell.cls), fun x hx => ?_⟩
    rcases same with same | same
    · have cell : (h.setVariable id name v).object id' = h.object id' := same
      rwa [ivar?, cell]
    · have ivars : ((h.setVariable id name v).object id').ivars =
          (h.object id').ivars.insert name v := congrArg ObjectCell.ivars same
      rw [ivar?, ivars, Bindings.get?_insert]
      split
      · rfl
      · exact hx
  bound := (refl h).bound

end Extends

end Heap

/-- **What making an instance comes to.**  The payload of the class says what its new cell holds: no
variables yet, a text, or as many elements as were asked for, which all are the same value, nil or
one of the arguments. -/
theorem ClassTable.instantiate_cases {t : ClassTable} {h h' : Heap} {c : ClassId}
    {args : List Value} {memory : Memory} {v : Value}
    (e : t.instantiate h c args memory = .ok (v, h')) :
    (t.payload c = .ivars ∧ h.newObject c = (v, h')) ∨
      (t.payload c = .text ∧ ∃ s, h.newString c s = (v, h')) ∨
      (t.payload c = .elements ∧ ∃ size w, (w = .nil ∨ w ∈ args) ∧
        h.newArray c (Array.replicate size w) = (v, h')) := by
  have row (size : Except Fault Nat) (w : Value) : (do
      let n ← size
      if memory.holdsElements 0 n then .ok (h.newArray c (Array.replicate n w))
        else .error .tooBig) = (.ok (v, h') : Except Fault (Value × Heap)) →
      ∃ n, h.newArray c (Array.replicate n w) = (v, h') := by
    intro e
    cases size with
    | error cause => cases e
    | ok n =>
        change (if _ then _ else _) = _ at e
        split at e
        · exact ⟨n, Except.ok.inj e⟩
        · cases e
  unfold instantiate at e
  split at e
  case h_1 payload => exact .inl ⟨payload, Except.ok.inj e⟩
  case h_2 payload =>
    split at e
    · exact .inr (.inl ⟨payload, _, Except.ok.inj e⟩)
    · exact .inr (.inl ⟨payload, _, Except.ok.inj e⟩)
    · cases e
    · cases e
  case h_3 payload =>
    split at e
    · obtain ⟨n, made⟩ := row (.ok 0) .nil e
      exact .inr (.inr ⟨payload, n, .nil, .inl rfl, made⟩)
    · obtain ⟨n, made⟩ := row _ .nil e
      exact .inr (.inr ⟨payload, n, .nil, .inl rfl, made⟩)
    · obtain ⟨n, made⟩ := row _ _ e
      exact .inr (.inr ⟨payload, n, _, .inr (.tail _ (.head _)), made⟩)
    · cases e
  case h_4 => cases e

/-- An instance gets a cell of its own, whatever it carries. -/
theorem ClassTable.extends_instantiate {t : ClassTable} {h h' : Heap} {c : ClassId}
    {args : List Value} {memory : Memory} {v : Value}
    (e : t.instantiate h c args memory = .ok (v, h')) : h.Extends h' := by
  obtain ⟨-, ⟨⟩⟩ | ⟨-, s, ⟨⟩⟩ | ⟨-, size, w, -, ⟨⟩⟩ := instantiate_cases e
  · exact .newObject h c
  · exact .newString h c s
  · exact .newArray h c _

/-! ### The machine -/

namespace Machine

/-- What is there stays there: names, classes, cells and constants; and the text that was read last
is the same. -/
structure Evolves (m m' : Machine) : Prop where
  names : m.names.Grows m'.names
  classes : m.classes.Grows m'.classes
  heap : m.heap.Extends m'.heap
  constants : ∀ name, (m.constants.get? name).isSome = true →
    (m'.constants.get? name).isSome = true
  source? : m'.source? = m.source?

namespace Evolves

variable {m m₁ m₂ : Machine}

/-- Frames, output and the number of open calls do not matter. -/
theorem of_eq (names : m₁.names = m.names) (classes : m₁.classes = m.classes)
    (heap : m₁.heap = m.heap) (constants : m₁.constants = m.constants)
    (source? : m₁.source? = m.source?) : m.Evolves m₁ where
  names := names ▸ .refl
  classes := classes ▸ .refl
  heap := heap ▸ .refl _
  constants _ h := constants ▸ h
  source? := source?

theorem refl (m : Machine) : m.Evolves m := of_eq rfl rfl rfl rfl rfl

theorem trans (h₁ : m.Evolves m₁) (h₂ : m₁.Evolves m₂) : m.Evolves m₂ where
  names := h₁.names.trans h₂.names
  classes := h₁.classes.trans h₂.classes
  heap := h₁.heap.trans h₂.heap
  constants name h := h₂.constants name (h₁.constants name h)
  source? := h₂.source?.trans h₁.source?

/-- A machine evolves if its names grow. -/
theorem withNames {names : NameTable} (h : m.names.Grows names) :
    m.Evolves { m with names := names } :=
  { refl m with names := h }

/-- It evolves if its classes grow. -/
theorem withClasses {classes : ClassTable} (h : m.classes.Grows classes) :
    m.Evolves { m with classes := classes } :=
  { refl m with classes := h }

/-- It evolves if its heap is extended. -/
theorem withHeap {heap : Heap} (h : m.heap.Extends heap) : m.Evolves { m with heap := heap } :=
  { refl m with heap := h }

/-- A constant may be bound to another value, but stays bound. -/
theorem setConstant (m : Machine) (name : NameId) (v : Value) :
    m.Evolves { m with constants := m.constants.insert name v } := by
  refine { refl m with constants := fun x hx => ?_ }
  rw [Bindings.get?_insert]
  split
  · rfl
  · exact hx

end Evolves

end Machine

end MiniRuby
