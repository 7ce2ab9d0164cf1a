import MiniRuby.Proofs.Renaming.Kin

/-!
# Machines that differ in their names

Two machines are alike when all that they have corresponds, except that the positions of names
differ (`Machine.Alike`).  Classes, cells and frames stand at the same positions in both.

What is asked of machines that are alike has the same answer, if it is a text, a class or a fault,
and otherwise answers that are alike.  A change that is made to both leaves them alike.
-/

namespace MiniRuby

variable {w w' : Tables}

/-! ### Classes -/

structure ClassInfo.Alike (w : Tables) (i j : ClassInfo) : Prop where
  name : j.name = i.name
  above : j.above = i.above
  payload? : j.payload? = i.payload?
  methods : Kin.method.bindings w i.methods j.methods
  classMethods : Kin.method.bindings w i.classMethods j.classMethods

abbrev Kin.classInfo : Kin ClassInfo := ⟨ClassInfo.Alike, fun hw h =>
  ⟨h.name, h.above, h.payload?, Kin.method.bindings.mono hw h.methods,
    Kin.method.bindings.mono hw h.classMethods⟩⟩

structure ClassTable.Alike (w : Tables) (t u : ClassTable) : Prop where
  classes : Kin.classInfo.array w t.classes u.classes
  names : u.names = t.names

/-- A method that is alike, of the same class. -/
abbrev Kin.found : Kin (Method × ClassId) := Kin.method.prod Kin.same

namespace ClassTable.Alike

variable {t u : ClassTable} {x y : NameId} {f f' : Method}

/-- Tables that correspond do so when more names are known. -/
theorem mono (hw : w ≤ w') (h : t.Alike w u) : t.Alike w' u :=
  ⟨Kin.classInfo.array.mono hw h.classes, h.names⟩

/-- The entries of one class correspond. -/
theorem get (h : t.Alike w u) (c : ClassId) : Kin.classInfo w (t.get c) (u.get c) :=
  Kin.option_getD (R := Kin.classInfo) (Kin.array_getElem? h.classes c.index)
    ⟨rfl, rfl, rfl, .nil, .nil⟩

theorem name_eq (h : t.Alike w u) (c : ClassId) : u.name c = t.name c := (h.get c).name

/-- Classes have no names in them that are renamed, so the ancestors are the same classes. -/
theorem ancestors_eq (h : t.Alike w u) (c : ClassId) : u.ancestors c = t.ancestors c := by
  rw [ancestors, ancestors, (h.get c).above]

theorem parent?_eq (h : t.Alike w u) (c : ClassId) : u.parent? c = t.parent? c := by
  rw [parent?, parent?, (h.get c).above]

theorem isSubclass_eq (h : t.Alike w u) (c a : ClassId) : u.isSubclass c a = t.isSubclass c a := by
  rw [isSubclass, isSubclass, h.ancestors_eq]

theorem payload_eq (h : t.Alike w u) (c : ClassId) : u.payload c = t.payload c := by
  have each : (fun a => (u.get a).payload?) = fun a => (t.get a).payload? :=
    funext fun a => (h.get a).payload?
  rw [payload, payload, h.ancestors_eq, each]

/-- A class is found by its text, which no renaming changes. -/
theorem find?_eq (h : t.Alike w u) (name : String) : u.find? name = t.find? name := by
  rw [find?, find?, h.names]

theorem size_eq (h : t.Alike w u) : u.classes.size = t.classes.size := Kin.array_size h.classes

/-- The same definition is found among some classes. -/
theorem findIn [Comparison] (hw : w.Valid) (hn : w.Spelled x y)
    {methods : ClassInfo → Bindings Method}
    (hm : ∀ c, Kin.method.bindings w (methods (t.get c)) (methods (u.get c))) (cs : List ClassId) :
    Kin.found.option w (t.findIn methods x cs) (u.findIn methods y cs) := by
  induction cs with
  | nil => exact .none
  | cons c cs ih =>
      have here := Kin.bindings_get? (hm c) hw hn
      rw [ClassTable.findIn, ClassTable.findIn]
      generalize (methods (t.get c)).get? x = f at here ⊢
      generalize (methods (u.get c)).get? y = f' at here ⊢
      cases here with
      | none => exact ih
      | some hf => exact .some ⟨hf, rfl⟩

/-- **A method is found** under names that correspond, or none is. -/
theorem findMethod? [Comparison] (h : t.Alike w u) (hw : w.Valid) (hn : w.Spelled x y)
    (c : ClassId) :
    Kin.found.option w (t.findMethod? c x) (u.findMethod? c y) := by
  rw [ClassTable.findMethod?, ClassTable.findMethod?, h.ancestors_eq]
  exact findIn hw hn (fun c => (h.get c).methods) _

/-- The same of methods of the class itself. -/
theorem findClassMethod? [Comparison] (h : t.Alike w u) (hw : w.Valid) (hn : w.Spelled x y)
    (c : ClassId) :
    Kin.found.option w (t.findClassMethod? c x) (u.findClassMethod? c y) := by
  rw [ClassTable.findClassMethod?, ClassTable.findClassMethod?, h.ancestors_eq]
  exact findIn hw hn (fun c => (h.get c).classMethods) _

/-- Registering a class takes the same position in both tables. -/
theorem register (h : t.Alike w u) (known name : String) (parent? : Option ClassId)
    (payload? : Option Payload) :
    (u.register known name parent? payload?).1 = (t.register known name parent? payload?).1 ∧
      (t.register known name parent? payload?).2.Alike w
        (u.register known name parent? payload?).2 := by
  refine ⟨congrArg ClassId.mk h.size_eq, Kin.array_push h.classes ⟨rfl, ?_, rfl, .nil, .nil⟩, ?_⟩
  · cases parent? with
    | none => rfl
    | some parent => exact h.ancestors_eq parent
  · simp only [ClassTable.register, h.names, h.size_eq]

/-- Entries that are changed alike correspond again. -/
theorem modify (h : t.Alike w u) (c : ClassId) {f g : ClassInfo → ClassInfo}
    (hf : ∀ i j, Kin.classInfo w i j → Kin.classInfo w (f i) (g j)) :
    (t.modify c f).Alike w (u.modify c g) :=
  ⟨Kin.array_modify h.classes c.index hf, h.names⟩

/-- A method may be added under names that correspond. -/
theorem addMethod [Comparison] (h : t.Alike w u) (hw : w.Valid) (c : ClassId)
    (hf : Kin.method w f f') :
    (t.addMethod c f).Alike w (u.addMethod c f') :=
  h.modify c fun _ _ hi => { hi with methods := Kin.bindings_insert hi.methods hw hf.name hf }

theorem addClassMethod [Comparison] (h : t.Alike w u) (hw : w.Valid) (c : ClassId)
    (hf : Kin.method w f f') :
    (t.addClassMethod c f).Alike w (u.addClassMethod c f') :=
  h.modify c fun _ _ hi =>
    { hi with classMethods := Kin.bindings_insert hi.classMethods hw hf.name hf }

/-- And one may be removed. -/
theorem removeMethod [Comparison] (h : t.Alike w u) (hw : w.Valid) (c : ClassId)
    (hn : w.Spelled x y) :
    (t.removeMethod c x).Alike w (u.removeMethod c y) :=
  h.modify c fun _ _ hi => { hi with methods := Kin.bindings_erase hi.methods hw hn }

end ClassTable.Alike

/-! ### The heap -/

structure ArrayCell.Alike (w : Tables) (a b : ArrayCell) : Prop where
  cls : b.cls = a.cls
  elements : Kin.value.array w a.elements b.elements

structure ObjectCell.Alike (w : Tables) (a b : ObjectCell) : Prop where
  cls : b.cls = a.cls
  ivars : Kin.value.bindings w a.ivars b.ivars

structure BoundCell.Alike (w : Tables) (a b : BoundCell) : Prop where
  cls : b.cls = a.cls
  name : w.Spelled a.name b.name
  receiver : Kin.value w a.receiver b.receiver
  method : Kin.method w a.method b.method
  owner : b.owner = a.owner

namespace Kin

abbrev arrayCell : Kin ArrayCell :=
  ⟨ArrayCell.Alike, fun hw h => ⟨h.cls, Kin.value.array.mono hw h.elements⟩⟩

abbrev objectCell : Kin ObjectCell :=
  ⟨ObjectCell.Alike, fun hw h => ⟨h.cls, Kin.value.bindings.mono hw h.ivars⟩⟩

abbrev boundCell : Kin BoundCell :=
  ⟨BoundCell.Alike, fun hw h => ⟨h.cls, h.name.mono hw, Kin.value.mono hw h.receiver,
    Kin.method.mono hw h.method, h.owner⟩⟩

end Kin

/-- The cells stand at the same positions; those of strings hold no names. -/
structure Heap.Alike (w : Tables) (h k : Heap) : Prop where
  strings : k.strings = h.strings
  arrays : Kin.arrayCell.array w h.arrays k.arrays
  objects : Kin.objectCell.array w h.objects k.objects
  bounds : Kin.boundCell.array w h.bounds k.bounds

abbrev Kin.heap : Kin Heap :=
  ⟨Heap.Alike, fun hw h => ⟨h.strings, Kin.arrayCell.array.mono hw h.arrays,
    Kin.objectCell.array.mono hw h.objects, Kin.boundCell.array.mono hw h.bounds⟩⟩

namespace Heap.Alike

variable {h k : Heap} {v v' : Value} {x y : NameId}

/-! What is found in the heap. -/

theorem string_eq (hk : h.Alike w k) (id : StringId) : k.string id = h.string id := by
  rw [string, string, hk.strings]

theorem text_eq (hk : h.Alike w k) (id : StringId) : k.text id = h.text id :=
  congrArg StringCell.text (hk.string_eq id)

/-- The cells of one array correspond. -/
theorem array (hk : h.Alike w k) (id : ArrayId) : Kin.arrayCell w (h.array id) (k.array id) :=
  Kin.option_getD (R := Kin.arrayCell) (Kin.array_getElem? hk.arrays id.index) ⟨rfl, .nil⟩

/-- The elements of one array correspond. -/
theorem elements (hk : h.Alike w k) (id : ArrayId) :
    Kin.value.array w (h.elements id) (k.elements id) := (hk.array id).elements

theorem object (hk : h.Alike w k) (id : ObjectId) : Kin.objectCell w (h.object id) (k.object id) :=
  Kin.option_getD (R := Kin.objectCell) (Kin.array_getElem? hk.objects id.index) ⟨rfl, .nil⟩

theorem bound [Comparison] (hk : h.Alike w k) (hw : w.Valid) (id : BoundId) :
    Kin.boundCell w (h.bound id) (k.bound id) := by
  have first : w.Spelled default default := .first hw.1 hw.2 (by decide)
  exact Kin.option_getD (R := Kin.boundCell) (Kin.array_getElem? hk.bounds id.index)
    ⟨rfl, first, .nil, .native first _ (.same _ nofun nofun), rfl⟩

/-- The variables of one object correspond under names that do. -/
theorem ivar? [Comparison] (hk : h.Alike w k) (hw : w.Valid) (id : ObjectId) (hn : w.Spelled x y) :
    Kin.value.option w (h.ivar? id x) (k.ivar? id y) :=
  Kin.bindings_get? (hk.object id).ivars hw hn

/-- A text that a value holds is the same text on both heaps. -/
theorem text?_eq (hk : h.Alike w k) (hv : Kin.value w v v') : k.text? v' = h.text? v := by
  cases hv with
  | str id => exact congrArg some (hk.text_eq id)
  | _ => rfl

/-- Where a value keeps its variables is the same place on both heaps. -/
theorem home_eq [Comparison] (hk : h.Alike w k) (hw : w.Valid) (hv : Kin.value w v v') :
    k.home v' = h.home v := by
  cases hv with
  | str id => exact congrArg (Home.cell ∘ StringCell.cls) (hk.string_eq id)
  | arr id => exact congrArg Home.cell (hk.array id).cls
  | obj id => exact congrArg Home.cell (hk.object id).cls
  | bound id => exact congrArg Home.cell (hk.bound hw id).cls
  | bool b => cases b <;> rfl
  | _ => rfl

/-! What is made and what is changed. -/

/-- **Allocation** takes the same id on both heaps, so the new values correspond. -/
theorem newString (hk : h.Alike w k) (cls : ClassId) (text : String) :
    (Kin.value.prod Kin.heap) w (h.newString cls text) (k.newString cls text) := by
  rw [Heap.newString, Heap.newString, hk.strings]
  exact ⟨.str _, rfl, hk.arrays, hk.objects, hk.bounds⟩

theorem newArray (hk : h.Alike w k) (cls : ClassId) {as bs : Array Value}
    (ha : Kin.value.array w as bs) :
    (Kin.value.prod Kin.heap) w (h.newArray cls as) (k.newArray cls bs) := by
  rw [Heap.newArray, Heap.newArray, Kin.array_size hk.arrays]
  exact ⟨.arr _, hk.strings, Kin.array_push hk.arrays ⟨rfl, ha⟩, hk.objects, hk.bounds⟩

theorem newObject (hk : h.Alike w k) (cls : ClassId) :
    (Kin.value.prod Kin.heap) w (h.newObject cls) (k.newObject cls) := by
  rw [Heap.newObject, Heap.newObject, Kin.array_size hk.objects]
  exact ⟨.obj _, hk.strings, hk.arrays, Kin.array_push hk.objects ⟨rfl, .nil⟩, hk.bounds⟩

/-- A bound method is made at the same id, too. -/
theorem newBound (hk : h.Alike w k) {a b : BoundCell} (hc : Kin.boundCell w a b) :
    (Kin.value.prod Kin.heap) w (h.newBound a) (k.newBound b) := by
  rw [Heap.newBound, Heap.newBound, Kin.array_size hk.bounds]
  exact ⟨.bound _, hk.strings, hk.arrays, hk.objects, Kin.array_push hk.bounds hc⟩

theorem append (hk : h.Alike w k) (id : StringId) (more : String) :
    (h.append id more).Alike w (k.append id more) := by
  refine ⟨?_, hk.arrays, hk.objects, hk.bounds⟩
  rw [Heap.append, Heap.append, hk.strings]

/-- Elements may be changed alike. -/
theorem modifyElements (hk : h.Alike w k) (id : ArrayId) {f g : Array Value → Array Value}
    (hf : ∀ as bs, Kin.value.array w as bs → Kin.value.array w (f as) (g bs)) :
    (h.modifyElements id f).Alike w (k.modifyElements id g) :=
  { hk with
    arrays := Kin.array_modify hk.arrays id.index fun _ _ hc => ⟨hc.cls, hf _ _ hc.elements⟩ }

/-- A variable may be set under names that correspond. -/
theorem setVariable [Comparison] (hk : h.Alike w k) (hw : w.Valid) (id : ObjectId)
    (hn : w.Spelled x y)
    (hv : Kin.value w v v') : (h.setVariable id x v).Alike w (k.setVariable id y v') :=
  { hk with
    objects := Kin.array_modify hk.objects id.index fun _ _ hc =>
      ⟨hc.cls, Kin.bindings_insert hc.ivars hw hn hv⟩ }

end Heap.Alike

/-! ### Frames -/

/-- The frames stand at the same positions. -/
def FrameStore.Alike (w : Tables) (t u : FrameStore) : Prop :=
  Kin.value.bindings.array w t.frames u.frames

namespace FrameStore.Alike

variable {t u : FrameStore} {x y : NameId}

/-- Frames that correspond do so when more names are known. -/
theorem mono (hw : w ≤ w') (h : t.Alike w u) : t.Alike w' u := Kin.value.bindings.array.mono hw h

theorem frame (h : t.Alike w u) (id : FrameId) :
    Kin.value.bindings w (t.frame id) (u.frame id) :=
  Kin.option_getD (R := Kin.value.bindings) (Kin.array_getElem? h id.index) .nil

/-- **A local is found** in frames that correspond, or is bound in neither. -/
theorem get? [Comparison] (h : t.Alike w u) (hw : w.Valid) (s : Scope) (hn : w.Spelled x y) :
    Kin.value.option w (t.get? s x) (u.get? s y) := by
  rw [FrameStore.get?, FrameStore.get?]
  induction s.path with
  | nil => exact .none
  | cons id ids ih =>
      have here := Kin.bindings_get? (h.frame id) hw hn
      rw [find, find]
      generalize (t.frame id).get? x = a at here ⊢
      generalize (u.frame id).get? y = b at here ⊢
      cases here with
      | none => exact ih
      | some hv => exact .some hv

/-- A local may be set in both. -/
theorem set [Comparison] (h : t.Alike w u) (hw : w.Valid) (s : Scope) (hn : w.Spelled x y)
    {v v' : Value}
    (hv : Kin.value w v v') : (t.set s x v).Alike w (u.set s y v') :=
  Kin.array_modify h s.inner.index fun _ _ hb => Kin.bindings_insert hb hw hn hv

/-- New frames take the same id. -/
theorem child (h : t.Alike w u) (s : Scope) :
    (u.child s).1 = (t.child s).1 ∧ (t.child s).2.Alike w (u.child s).2 := by
  refine ⟨?_, Kin.array_push h .nil⟩
  rw [FrameStore.child, FrameStore.child, Kin.array_size h]

end FrameStore.Alike

/-! ### Machines -/

namespace Machine

variable [Comparison]

/-- The tables of names of two machines. -/
abbrev both (m n : Machine) : Tables := ⟨m.names, n.names⟩

/-- **Machines that are alike** but for the positions of names. -/
structure Alike (m n : Machine) : Prop where
  valid : (m.both n).Valid
  classes : m.classes.Alike (m.both n) n.classes
  heap : Kin.heap (m.both n) m.heap n.heap
  frames : m.frames.Alike (m.both n) n.frames
  constants : Kin.value.bindings (m.both n) m.constants n.constants
  source? : n.source? = m.source?
  sink : n.sink = m.sink
  depth : n.depth = m.depth
  host : n.host = m.host

namespace Alike

variable {m n : Machine} {v v' : Value} {x y : NameId}

/-- More names make no difference. -/
theorem withNames (h : m.Alike n) {names names' : NameTable} (hw : m.both n ≤ ⟨names, names'⟩)
    (valid : Tables.Valid ⟨names, names'⟩) :
    Alike { m with names := names } { n with names := names' } where
  valid := valid
  classes := h.classes.mono hw
  heap := Kin.heap.mono hw h.heap
  frames := h.frames.mono hw
  constants := Kin.value.bindings.mono hw h.constants
  source? := h.source?
  sink := h.sink
  depth := h.depth
  host := h.host

/-- The same name is looked up in both tables. -/
theorem intern (h : m.Alike n) (text : String) :
    m.both n ≤ (m.both n).intern text ∧
      Alike { m with names := (m.names.intern text).2 }
        { n with names := (n.names.intern text).2 } :=
  have later := (m.both n).le_intern text
  ⟨later, h.withNames later (h.valid.intern text)⟩

/-- The name of a class is a text, which both machines tell alike. -/
theorem className_eq (h : m.Alike n) (hv : Kin.value (m.both n) v v') :
    n.className v' = m.className v := by
  rw [className, className, ClassTable.nameOf, ClassTable.nameOf, h.heap.home_eq h.valid hv]
  cases m.heap.home v with
  | known name => rfl
  | cell c => exact h.classes.name_eq c

/-- Values that correspond have the same class. -/
theorem classOf_eq (h : m.Alike n) (hv : Kin.value (m.both n) v v') :
    n.classOf v' = m.classOf v := by
  rw [classOf, classOf, ClassTable.classOf, ClassTable.classOf, h.heap.home_eq h.valid hv]
  cases m.heap.home v with
  | known name => simp only [h.classes.find?_eq]
  | cell c => rfl

theorem isA_eq (h : m.Alike n) (hv : Kin.value (m.both n) v v') (c : ClassId) :
    n.isA v' c = m.isA v c := by
  simp only [isA, h.classOf_eq hv, h.classes.isSubclass_eq]

theorem isMain_eq (h : m.Alike n) (hv : Kin.value (m.both n) v v') :
    v'.identical .main = v.identical .main := hv.identical_eq h.valid (.obj _)

/-- What an error says about a value is the same text. -/
theorem describe_eq (h : m.Alike n) (hv : Kin.value (m.both n) v v') :
    n.describe v' = m.describe v := by
  have main := h.isMain_eq hv
  have name := h.className_eq hv
  cases hv with
  | nil => rfl
  | bool b => cases b <;> rfl
  | cls c => exact congrArg ("class " ++ ·) (h.classes.name_eq c)
  | _ => simp only [describe, main, name]

/-- The text of a value that has none of its own shows its class only. -/
theorem plainText_eq (h : m.Alike n) (hv : Kin.value (m.both n) v v') :
    n.plainText v' = m.plainText v := by
  rw [plainText, plainText, h.isMain_eq hv, h.className_eq hv]

/-- `@message` is one of the first names, so both machines have it under one id. -/
theorem message (h : m.Alike n) : (m.both n).Spelled .message .message :=
  .first h.valid.1 h.valid.2 (by decide)

/-- **The message of an exception** is the same text on both machines. -/
theorem exceptionMessage_eq (h : m.Alike n) (hv : Kin.value (m.both n) v v') :
    n.exceptionMessage v' = m.exceptionMessage v := by
  have name := h.className_eq hv
  cases hv with
  | obj id =>
      have said := h.heap.ivar? h.valid id h.message
      simp only [exceptionMessage, name]
      generalize m.heap.ivar? id .message = a at said ⊢
      generalize n.heap.ivar? id .message = b at said ⊢
      cases said with
      | none => rfl
      | some hu =>
          cases hu with
          | str text => exact h.heap.text_eq text
          | _ => rfl
  | _ => exact name

/-- A constant stands for the same. -/
theorem constant (h : m.Alike n) (hn : (m.both n).Spelled x y) :
    Kin.value.except Kin.same (m.both n) (m.constant x) (n.constant y) := by
  have set := Kin.bindings_get? h.constants h.valid hn
  have text : n.names.text y = m.names.text x := hn.2.2
  rw [Machine.constant, Machine.constant]
  simp only [text, h.classes.find?_eq]
  generalize m.constants.get? x = a at set ⊢
  generalize n.constants.get? y = b at set ⊢
  cases set with
  | some hv => exact hv
  | none =>
      dsimp only
      cases m.classes.find? (m.names.text x) with
      | some c => exact .cls c
      | none => exact rfl

/-- A receiver has the same method under a name. -/
theorem findMethod? (h : m.Alike n) (hv : Kin.value (m.both n) v v')
    (hn : (m.both n).Spelled x y) :
    Kin.found.option.except Kin.same (m.both n) (m.findMethod? v x) (n.findMethod? v' y) := by
  have own : Kin.found.option.except Kin.same (m.both n)
      (m.classOf v >>= fun c => .ok (m.classes.findMethod? c x))
      (n.classOf v' >>= fun c => .ok (n.classes.findMethod? c y)) := by
    rw [h.classOf_eq hv]
    cases m.classOf v with
    | error cause => exact rfl
    | ok c => exact h.classes.findMethod? h.valid hn c
  cases hv with
  | cls c =>
      have here := h.classes.findClassMethod? h.valid hn c
      rw [Machine.findMethod?, Machine.findMethod?]
      dsimp only
      generalize m.classes.findClassMethod? c x = a at here ⊢
      generalize n.classes.findClassMethod? c y = b at here ⊢
      cases here with
      | some hf => exact .some hf
      | none => exact own
  | _ => exact own

end Alike

end Machine

end MiniRuby
