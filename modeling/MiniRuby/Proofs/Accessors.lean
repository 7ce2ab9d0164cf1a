import Mathlib.Data.List.Forall2
import MiniRuby.Proofs.Evaluator.Evaluates
import MiniRuby.Proofs.Evaluator.Program
import MiniRuby.Proofs.Evolution
import MiniRuby.Proofs.Jumps
import MiniRuby.Proofs.Lookup
import MiniRuby.Proofs.Sending

/-!
# Attributes are variables of objects

To define an attribute is to give a class two native methods: a reader under the name, and a writer
under the name with an equals sign.  Each of them has kept the name of an instance variable, which
is the name with a sign before it.  An assignment to what a reader reads looks for the writer by its
name anew.  So the methods and the variable meet only in the table of names, where a text has one
place and keeps it.

Objects have instance variables, and other values have none: their attributes read as `nil` and
refuse to be assigned.  A reader or a writer is a call like any other, so it is refused where calls
are nested too deeply.

* `ClassOp.defines_accessors`: what defining attributes leaves in the class.
* `Machine.Offers.actsAsVariable`: what one access does.
* `Accesses.remembers`: what is read after any row of accesses, by induction on the row.
* `attributes_are_variables`: all of this from the definition on.
-/

namespace MiniRuby

open MiniRuby.Action (bind_of_done)

/-! ### Names -/

/-- The names that an attribute goes by: of its reader, of its writer, and of the variable. -/
structure Attribute where
  reader : NameId
  writer : NameId
  slot : NameId

namespace Attribute

/-- The method that reads the variable. -/
def read (a : Attribute) : Method := .native a.reader (.exact 0) (.reader a.slot)

/-- The method that sets the variable. -/
def write (a : Attribute) : Method := .native a.writer (.exact 1) (.writer a.slot)

/-- Whether these are the names that a table has for the attribute of some text. -/
structure Named (a : Attribute) (names : NameTable) (text : String) : Prop where
  reader : names.find? text = some a.reader
  writer : names.find? (text ++ "=") = some a.writer
  slot : names.find? ("@" ++ text) = some a.slot

/-- Whether a text can be the name of an attribute that is assigned to under its name: it does not
end as the names of writers do, and it is not that of the elements of an array. -/
def IsName (text : String) : Prop := text.toList.getLast? ≠ some '=' ∧ text ≠ "[]"

instance (text : String) : Decidable (IsName text) := inferInstanceAs (Decidable (_ ∧ _))

/-- A plain name is no name with `=` behind it. -/
theorem IsName.ne_append {text : String} (h : IsName text) (other : String) :
    text ≠ other ++ "=" := by
  rintro rfl
  exact h.1 (by simp)

variable {a b : Attribute} {names names' : NameTable} {t u : String}

/-- The names of an attribute stay known. -/
theorem Named.grows (h : a.Named names t) (hg : names.Grows names') : a.Named names' t :=
  ⟨hg.find?_eq h.reader, hg.find?_eq h.writer, hg.find?_eq h.slot⟩

/-- The names of an attribute are told by its text. -/
theorem Named.unique (h : a.Named names t) (h' : b.Named names t) : b = a := by
  cases a
  cases b
  cases Option.some.inj (h.reader.symm.trans h'.reader)
  cases Option.some.inj (h.writer.symm.trans h'.writer)
  cases Option.some.inj (h.slot.symm.trans h'.slot)
  rfl

/-- Two texts that a table has in one place are the same. -/
theorem text_inj {x : NameId} (ht : names.find? t = some x) (hu : names.find? u = some x) : t = u :=
  (NameTable.text_of_find? ht).2.symm.trans (NameTable.text_of_find? hu).2

end Attribute

/-- Whether a value tells a name: a symbol of that name, or a string that says it. -/
def Machine.Spells (m : Machine) : Value → String → Prop
  | .sym x, text => m.names.Has x ∧ m.names.text x = text
  | v, text => m.heap.text? v = some text

section Names

variable {m : Machine} {v : Value} {text : String} {I : Invoke}

/-- A value that tells a name is taken for it. -/
theorem Run.expectName_of_spells (sound : m.names.Sound) (h : m.Spells v text) :
    ∃ x names, expectName I v m = .done x { m with names := names } ∧ m.names.Grows names ∧
      names.find? text = some x := by
  cases v with
  | sym x =>
      obtain ⟨there, rfl⟩ := h
      exact ⟨x, m.names, rfl, .refl, sound.find?_of_text there⟩
  | str id =>
      obtain rfl := Option.some.inj h
      exact ⟨_, _, rfl, .intern .refl _, NameTable.find?_intern_self _ _⟩
  | _ => cases h

/-- If the name is known, nothing changes. -/
theorem Run.expectName_of_known (h : m.Spells v text) (sound : m.names.Sound) {x : NameId}
    (known : m.names.find? text = some x) : expectName I v m = .done x m := by
  cases v with
  | sym y =>
      obtain ⟨there, rfl⟩ := h
      cases (sound.find?_of_text there).symm.trans known
      rfl
  | str id =>
      obtain rfl := Option.some.inj h
      show Run.intern _ m = _
      simp only [intern, Action.transform, NameTable.intern_of_find? known]
  | _ => cases h

end Names

/-! ### Defining attributes -/

/-- A class has the reader and the writer of an attribute. -/
structure Machine.Defines (m : Machine) (c : ClassId) (text : String) (a : Attribute) : Prop where
  named : a.Named m.names text
  reads : m.classes.own? c a.reader = some a.read
  writes : m.classes.own? c a.writer = some a.write

/-- A class that is given a method has this one under its name, and the others as before. -/
theorem ClassTable.own?_addMethod_iff {t : ClassTable} {c : ClassId} (hc : c.index < t.classes.size)
    (method : Method) (x : NameId) : (t.addMethod c method).own? c x =
      if method.name = x then some method else t.own? c x := by
  split
  · rename_i same
    rw [← same, own?_addMethod hc]
  · rename_i other
    exact own?_apply_of_not_at (e := .addMethod c method) fun at_ => other at_.2

namespace ClassOp

variable {m : Machine} {c : ClassId} {v : Value} {I : Invoke} {text other : String}
  {a b : Attribute}

/-- Define a reader and a writer for one name. -/
def accessor (invoke : Invoke) (c : ClassId) (v : Value) : Run (List Value) := do
  let name ← Run.expectName invoke v
  let text ← Action.view fun m => m.names.text name
  let variableName ← Run.intern ("@" ++ text)
  Run.updateClasses fun t => t.addMethod c (.native name (.exact 0) (.reader variableName))
  let setter ← Run.intern (text ++ "=")
  Run.updateClasses fun t => t.addMethod c (.native setter (.exact 1) (.writer variableName))
  pure [Value.sym name, .sym setter]

/-- Defining accessors is defining one after the other, and answering their names. -/
theorem defineAccessors_eq (invoke : Invoke) (c : ClassId) (args : List Value) :
    defineAccessors invoke true true c args = (do
      let defined ← Action.each (accessor invoke c) args
      Run.newArray defined.flatten.toArray) := rfl

/-- **One attribute is defined**: the names that it needs are known, and the class has both methods,
whatever it had under their names. -/
theorem accessor_done (sound : m.names.Sound) (spelled : m.Spells v text) :
    ∃ (a : Attribute) (vs : List Value) (names : NameTable), accessor I c v m = .done vs
        { m with
          names := names
          classes := (m.classes.addMethod c a.read).addMethod c a.write } ∧
      m.names.Grows names ∧ a.Named names text := by
  obtain ⟨x, names₁, taken, grows₁, reader⟩ := Run.expectName_of_spells (I := I) sound spelled
  have sound₁ := grows₁.sound sound
  have text_eq : names₁.text x = text := (NameTable.text_of_find? reader).2
  let slot := names₁.intern ("@" ++ text)
  let writer := slot.2.intern (text ++ "=")
  have grows₂ : names₁.Grows slot.2 := .intern .refl _
  have grows₃ : slot.2.Grows writer.2 := .intern .refl _
  have named : Attribute.Named ⟨x, writer.1, slot.1⟩ writer.2 text :=
    ⟨grows₃.find?_eq (grows₂.find?_eq reader), NameTable.find?_intern_self _ _,
      grows₃.find?_eq (NameTable.find?_intern_self _ _)⟩
  refine ⟨⟨x, writer.1, slot.1⟩, [.sym x, .sym writer.1], writer.2, ?_,
    grows₁.trans (grows₂.trans grows₃), named⟩
  refine (bind_of_done taken).trans ?_
  show _ = Outcome.done _ _
  subst text_eq
  rfl

/-- To define an attribute leaves every other one that the class has as it is, and the one of that
name, too: none of their methods has the name of another one's. -/
theorem defines_step {names : NameTable} (hc : c.index < m.classes.classes.size)
    (grows : m.names.Grows names) (named : a.Named names text) (plain : Attribute.IsName text)
    (plain' : Attribute.IsName other) (h : m.Defines c other b) :
    Machine.Defines { m with
      names := names
      classes := (m.classes.addMethod c a.read).addMethod c a.write } c other b := by
  have named' := h.named.grows grows
  have hc' : c.index < (m.classes.addMethod c a.read).classes.size := by
    rwa [ClassTable.addMethod, ClassTable.size_modify]
  have same (e : text = other) : a = b := by
    subst e
    exact named'.unique named
  have reader_ne_writer {t u : String} {p q : Attribute} (hp : p.Named names t)
      (hq : q.Named names u) (ht : Attribute.IsName t) : p.reader ≠ q.writer := fun e =>
    ht.ne_append u (Attribute.text_inj hp.reader (e ▸ hq.writer))
  refine ⟨named', ?_, ?_⟩
  · show ((m.classes.addMethod c a.read).addMethod c a.write).own? c b.reader = _
    rw [ClassTable.own?_addMethod_iff hc', ClassTable.own?_addMethod_iff hc, h.reads,
      if_neg (show a.write.name ≠ _ from (reader_ne_writer named' named plain').symm)]
    split
    · rename_i e
      have texts := Attribute.text_inj named.reader
        ((show a.reader = b.reader from e) ▸ named'.reader)
      rw [same texts]
    · rfl
  · show ((m.classes.addMethod c a.read).addMethod c a.write).own? c b.writer = _
    rw [ClassTable.own?_addMethod_iff hc', ClassTable.own?_addMethod_iff hc, h.writes,
      if_neg (show a.read.name ≠ _ from reader_ne_writer named named' plain)]
    split
    · rename_i e
      have texts := Attribute.text_inj named.writer
        ((show a.writer = b.writer from e) ▸ named'.writer)
      rw [same ((String.append_left_inj "=").mp texts)]
    · rfl

/-- The class has the attribute that has just been defined. -/
theorem defines_accessor {names : NameTable} (hc : c.index < m.classes.classes.size)
    (named : a.Named names text) (plain : Attribute.IsName text) :
    Machine.Defines { m with
      names := names
      classes := (m.classes.addMethod c a.read).addMethod c a.write } c text a := by
  have hc' : c.index < (m.classes.addMethod c a.read).classes.size := by
    rwa [ClassTable.addMethod, ClassTable.size_modify]
  refine ⟨named, ?_, ClassTable.own?_addMethod hc' a.write⟩
  show ((m.classes.addMethod c a.read).addMethod c a.write).own? c a.reader = _
  rw [ClassTable.own?_addMethod_iff hc', if_neg, ClassTable.own?_addMethod_iff hc, if_pos]
  · rfl
  · intro e
    exact plain.ne_append text
      (Attribute.text_inj named.reader ((show a.writer = a.reader from e) ▸ named.writer))

/-- **All attributes are defined**, one after the other, and no one in the way of another one. -/
theorem each_accessor {args : List Value} {ts : List String} (hc : c.index < m.classes.classes.size)
    (sound : m.names.Sound) (spelled : List.Forall₂ m.Spells args ts)
    (plain : ∀ t ∈ ts, Attribute.IsName t) :
    ∃ vss m', Action.each (accessor I c) args m = .done vss m' ∧ m.Evolves m' ∧
      m'.heap = m.heap ∧ (∀ t ∈ ts, ∃ a, m'.Defines c t a) ∧
      ∀ t a, Attribute.IsName t → m.Defines c t a → m'.Defines c t a := by
  induction args generalizing m ts with
  | nil =>
      cases spelled
      exact ⟨[], m, rfl, .refl m, rfl, nofun, fun _ _ _ => id⟩
  | cons v args ih =>
      cases spelled with
      | @cons _ t _ ts first rest =>
      obtain ⟨a, vs, names, done, grows, named⟩ := accessor_done (I := I) (c := c) sound first
      let m₁ : Machine := { m with
        names := names
        classes := (m.classes.addMethod c a.read).addMethod c a.write }
      have evolves : m.Evolves m₁ :=
        ⟨grows, .edit (.edit .refl (.addMethod c a.read) trivial) (.addMethod c a.write) trivial,
          .refl _, fun _ => id, rfl⟩
      have spelled₁ : List.Forall₂ m₁.Spells args ts := by
        refine rest.imp fun v t h => ?_
        cases v with
        | sym x => exact ⟨grows.toExtends.has h.1, (grows.toExtends.text_eq x h.1).trans h.2⟩
        | _ => exact h
      have hc₁ : c.index < m₁.classes.classes.size :=
        Nat.lt_of_lt_of_le hc (by simp [m₁, ClassTable.addMethod])
      have here := List.forall_mem_cons.mp plain
      obtain ⟨vss, m', all, evolves', heap, defined, kept⟩ :=
        ih hc₁ (grows.sound sound) spelled₁ here.2
      refine ⟨vs :: vss, m', ?_, evolves.trans evolves', heap, ?_, fun u b plain' h => ?_⟩
      · rw [Action.each_cons]
        exact (bind_of_done done).trans ((bind_of_done all).trans rfl)
      · exact List.forall_mem_cons.mpr
          ⟨⟨a, kept t a here.1 (defines_accessor hc named here.1)⟩, defined⟩
      · exact kept u b plain' (defines_step hc grows named here.1 plain' h)

/-- **What defining attributes leaves in the class**: a reader and a writer for each of them. -/
theorem defines_accessors {args : List Value} {ts : List String}
    (hc : c.index < m.classes.classes.size) (sound : m.names.Sound)
    (spelled : List.Forall₂ m.Spells args ts) (plain : ∀ t ∈ ts, Attribute.IsName t) :
    ∃ r m', ClassOp.run I .accessors (.cls c) args m = .done r m' ∧ m.Evolves m' ∧
      m'.heap.objects = m.heap.objects ∧ ∀ t ∈ ts, ∃ a, m'.Defines c t a := by
  obtain ⟨vss, m₁, all, evolves, heap, defined, -⟩ :=
    each_accessor (I := I) hc sound spelled plain
  have runs : defineAccessors I true true c args m = _ :=
    (congrFun (defineAccessors_eq I c args) m).trans (bind_of_done all)
  refine ⟨_, _, runs.trans rfl, evolves.trans (.withHeap (.newArray _ _ _)), ?_, fun t ht => ?_⟩
  · rw [← heap]
    rfl
  · obtain ⟨a, here⟩ := defined t ht
    exact ⟨a, here.named, here.reads, here.writes⟩

end ClassOp

/-! ### One access -/

/-- The machine with an instance variable of an object set. -/
def Machine.withVariable (m : Machine) (o : ObjectId) (slot : NameId) (v : Value) : Machine :=
  { m with heap := m.heap.setVariable o slot v }

namespace Heap

variable {h : Heap} {o o' : ObjectId} {slot slot' : NameId} {v : Value}

/-- Setting a variable of one object leaves the others alone. -/
theorem object_setVariable_of_ne (h : Heap) (other : o' ≠ o) :
    (h.setVariable o slot v).object o' = h.object o' := by
  have apart : o.index ≠ o'.index := fun e => other (by cases o; cases o'; exact congrArg _ e.symm)
  simp only [object, setVariable, Array.getElem?_modify, if_neg apart]

/-- The object itself has the variable bound and nothing else changed. -/
theorem object_setVariable_self (there : o.index < h.objects.size) :
    (h.setVariable o slot v).object o =
      { h.object o with ivars := (h.object o).ivars.insert slot v } := by
  simp only [object, setVariable, Array.getElem?_modify, if_pos, Array.getElem?_eq_getElem there,
    Option.map_some, Option.getD_some]

/-- Setting a variable of an object changes this variable only. -/
theorem ivar?_setVariable (there : o.index < h.objects.size) :
    (h.setVariable o slot v).ivar? o' slot' =
      if o = o' ∧ slot = slot' then some v else h.ivar? o' slot' := by
  by_cases here : o' = o
  · subst here
    rw [ivar?, object_setVariable_self there, Bindings.get?_insert]
    simp [ivar?]
  · rw [ivar?, object_setVariable_of_ne h here, if_neg fun both => here both.1.symm]
    rfl

end Heap

/-- A value has an attribute: its class is the one that defines it, or is below this one and no
class in between has a method of either name.  Nor has the value itself, if it is a class. -/
structure Machine.Offers (m : Machine) (w : Value) (c : ClassId) (text : String)
    (a : Attribute) : Prop where
  lives : w.Lives m
  defines : m.Defines c text a
  nearest : ∃ k nearer further, m.classOf w = .ok k ∧
    m.classes.ancestors k = nearer ++ c :: further ∧
    ∀ k ∈ nearer, m.classes.own? k a.reader = none ∧ m.classes.own? k a.writer = none
  bare : ∀ k, w = .cls k → ∀ x ∈ [a.reader, a.writer], m.classes.findClassMethod? k x = none

/-- What an instance variable of an object holds; `nil` if it was never set. -/
def Machine.variable (m : Machine) (o : ObjectId) (slot : NameId) : Value :=
  (m.heap.ivar? o slot).getD .nil

/-- What the variable for an attribute of an object holds, if it was set. -/
def Machine.attribute? (m : Machine) (o : ObjectId) (text : String) : Option Value :=
  (m.names.find? ("@" ++ text)).bind fun slot => m.heap.ivar? o slot

/-- The attribute of an object is the variable with the text of its name. -/
theorem Attribute.Named.attribute?_eq {m : Machine} {a : Attribute} {text : String}
    (h : a.Named m.names text) (o : ObjectId) : m.attribute? o text = m.heap.ivar? o a.slot := by
  rw [Machine.attribute?, h.slot, Option.bind_some]

section Access

variable {env : Env} {place place' : Span} {recv value : Node} {m m₁ m₂ m₃ : Machine} {o : ObjectId}
  {c : ClassId} {t : String} {a : Attribute} {v : Value}

/-- Placing an outcome places its failure. -/
theorem Run.located_of {α : Type} {x : Run α} {r : Except Failure α} (h : x m = .of r m₁) :
    Run.located place x m = .of (r.mapError (Failure.locate place)) m₁ := by
  rw [Run.located, Action.mapError, h]
  cases r <;> rfl

/-- A message without arguments: the receiver, then the call. -/
theorem evaluates_send {r : Except Failure Value} {x : NameId}
    (receiver : Evaluates env recv m (.ok v) m₁)
    (sends : Run.send carryOut.invoke v x [] m₁ = .of r m₂) :
    Evaluates env (.send place (some recv) x []) m (r.mapError (Failure.locate place)) m₂ :=
  evaluates_iff_step.mpr ⟨0, (bind_of_done (evaluates_iff_carryOut.mp receiver)).trans
    (Run.located_of sends)⟩

/-- An assignment to what a message reads: the value, then the receiver, then the call of the method
that has the name with an equals sign. -/
theorem evaluates_assign {r : Except Failure Value} {w : Value} {x y : NameId}
    (given : Evaluates env value m (.ok v) m₁) (receiver : Evaluates env recv m₁ (.ok w) m₂)
    (other : x ≠ .subscript) (setter : m₂.names.find? (m₂.names.text x ++ "=") = some y)
    (sends : Run.send carryOut.invoke w y [v] m₂ = .of r m₃) :
    Evaluates env (.assign place (.send place' (some recv) x []) value) m
      ((r.mapError (Failure.locate place')).map fun _ => v) m₃ := by
  refine evaluates_iff_step.mpr ⟨0, (bind_of_done (evaluates_iff_carryOut.mp given)).trans ?_⟩
  refine (bind_of_done (evaluates_iff_carryOut.mp receiver)).trans ?_
  have setting : Perform.setterOf x m₂ = .done y m₂ := by
    unfold Perform.setterOf
    rw [if_neg other]
    show Run.intern (m₂.names.text x ++ "=") m₂ = _
    simp only [Run.intern, Action.transform, NameTable.intern_of_find? setter]
  refine (bind_of_done setting).trans ?_
  have sent : Run.located place' (Run.send carryOut.invoke w y ([].reverse ++ [v])) m₂ = _ :=
    Run.located_of sends
  rw [Action.bind_eq_andThen, sent]
  cases r <;> rfl

/-- A native method that makes no calls is carried out as it runs. -/
theorem carryOut_native {name : NameId} {arity : Arity} {op : Native} {args : List Value}
    {r : Except Failure Value} (accepts : arity.accepts args.length = true)
    (room : m.depth < maxDepth)
    (runs : op.run 0 (Perform.invoke (perform 0)) v args { m with depth := m.depth + 1 } =
      .of r m₁) :
    carryOut.invoke (.native name arity op) v args m = .of r m₁.left := by
  have callable : (Method.native name arity op).Callable args m := ⟨accepts, room⟩
  have ends : perform 1 (.invoke (.native name arity op) v args) m = .of r m₁.left := by
    rw [perform_native callable, runs]
    cases r <;> rfl
  exact (perform_refines_carryOut 1 _ m (Outcome.ended_of ends)).trans ends

/-- **A call at the limit** is refused on the machine as it is, once its arguments are accepted. -/
theorem carryOut_too_deep {method : Method} {args : List Value}
    (accepts : method.arity.accepts args.length = true) (deep : maxDepth ≤ m.depth) :
    carryOut.invoke method v args m = .failed (.ofFault .tooDeep) m := by
  have fails : perform 1 (.invoke method v args) m = .failed (.ofFault .tooDeep) m :=
    Perform.call_of_too_deep _ accepts (Nat.not_lt.mpr deep)
  exact (perform_refines_carryOut 1 _ m (by rw [fails]; trivial)).trans fails

namespace Machine.Offers

variable {w : Value}

/-- What a class has of its own is found for the values that it offers attributes to. -/
theorem findMethod?_eq (h : m.Offers w c t a) {x : NameId} (hx : x ∈ [a.reader, a.writer])
    {method : Method} (own : m.classes.own? c x = some method) :
    m.findMethod? w x = .ok (some (method, c)) := by
  obtain ⟨k, nearer, further, cls, above, free⟩ := h.nearest
  have free' : ∀ k ∈ nearer, m.classes.own? k x = none := by
    intro k hk
    rcases List.mem_cons.mp hx with rfl | hx
    · exact (free k hk).1
    · cases List.mem_singleton.mp hx
      exact (free k hk).2
  have found : m.classes.findMethod? k x = some (method, c) :=
    ClassTable.findMethod?_eq_some.mpr ⟨⟨nearer, further, above, free'⟩, own⟩
  cases w with
  | cls l =>
      simp only [Machine.findMethod?, h.bare l rfl x hx, cls]
      exact congrArg Except.ok found
  | _ =>
      simp only [Machine.findMethod?, cls]
      exact congrArg Except.ok found

/-- The methods that are found for a value are those of the attribute. -/
theorem find_reader (h : m.Offers w c t a) :
    m.findMethod? w a.reader = .ok (some (a.read, c)) :=
  h.findMethod?_eq (.head _) h.defines.reads

/-- The writer is found. -/
theorem find_writer (h : m.Offers w c t a) :
    m.findMethod? w a.writer = .ok (some (a.write, c)) :=
  h.findMethod?_eq (.tail _ (.head _)) h.defines.writes

/-- The name of a reader is not `[]`, so assigning to it is no assignment to an element. -/
theorem reader_ne_subscript (h : m.Offers w c t a) (sound : m.names.Sound)
    (plain : Attribute.IsName t) : a.reader ≠ .subscript := by
  intro e
  have bracket : m.names.text .subscript = "[]" := sound.first.text_eq .subscript (by decide)
  have text := (NameTable.text_of_find? h.defines.named.reader).2
  exact plain.2 (text.symm.trans ((congrArg m.names.text e).trans bracket))

/-- The name of the setter is the name of the writer. -/
theorem find_setter (h : m.Offers w c t a) :
    m.names.find? (m.names.text a.reader ++ "=") = some a.writer := by
  rw [(NameTable.text_of_find? h.defines.named.reader).2]
  exact h.defines.named.writer

/-- The reader of a value answers what it reads, which is a variable only if the value has any. -/
theorem send_reader (h : m.Offers w c t a) (room : m.depth < maxDepth) {v : Value}
    (gets : ∀ m', m'.heap = m.heap → Run.getVariable w a.slot m' = .done v m') :
    Run.send carryOut.invoke w a.reader [] m = .done v m := by
  have called : carryOut.invoke a.read w [] m =
    .of (.ok v) ({ m with depth := m.depth + 1 } : Machine).left :=
      carryOut_native rfl room (gets _ rfl)
  exact (Run.send_of_found h.find_reader).trans called

/-- **Writing an attribute** of an object sets its variable and answers the value. -/
theorem send_writer (h : m.Offers (.obj o) c t a) (room : m.depth < maxDepth) (v : Value) :
    Run.send carryOut.invoke (.obj o) a.writer [v] m = .done v (m.withVariable o a.slot v) := by
  have called : carryOut.invoke a.write (.obj o) [v] m = .of (.ok v)
    ({ m with depth := m.depth + 1 }.withVariable o a.slot v).left := carryOut_native rfl room rfl
  exact (Run.send_of_found h.find_writer).trans called

/-- Writing one of a value without variables is refused. -/
theorem send_writer_of_plain (h : m.Offers w c t a) (room : m.depth < maxDepth)
    (plain : ∀ o, w ≠ .obj o) (v : Value) :
    Run.send carryOut.invoke w a.writer [v] m =
      .failed (.ofFault (.noVariables (m.describe w))) m := by
  have called : carryOut.invoke a.write w [v] m =
      .of (.error (.ofFault (.noVariables (m.describe w))))
        ({ m with depth := m.depth + 1 } : Machine).left := by
    refine carryOut_native rfl room ?_
    cases w with
    | obj o => exact absurd rfl (plain o)
    | _ => rfl
  exact (Run.send_of_found h.find_writer).trans called

/-- An assignment takes no attribute away. -/
theorem withVariable (h : m.Offers (.obj o) c t a) (o' : ObjectId) (slot : NameId) (v : Value) :
    (m.withVariable o' slot v).Offers (.obj o) c t a where
  lives := by simpa [Value.Lives, Machine.withVariable, Heap.setVariable] using h.lives
  defines := ⟨h.defines.named, h.defines.reads, h.defines.writes⟩
  nearest := by
    have cls : ((m.withVariable o' slot v).heap.object o).cls = (m.heap.object o).cls := by
      by_cases here : o = o'
      · subst here
        have cell : (m.heap.setVariable o slot v).object o = _ :=
          Heap.object_setVariable_self h.lives
        exact (congrArg ObjectCell.cls cell).trans rfl
      · exact congrArg ObjectCell.cls (m.heap.object_setVariable_of_ne here)
    obtain ⟨k, nearer, further, same, above⟩ := h.nearest
    exact ⟨k, nearer, further, (congrArg Except.ok cls).trans same, above⟩
  bare := nofun

end Machine.Offers

/-- What it is for an attribute of an object to act as a variable of the object: to be read and set
as this is, in whatever way its object and its new value are come by, and without anything else
being changed. -/
structure Machine.ActsAsVariable (m : Machine) (o : ObjectId) (t : String) (a : Attribute) :
    Prop where
  holds : m.attribute? o t = m.heap.ivar? o a.slot
  reads : ∀ {env place recv m₀}, Evaluates env recv m₀ (.ok (.obj o)) m →
    Evaluates env (.send place (some recv) a.reader []) m₀ (.ok (m.variable o a.slot)) m
  assigns : ∀ {env place place' value recv v m₀ m₁}, Evaluates env value m₀ (.ok v) m₁ →
    Evaluates env recv m₁ (.ok (.obj o)) m →
    Evaluates env (.assign place (.send place' (some recv) a.reader []) value) m₀ (.ok v)
      (m.withVariable o a.slot v)
  inside : ∀ scope place,
    Evaluates ⟨scope, .obj o⟩ (.instanceVar place a.slot) m (.ok (m.variable o a.slot)) m
  asked : ∀ fuel invoke v, m.Spells v ("@" ++ t) →
    (Native.object .variableGet).run fuel invoke (.obj o) [v] m = .done (m.variable o a.slot) m
  others : ∀ v o' slot', (m.withVariable o a.slot v).heap.ivar? o' slot' =
    if o = o' ∧ a.slot = slot' then some v else m.heap.ivar? o' slot'
  apart : ∀ v o', o' ≠ o → (m.withVariable o a.slot v).heap.object o' = m.heap.object o'

/-- **One access.**  An attribute that an object has acts as a variable, if a call may be made. -/
theorem Machine.Offers.actsAsVariable (h : m.Offers (.obj o) c t a) (sound : m.names.Sound)
    (plain : Attribute.IsName t) (room : m.depth < maxDepth) : m.ActsAsVariable o t a where
  holds := h.defines.named.attribute?_eq o
  reads receiver := evaluates_send receiver (r := .ok _) (h.send_reader room fun m' same => by
    rw [Run.getVariable, Action.view, same]
    rfl)
  assigns given receiver :=
    evaluates_assign given receiver (h.reader_ne_subscript sound plain) h.find_setter (r := .ok _)
      (h.send_writer room _)
  inside scope place := evaluates_iff_step.mpr ⟨0, rfl⟩
  asked fuel invoke v spelled := by
    refine (bind_of_done (?_ : ObjectOp.variableName invoke v m = .done a.slot m)).trans rfl
    refine (bind_of_done (Run.expectName_of_known spelled sound h.defines.named.slot)).trans ?_
    have text := (NameTable.text_of_find? h.defines.named.slot).2
    have sign : (m.names.text a.slot).startsWith "@" = true := by simp [text]
    show (if (m.names.text a.slot).startsWith "@" then pure a.slot
      else Run.fault (.badVariableName (m.names.text a.slot)) : Run NameId) m = _
    rw [if_pos sign]
    rfl
  others v o' slot' := Heap.ivar?_setVariable h.lives
  apart v o' other := m.heap.object_setVariable_of_ne other

/-- What it is for an attribute of a value that has no variables to act as if it had one that cannot
be set: it reads as `nil`, and to assign it fails and changes nothing. -/
structure Machine.LacksVariable (m : Machine) (w : Value) (a : Attribute) : Prop where
  reads : ∀ {env place recv m₀}, Evaluates env recv m₀ (.ok w) m →
    Evaluates env (.send place (some recv) a.reader []) m₀ (.ok .nil) m
  assigns : ∀ {env place place' value recv v m₀ m₁}, Evaluates env value m₀ (.ok v) m₁ →
    Evaluates env recv m₁ (.ok w) m →
    Evaluates env (.assign place (.send place' (some recv) a.reader []) value) m₀
      (.error ⟨.fault (.noVariables (m.describe w)), some place'⟩) m

/-- A value that is no object reads its attributes as `nil` and refuses to have them written. -/
theorem Machine.Offers.lacksVariable {w : Value} (h : m.Offers w c t a) (sound : m.names.Sound)
    (plain : Attribute.IsName t) (other : ∀ o, w ≠ .obj o) (room : m.depth < maxDepth) :
    m.LacksVariable w a where
  reads receiver := evaluates_send receiver (r := .ok _) (h.send_reader room fun m' _ => by
    cases w with
    | obj o => exact absurd rfl (other o)
    | _ => rfl)
  assigns given receiver := evaluates_assign given receiver (h.reader_ne_subscript sound plain)
    h.find_setter (r := .error _) (h.send_writer_of_plain room other _)

/-- What it is for an attribute of a value to be out of reach: to read or to set it fails for calls
that are nested too deeply, and changes nothing. -/
structure Machine.RefusesAccess (m : Machine) (w : Value) (a : Attribute) : Prop where
  reads : ∀ {env place recv m₀}, Evaluates env recv m₀ (.ok w) m →
    Evaluates env (.send place (some recv) a.reader []) m₀ (.error ⟨.fault .tooDeep, some place⟩) m
  assigns : ∀ {env place place' value recv v m₀ m₁}, Evaluates env value m₀ (.ok v) m₁ →
    Evaluates env recv m₁ (.ok w) m →
    Evaluates env (.assign place (.send place' (some recv) a.reader []) value) m₀
      (.error ⟨.fault .tooDeep, some place'⟩) m

/-- At the limit every access is refused, reading as well as writing. -/
theorem Machine.Offers.refusesAccess {w : Value} (h : m.Offers w c t a) (sound : m.names.Sound)
    (plain : Attribute.IsName t) (deep : maxDepth ≤ m.depth) : m.RefusesAccess w a where
  reads receiver := evaluates_send receiver (r := .error _)
    ((Run.send_of_found h.find_reader).trans (carryOut_too_deep rfl deep))
  assigns given receiver := evaluates_assign given receiver (h.reader_ne_subscript sound plain)
    h.find_setter (r := .error _)
    ((Run.send_of_found h.find_writer).trans (carryOut_too_deep rfl deep))

end Access

/-! ### Rows of accesses -/

/-- An access to an attribute of an object, with what it was answered. -/
inductive Access where
  | assigned (o : ObjectId) (text : String) (v answer : Value)
  | read (o : ObjectId) (text : String) (answer : Value)

namespace Access

/-- What was assigned last to an attribute of an object; the latest access stands first. -/
def written (o : ObjectId) (text : String) : List Access → Option Value
  | [] => none
  | .assigned o' text' v _ :: as => if o' = o ∧ text' = text then some v else written o text as
  | .read _ _ _ :: as => written o text as

/-- Whether every access was answered as by a variable: an assignment by the value that was
assigned, and a reading by the value that was assigned last, or by what was there before. -/
def Answered (before : ObjectId → String → Option Value) : List Access → Prop
  | [] => True
  | .assigned _ _ v answer :: as => answer = v ∧ Answered before as
  | .read o text answer :: as =>
    answer = ((written o text as).or (before o text)).getD .nil ∧ Answered before as

end Access

/-- Whether one machine leads to another one without the variables for some attributes being
touched, whatever else is done. -/
structure Machine.Spares (m : Machine) (ts : List String) (m' : Machine) : Prop where
  names : m.names.Grows m'.names
  same : ∀ t ∈ ts, ∀ o, m'.attribute? o t = m.attribute? o t

/-- A row of accesses to attributes that a class has, the latest one first, which leads from one
machine to another one.  What is done in between them, and to come by their objects and values, may
be anything that does not touch the attributes but by accesses of the row, as long as they are not
defined anew. -/
inductive Accesses (c : ClassId) (ts : List String) (m : Machine) :
    List Access → Machine → Prop where
  | start : Accesses c ts m [] m
  | other {as : List Access} {m₁ m₂ : Machine} (before : Accesses c ts m as m₁)
      (spares : m₁.Spares ts m₂) : Accesses c ts m as m₂
  | assign {as : List Access} {m₁ m₂ m₃ m₄ : Machine} {env : Env} {place place' : Span}
      {recv value : Node} {o : ObjectId} {t : String} {a : Attribute} {v w : Value} (ht : t ∈ ts)
      (given : Evaluates env value m₁ (.ok v) m₂)
      (receiver : Evaluates env recv m₂ (.ok (.obj o)) m₃)
      (before : Accesses c ts m as m₃) (offers : m₃.Offers (.obj o) c t a)
      (answers : Evaluates env (.assign place (.send place' (some recv) a.reader []) value) m₁
        (.ok w) m₄) : Accesses c ts m (.assigned o t v w :: as) m₄
  | read {as : List Access} {m₁ m₂ m₃ : Machine} {env : Env} {place : Span} {recv : Node}
      {o : ObjectId} {t : String} {a : Attribute} {w : Value} (ht : t ∈ ts)
      (receiver : Evaluates env recv m₁ (.ok (.obj o)) m₂) (before : Accesses c ts m as m₂)
      (offers : m₂.Offers (.obj o) c t a)
      (answers : Evaluates env (.send place (some recv) a.reader []) m₁ (.ok w) m₃) :
      Accesses c ts m (.read o t w :: as) m₃

section Rows

variable {m m' : Machine} {c : ClassId} {ts : List String} {as : List Access}

/-- To set the variable for an attribute changes what this attribute of this object is, and no other
one. -/
theorem Machine.Offers.attribute?_withVariable {o : ObjectId} {t : String} {a : Attribute}
    (h : m.Offers (.obj o) c t a) (v : Value) (o' : ObjectId) (t' : String) :
    (m.withVariable o a.slot v).attribute? o' t' =
      if o = o' ∧ t = t' then some v else m.attribute? o' t' := by
  show (m.names.find? ("@" ++ t')).bind
    (fun slot => (m.heap.setVariable o a.slot v).ivar? o' slot) = _
  unfold Machine.attribute?
  cases found : m.names.find? ("@" ++ t') with
  | none =>
      rw [if_neg]
      · rfl
      · rintro ⟨-, rfl⟩
        cases found.symm.trans h.defines.named.slot
  | some slot' =>
      have same : a.slot = slot' ↔ t = t' := by
        constructor
        · rintro rfl
          exact (String.append_right_inj "@").mp (Attribute.text_inj h.defines.named.slot found)
        · rintro rfl
          exact Option.some.inj (h.defines.named.slot.symm.trans found)
      rw [Option.bind_some, Option.bind_some, Heap.ivar?_setVariable h.lives]
      simp only [same]

/-- **What is read** after a row of accesses is what was assigned last. -/
theorem Accesses.remembers (h : Accesses c ts m as m') (sound : m.names.Sound)
    (plain : ∀ t ∈ ts, Attribute.IsName t) :
    m.names.Grows m'.names ∧ Access.Answered m.attribute? as ∧ ∀ t ∈ ts, ∀ o,
      m'.attribute? o t = (Access.written o t as).or (m.attribute? o t) := by
  induction h with
  | start => exact ⟨.refl, trivial, fun _ _ _ => rfl⟩
  | other before spares ih =>
      obtain ⟨grows, answered, held⟩ := ih
      exact ⟨grows.trans spares.names, answered,
        fun t ht o => (spares.same t ht o).trans (held t ht o)⟩
  | @assign as m₁ m₂ m₃ m₄ env place place' recv value o t a v w ht given receiver before offers
      answers ih =>
      obtain ⟨grows, answered, held⟩ := ih
      have sound₃ := grows.sound sound
      rcases Nat.lt_or_ge m₃.depth maxDepth with room | deep
      · have acts := offers.actsAsVariable sound₃ (plain t ht) room
        obtain ⟨same, rfl⟩ := answers.unique (acts.assigns given receiver)
        refine ⟨grows, ⟨(Except.ok.inj same).symm, answered⟩, fun t' ht' o' => ?_⟩
        rw [offers.attribute?_withVariable, Access.written, held t' ht' o']
        split <;> rfl
      · have refuses := offers.refusesAccess sound₃ (plain t ht) deep
        obtain ⟨failed, -⟩ := answers.unique (refuses.assigns given receiver)
        cases failed
  | @read as m₁ m₂ m₃ env place recv o t a w ht receiver before offers answers ih =>
      obtain ⟨grows, answered, held⟩ := ih
      have sound₂ := grows.sound sound
      rcases Nat.lt_or_ge m₂.depth maxDepth with room | deep
      · have acts := offers.actsAsVariable sound₂ (plain t ht) room
        obtain ⟨same, rfl⟩ := answers.unique (acts.reads receiver)
        refine ⟨grows, ⟨?_, answered⟩, held⟩
        rw [← Except.ok.inj same, Machine.variable, ← acts.holds, held t ht o]
      · have refuses := offers.refusesAccess sound₂ (plain t ht) deep
        obtain ⟨failed, -⟩ := answers.unique (refuses.reads receiver)
        cases failed

end Rows

/-- An attribute stays defined as long as its methods stay. -/
theorem Machine.Defines.stays {m m' : Machine} {c : ClassId} {t : String} {a : Attribute}
    (h : m.Defines c t a) (grows : m.names.Grows m'.names)
    (kept : ∀ x ∈ [a.reader, a.writer], m'.classes.own? c x = m.classes.own? c x) :
    m'.Defines c t a where
  named := h.named.grows grows
  reads := (kept _ (.head _)).trans h.reads
  writes := (kept _ (.tail _ (.head _))).trans h.writes

/-- **Attributes are variables of objects.**  To define attributes for a class, given by their names
as symbols or strings, which do not end in an equals sign, gives it the methods for each of them.
These are there on every later machine where neither name has been defined anew in the class, and an
instance of this class or of one below it has the attribute there, unless a class in between has
such a method of its own.  If a call may be made, then the attribute of an object acts as a
variable, and that of a value without variables as one that is `nil` and cannot be set; if not, it
is refused.  In any row of accesses to objects an assignment is answered by the value that is
assigned, a reading by the value that was assigned last to this attribute of this object, and the
variable holds it, too. -/
theorem attributes_are_variables {m₀ : Machine} {c : ClassId} {args : List Value} {ts : List String}
    (there : c.index < m₀.classes.classes.size) (sound : m₀.names.Sound)
    (spelled : List.Forall₂ m₀.Spells args ts) (plain : ∀ t ∈ ts, Attribute.IsName t)
    (fuel : Nat) (I : Invoke) :
    ∃ r m₁, (Native.cls .accessors).run fuel I (.cls c) args m₀ = .done r m₁ ∧
      m₀.Evolves m₁ ∧ m₁.heap.objects = m₀.heap.objects ∧
      (∀ t ∈ ts, ∃ a, m₁.Defines c t a ∧ ∀ m : Machine, m₁.names.Grows m.names →
        (∀ x ∈ [a.reader, a.writer], m.classes.own? c x = m₁.classes.own? c x) →
        m.Defines c t a) ∧
      ∀ m : Machine, m₁.names.Grows m.names →
        (∀ t ∈ ts, ∀ w a, m.Offers w c t a →
          (m.depth < maxDepth → (∀ o, w = .obj o → m.ActsAsVariable o t a) ∧
            ((∀ o, w ≠ .obj o) → m.LacksVariable w a)) ∧
          (maxDepth ≤ m.depth → m.RefusesAccess w a)) ∧
        ∀ as m', Accesses c ts m as m' → Access.Answered m.attribute? as ∧
          ∀ t ∈ ts, ∀ o, m'.attribute? o t = (Access.written o t as).or (m.attribute? o t) := by
  obtain ⟨r, m₁, runs, evolves, objects, defined⟩ :=
    ClassOp.defines_accessors (I := I) there sound spelled plain
  refine ⟨r, m₁, runs, evolves, objects, fun t ht => ?_, fun m later => ?_⟩
  · obtain ⟨a, defines⟩ := defined t ht
    exact ⟨a, defines, fun m => defines.stays⟩
  · have sound' := (evolves.names.trans later).sound sound
    refine ⟨fun t ht w a offers => ⟨fun room => ⟨?_, fun other =>
      offers.lacksVariable sound' (plain t ht) other room⟩,
      offers.refusesAccess sound' (plain t ht)⟩, fun as m' row => (row.remembers sound' plain).2⟩
    rintro o rfl
    exact offers.actsAsVariable sound' (plain t ht) room

/-- Of two attributes of the main object one is assigned twice, and then both are read. -/
theorem attributes_are_variables_twice :
    let m₀ : Machine := { Machine.bare (.collecting "") with
      names := ((NameTable.initial.intern "x").2.intern "y").2 }
    let args := [Value.sym ⟨12⟩, .sym ⟨13⟩]
    ClassId.object.index < m₀.classes.classes.size ∧ m₀.names.Sound ∧
    List.Forall₂ m₀.Spells args ["x", "y"] ∧ (∀ t ∈ ["x", "y"], Attribute.IsName t) ∧
    ∃ r m₁ m', (Native.cls .accessors).run 0 (fun _ _ _ => Action.exhaust) (.cls .object) args m₀ =
        .done r m₁ ∧
      Accesses .object ["x", "y"] m₁ [.read ⟨0⟩ "y" .nil, .read ⟨0⟩ "x" (.int 2),
        .assigned ⟨0⟩ "x" (.int 2) (.int 2), .assigned ⟨0⟩ "x" (.int 1) (.int 1)] m' ∧
      m'.attribute? ⟨0⟩ "x" = some (.int 2) := by
  intro m₀ args
  have there : ClassId.object.index < m₀.classes.classes.size := by decide +kernel
  have sound : m₀.names.Sound := (NameTable.sound_initial.intern "x").intern "y"
  have spelled : List.Forall₂ m₀.Spells args ["x", "y"] := by
    refine .cons ?_ (.cons ?_ .nil) <;> exact ⟨by decide +kernel, by decide +kernel⟩
  have plain : ∀ t ∈ ["x", "y"], Attribute.IsName t := by decide
  have shallow : ((Native.cls .accessors).run 0 (fun _ _ _ => Action.exhaust) (.cls .object) args
      m₀).DoneWith fun _ m₁ => m₁.depth < maxDepth := by
    decide +kernel
  obtain ⟨r, m₁, runs, -, objects, defined, later⟩ :=
    attributes_are_variables there sound spelled plain 0 fun _ _ _ => Action.exhaust
  have room : m₁.depth < maxDepth := by rwa [runs] at shallow
  have main : m₁.heap.object ⟨0⟩ = ⟨.object, .empty⟩ := by
    rw [Heap.object, objects]
    rfl
  have lives : (Value.obj ⟨0⟩).Lives m₁ := by
    show 0 < m₁.heap.objects.size
    rw [objects]
    decide +kernel
  have offers {t : String} {a : Attribute} (h : m₁.Defines .object t a) :
      m₁.Offers (.obj ⟨0⟩) .object t a :=
    ⟨lives, h, ⟨.object, [], _, congrArg (Except.ok ∘ ObjectCell.cls) main, rfl, nofun⟩, nofun⟩
  obtain ⟨a, x, -⟩ := defined "x" (.head _)
  obtain ⟨b, y, -⟩ := defined "y" (.tail _ (.head _))
  -- Where the nodes stand does not matter.
  let p : Span := ⟨0, 0⟩
  have self (m : Machine) : Evaluates .top (.self p) m (.ok (.obj ⟨0⟩)) m := ⟨1, rfl⟩
  have int (i : Int64) (m : Machine) : Evaluates .top (.int p i) m (.ok (.int i)) m := ⟨1, rfl⟩
  let m₂ := m₁.withVariable ⟨0⟩ a.slot (.int 1)
  let m₃ := m₂.withVariable ⟨0⟩ a.slot (.int 2)
  have assigns : Evaluates .top (.assign p (.send p (some (.self p)) a.reader []) (.int p 1)) m₁
      (.ok (.int 1)) m₂ :=
    ((((later m₁ .refl).1 "x" (.head _) _ a (offers x)).1 room).1 _ rfl).assigns (int 1 m₁)
      (self m₁)
  have x₂ := (offers x).withVariable ⟨0⟩ a.slot (.int 1)
  have again : Evaluates .top (.assign p (.send p (some (.self p)) a.reader []) (.int p 2)) m₂
      (.ok (.int 2)) m₃ :=
    ((((later m₂ .refl).1 "x" (.head _) _ a x₂).1 room).1 _ rfl).assigns (int 2 m₂)
      (self m₂)
  have x₃ := x₂.withVariable ⟨0⟩ a.slot (.int 2)
  have y₃ := ((offers y).withVariable ⟨0⟩ a.slot (.int 1)).withVariable ⟨0⟩ a.slot (.int 2)
  have acts := (later m₃ .refl).1
  have reads_x : Evaluates .top (.send p (some (.self p)) a.reader []) m₃
      (.ok (m₃.variable ⟨0⟩ a.slot)) m₃ :=
    (((acts "x" (.head _) _ a x₃).1 room).1 _ rfl).reads (self m₃)
  have reads_y : Evaluates .top (.send p (some (.self p)) b.reader []) m₃
      (.ok (m₃.variable ⟨0⟩ b.slot)) m₃ :=
    (((acts "y" (.tail _ (.head _)) _ b y₃).1 room).1 _ rfl).reads (self m₃)
  have row : Accesses .object ["x", "y"] m₁ [.read ⟨0⟩ "y" (m₃.variable ⟨0⟩ b.slot),
      .read ⟨0⟩ "x" (m₃.variable ⟨0⟩ a.slot), .assigned ⟨0⟩ "x" (.int 2) (.int 2),
      .assigned ⟨0⟩ "x" (.int 1) (.int 1)] m₃ :=
    .read (.tail _ (.head _)) (self m₃) (.read (.head _) (self m₃) (.assign (.head _) (int 2 m₂)
      (self m₂) (.assign (.head _) (int 1 m₁) (self m₁) .start (offers x) assigns) x₂ again) x₃
      reads_x) y₃ reads_y
  obtain ⟨⟨ys, xs, -⟩, held⟩ := (later m₁ .refl).2 _ _ row
  have unset : m₁.attribute? ⟨0⟩ "y" = none := by
    rw [y.named.attribute?_eq, Heap.ivar?, main]
    rfl
  rw [ys, xs, unset] at row
  exact ⟨there, sound, spelled, plain, r, m₁, m₃, runs, row, (held "x" (.head _) ⟨0⟩).trans rfl⟩

/-- Numbers are objects below the class of all objects, but have no instance variables: where that
class has an attribute, to assign it to a number fails.  And where no call may be made, to read it
fails even for an object that has variables. -/
theorem integers_refuse_attributes :
    let m := (Machine.bare (.collecting "")).install
      ⟨.classes, "attr_accessor", .atLeast 0, .cls .accessors⟩
    m.classes.payload .object = .ivars ∧ m.classes.isSubclass .integer .object = true ∧
    (∃ place? m', Session.run "" "class Object\nattr_accessor :x\nend\n5.x = 1" m =
      .failed (.failed ⟨.fault (.noVariables "an instance of Integer"), place?⟩) m') ∧
    ∃ v m₁ x place? m', Session.run "" "class Object\nattr_accessor :x\nend" m = .done v m₁ ∧
      m₁.names.find? "x" = some x ∧
      perform 3 (.eval (.send ⟨0, 0⟩ (some (.self ⟨0, 0⟩)) x []) .top)
        { m₁ with depth := maxDepth } = .failed ⟨.fault .tooDeep, place?⟩ m' := by
  intro m
  have fails : (Session.parse "" "class Object\nattr_accessor :x\nend\n5.x = 1" m).DoneWith
      fun node m₀ => (Moment.start node m₀).outcome.fault? =
        some (.noVariables "an instance of Integer") := by
    decide +kernel
  have refused : (Session.run "" "class Object\nattr_accessor :x\nend" m).DoneWith
      fun _ m₁ => ∃ x ∈ m₁.names.find? "x",
        (perform 3 (.eval (.send ⟨0, 0⟩ (some (.self ⟨0, 0⟩)) x []) .top)
          { m₁ with depth := maxDepth }).fault? = some .tooDeep := by
    decide +kernel
  obtain ⟨node, m₀, read, fault⟩ := fails.exists_eq
  obtain ⟨place?, m', ends⟩ := Outcome.eq_failed_of_fault? fault
  obtain ⟨v, m₁, defines, x, named, deep⟩ := refused.exists_eq
  obtain ⟨place?', m'', refuses⟩ := Outcome.eq_failed_of_fault? deep
  refine ⟨by decide +kernel, by decide +kernel, ⟨place?, m', ?_⟩,
    v, m₁, x, place?', m'', defines, named, refuses⟩
  rw [Session.run_of_parse read, ends]
  rfl

end MiniRuby
