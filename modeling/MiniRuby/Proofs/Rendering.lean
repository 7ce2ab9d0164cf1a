import Mathlib.Data.List.Sort
import Mathlib.Data.String.Basic
import MiniRuby.Proofs.Accessors
import MiniRuby.Proofs.Nesting
import MiniRuby.Proofs.Reflection
import MiniRuby.Proofs.Renaming.Known

/-!
# Objects are shown in the order of names

The variables of an object are kept in the order in which they were set first, under the positions
of their names in the table, which tell when these were met first.  What is shown of the object does
not depend on either: its variables are sorted by the texts of their names.  As an object has one
variable for a text at most, the sorted row is determined by which texts have a variable, and by
what these hold.

What a row of writes leaves in a variable is what was written to it last.  So two rows that leave
the same values in all variables lead to objects that look the same, whatever was written in between
and whatever else was done.

* `Machine.Reachable.orderly`: all objects of a running program have such variables.
* `Machine.Orderly.pairwise_variableNames`, `Machine.Orderly.mem_variableNames`: which names are
  listed, and in which order.
* `VariableWrites.remembers`: what a row of writes leaves, by induction on the row.
* `rendering_of_writes`: what is listed and shown after two such rows.
-/

namespace MiniRuby

open MiniRuby.Action (bind_of_done)

/-! ### What stands in bindings -/

/-- What a name is bound to is what stands next to it. -/
theorem Bindings.get?_eq_some_iff {α : Type} {b : Bindings α} {x : NameId} {a : α} :
    b.get? x = some a ↔ (x, a) ∈ b.entries := by
  have h := b.distinct
  rw [get?]
  generalize b.entries = es at h ⊢
  induction es with
  | nil => simp [find]
  | cons e es ih =>
      rw [List.map_cons, List.nodup_cons] at h
      rw [find, List.mem_cons]
      split
      · rename_i here
        subst here
        have absent : (e.1, a) ∉ es := fun mem => h.1 (List.mem_map.mpr ⟨_, mem, rfl⟩)
        rw [or_iff_left absent, Option.some_inj]
        exact ⟨fun same => same ▸ rfl, fun same => (congrArg Prod.snd same).symm⟩
      · rename_i other
        have ne : (x, a) ≠ e := fun same => other (congrArg Prod.fst same).symm
        rw [or_iff_right ne]
        exact ih h.2

/-! ### The variables of an object -/

namespace Machine

/-- What the variable of an object with a name holds, if it is set. -/
def held? (m : Machine) (o : ObjectId) (text : String) : Option Value :=
  (m.names.find? text).bind (m.heap.ivar? o)

/-- The names of the variables of an object, in the order in which they are listed. -/
def variableNames (m : Machine) (o : ObjectId) : List String := (m.variablesByName o).map (·.1)

/-- An object is there, and its variables have names of the table. -/
structure Orderly (m : Machine) (o : ObjectId) : Prop where
  names : m.names.Sound
  lives : o.index < m.heap.objects.size
  cls : (m.heap.object o).cls.index < m.classes.classes.size
  known : ∀ x ∈ (m.heap.object o).ivars.names, m.names.Has x

variable {m m₁ m₂ : Machine} {o : ObjectId} {x : NameId} {t : String} {v : Value}

theorem mem_variablesByName {e : String × NameId × Value} : e ∈ m.variablesByName o ↔
    (e.2.1, e.2.2) ∈ (m.heap.object o).ivars.entries ∧ m.names.text e.2.1 = e.1 := by
  obtain ⟨t, x, v⟩ := e
  simp only [variablesByName, List.mem_mergeSort, List.mem_map, Prod.mk.injEq]
  constructor
  · rintro ⟨⟨x, v⟩, mem, rfl, rfl, rfl⟩
    exact ⟨mem, rfl⟩
  · rintro ⟨mem, rfl⟩
    exact ⟨(x, v), mem, rfl, rfl, rfl⟩

/-- An object that has just been made is orderly. -/
theorem Orderly.fresh (names : m.names.Sound) (lives : o.index < m.heap.objects.size)
    (cls : (m.heap.object o).cls.index < m.classes.classes.size)
    (bare : (m.heap.object o).ivars = .empty) : m.Orderly o where
  names := names
  lives := lives
  cls := cls
  known x hx := by
    rw [bare] at hx
    cases hx

namespace Orderly

/-- Which variables there are, with what they hold. -/
theorem held?_eq_some_iff (h : m.Orderly o) :
    m.held? o t = some v ↔ ∃ x, (t, x, v) ∈ m.variablesByName o := by
  simp only [mem_variablesByName]
  constructor
  · intro holds
    obtain ⟨x, found, holds⟩ := Option.bind_eq_some_iff.mp holds
    exact ⟨x, Bindings.get?_eq_some_iff.mp holds, (NameTable.text_of_find? found).2⟩
  · rintro ⟨x, mem, rfl⟩
    have known := h.known x (List.mem_map.mpr ⟨_, mem, rfl⟩)
    rw [held?, h.names.find?_of_text known]
    exact Bindings.get?_eq_some_iff.mpr mem

/-- **The names that are listed** are those of the variables that are set. -/
theorem mem_variableNames (h : m.Orderly o) :
    t ∈ m.variableNames o ↔ (m.held? o t).isSome = true := by
  rw [variableNames, List.mem_map, Option.isSome_iff_exists]
  constructor
  · rintro ⟨⟨t, x, v⟩, mem, rfl⟩
    exact ⟨v, h.held?_eq_some_iff.mpr ⟨x, mem⟩⟩
  · rintro ⟨v, holds⟩
    obtain ⟨x, mem⟩ := h.held?_eq_some_iff.mp holds
    exact ⟨_, mem, rfl⟩

/-- **They are listed in strictly increasing order**, and so each of them once. -/
theorem pairwise_variableNames (h : m.Orderly o) : (m.variableNames o).Pairwise (· < ·) := by
  have sorted : (m.variableNames o).Pairwise (· ≤ ·) := by
    refine List.pairwise_map.mpr ((List.pairwise_mergeSort ?_ ?_ _).imp of_decide_eq_true)
    · intro a b c hab hbc
      exact decide_eq_true (le_trans (of_decide_eq_true hab) (of_decide_eq_true hbc))
    · intro a b
      rw [Bool.or_eq_true, decide_eq_true_iff, decide_eq_true_iff]
      exact le_total a.1 b.1
  have distinct : (m.variableNames o).Nodup := by
    -- Texts differ because names do, and there is one entry for each name.
    have perm := (List.mergeSort_perm ((m.heap.object o).ivars.entries.map fun e =>
      (m.names.text e.1, e.1, e.2)) fun a b => decide (a.1 ≤ b.1)).map (·.1)
    refine (perm.nodup_iff).mpr ?_
    rw [List.map_map, show ((·.1) ∘ fun e : NameId × Value => (m.names.text e.1, e.1, e.2)) =
      m.names.text ∘ (·.1) from rfl, ← List.map_map]
    exact List.Nodup.map_on (fun x hx y hy => (h.names.text_inj (h.known x hx) (h.known y hy)).mp)
      (m.heap.object o).ivars.nodup_names
  exact sorted.imp₂ (fun _ _ => lt_of_le_of_ne) distinct

end Orderly

/-- **All objects of a running program are orderly**, whatever variables they have. -/
theorem Reachable.orderly (h : m.Reachable) (lives : o.index < m.heap.objects.size) :
    m.Orderly o := by
  have here : m.heap.object o ∈ m.heap.objects := by
    rw [Heap.object, Array.getElem?_eq_getElem lives]
    exact Array.getElem_mem lives
  exact {
    names := h.sound_names
    lives := lives
    cls := (h.kept.sound.objects _ here).1.1
    known := fun _ hx => h.has_ivar hx }

end Machine

/-! ### Rows of writes -/

/-- A row of writes to the variables of an object, the latest one first, which leads from one
machine to another one: each is an assignment where the object is self, an assignment to an
attribute of the object, or done by the native method that sets a variable by its name.  What is
done in between them may be anything that leaves the object as it is, as long as nothing is lost. -/
inductive VariableWrites (o : ObjectId) (m : Machine) : List (String × Value) → Machine → Prop where
  | start : VariableWrites o m [] m
  | other {ws : List (String × Value)} {m₁ m₂ : Machine} (before : VariableWrites o m ws m₁)
      (evolves : m₁.Evolves m₂) (same : m₂.heap.object o = m₁.heap.object o) :
      VariableWrites o m ws m₂
  | assign {ws : List (String × Value)} {m₁ m₂ m₃ : Machine} {scope : Scope} {place place' : Span}
      {value : Node} {x : NameId} {t : String} {v w : Value}
      (given : Evaluates ⟨scope, .obj o⟩ value m₁ (.ok v) m₂) (before : VariableWrites o m ws m₂)
      (named : m₂.names.find? t = some x)
      (sets : Evaluates ⟨scope, .obj o⟩ (.assign place (.instanceVar place' x) value) m₁
        (.ok w) m₃) : VariableWrites o m ((t, v) :: ws) m₃
  | attr {ws : List (String × Value)} {m₁ m₂ m₃ m₄ : Machine} {env : Env}
      {place place' : Span} {recv value : Node} {c : ClassId} {t : String} {a : Attribute}
      {v w : Value} (given : Evaluates env value m₁ (.ok v) m₂)
      (receiver : Evaluates env recv m₂ (.ok (.obj o)) m₃) (before : VariableWrites o m ws m₃)
      (plain : Attribute.IsName t) (offers : m₃.Offers (.obj o) c t a)
      (sets : Evaluates env (.assign place (.send place' (some recv) a.reader []) value) m₁
        (.ok w) m₄) : VariableWrites o m (("@" ++ t, v) :: ws) m₄
  | byName {ws : List (String × Value)} {m₁ m₂ : Machine} {fuel : Nat} {I : Invoke} {t : String}
      {name v w : Value} (before : VariableWrites o m ws m₁) (spelled : m₁.Spells name t)
      (sets : (Native.object .variableSet).run fuel I (.obj o) [name, v] m₁ = .done w m₂) :
      VariableWrites o m ((t, v) :: ws) m₂

section Rows

variable {m m₁ m₂ m' : Machine} {o : ObjectId} {x : NameId} {t : String} {v w : Value}
  {ws : List (String × Value)}

/-- What is done without touching an object leaves it orderly, and its variables what they were,
even if further names have become known. -/
theorem Machine.Orderly.evolve (h : m.Orderly o) (evolves : m.Evolves m')
    (same : m'.heap.object o = m.heap.object o) :
    m'.Orderly o ∧ ∀ t, m'.held? o t = m.held? o t := by
  have grown := evolves.names.toExtends
  have after : m'.Orderly o := {
    names := evolves.names.sound h.names
    lives := (evolves.heap.object o h.lives).1
    cls := same ▸ Nat.lt_of_lt_of_le h.cls evolves.classes.size_le
    known := fun x hx => grown.has (h.known x (same ▸ hx)) }
  refine ⟨after, fun t => Option.ext fun v => ?_⟩
  rw [after.held?_eq_some_iff, h.held?_eq_some_iff]
  simp only [Machine.mem_variablesByName, same]
  refine exists_congr fun x => and_congr_right fun mem => ?_
  rw [grown.text_eq x (h.known x (List.mem_map.mpr ⟨_, mem, rfl⟩))]

/-- To write to a variable leaves the object orderly, and changes this variable only. -/
theorem Machine.Orderly.write (h : m.Orderly o) (named : m.names.find? t = some x) (v : Value) :
    m.Evolves (m.withVariable o x v) ∧ (m.withVariable o x v).Orderly o ∧
      ∀ t', (m.withVariable o x v).held? o t' = if t' = t then some v else m.held? o t' := by
  have cell : (m.withVariable o x v).heap.object o = _ := Heap.object_setVariable_self h.lives
  refine ⟨.withHeap (.setVariable m.heap o x v), ?_, fun t' => ?_⟩
  · refine ⟨h.names, ?_, ?_, fun y hy => ?_⟩
    · simpa [Machine.withVariable, Heap.setVariable] using h.lives
    · rw [cell]
      exact h.cls
    · rw [cell] at hy
      rcases Bindings.mem_names_insert.mp hy with rfl | hy
      · exact (NameTable.text_of_find? named).1
      · exact h.known y hy
  · show (m.names.find? t').bind ((m.heap.setVariable o x v).ivar? o) = _
    unfold Machine.held?
    cases found : m.names.find? t' with
    | none =>
        rw [if_neg]
        · rfl
        · rintro rfl
          cases found.symm.trans named
    | some y =>
        have same : x = y ↔ t' = t := by
          constructor
          · rintro rfl
            exact Attribute.text_inj found named
          · rintro rfl
            exact Option.some.inj (named.symm.trans found)
        rw [Option.bind_some, Option.bind_some, Heap.ivar?_setVariable h.lives]
        simp only [same, true_and]

/-- An assignment to a variable of self. -/
theorem evaluates_assign_variable {scope : Scope} {place place' : Span} {value : Node}
    (given : Evaluates ⟨scope, .obj o⟩ value m (.ok v) m₁) :
    Evaluates ⟨scope, .obj o⟩ (.assign place (.instanceVar place' x) value) m (.ok v)
      (m₁.withVariable o x v) :=
  evaluates_iff_step.mpr ⟨0, (bind_of_done (evaluates_iff_carryOut.mp given)).trans rfl⟩

/-- To set a variable by its name is to write to it, once the name is in the table. -/
theorem ObjectOp.run_variableSet {name : Value} {fuel : Nat} {I : Invoke} (sound : m.names.Sound)
    (spelled : m.Spells name t)
    (sets : (Native.object .variableSet).run fuel I (.obj o) [name, v] m = .done w m') :
    ∃ names x, m.names.Grows names ∧ names.find? t = some x ∧
      m' = ({ m with names := names } : Machine).withVariable o x v := by
  obtain ⟨x, names, taken, grows, found⟩ := Run.expectName_of_spells (I := I) sound spelled
  have asks : (ObjectOp.variableName I name >>= fun name => Run.setVariable (.obj o) name v) m =
    .done w m' := sets
  obtain ⟨y, m₁, takes, writes⟩ := Action.bind_eq_done.mp asks
  have checked : ObjectOp.variableName I name m = _ := bind_of_done taken
  rw [takes] at checked
  change _ = (if (names.text x).startsWith "@" then pure x
    else Run.fault (.badVariableName (names.text x)) : Run NameId) { m with names := names }
    at checked
  split at checked
  · cases checked
    cases writes
    exact ⟨names, x, grows, found, rfl⟩
  · cases checked

/-- **What is left** by a row of writes is what was written last. -/
theorem VariableWrites.remembers (row : VariableWrites o m ws m') (h : m.Orderly o) :
    m.Evolves m' ∧ m'.Orderly o ∧ ∀ t, m'.held? o t = (ws.lookup t).or (m.held? o t) := by
  -- One more write, to a machine of which all of this holds.
  have step {m₁ : Machine} {ws : List (String × Value)} {x : NameId} {t : String} {v : Value}
      (before : m.Evolves m₁ ∧ m₁.Orderly o ∧ ∀ t, m₁.held? o t = (ws.lookup t).or (m.held? o t))
      (named : m₁.names.find? t = some x) :
      m.Evolves (m₁.withVariable o x v) ∧ (m₁.withVariable o x v).Orderly o ∧
        ∀ t', (m₁.withVariable o x v).held? o t' =
          (((t, v) :: ws).lookup t').or (m.held? o t') := by
    obtain ⟨evolves, orderly, held⟩ := before
    obtain ⟨evolves', orderly', held'⟩ := orderly.write named v
    refine ⟨evolves.trans evolves', orderly', fun t' => ?_⟩
    rw [held', List.lookup_cons, held]
    by_cases same : t' = t
    · simp [same]
    · simp [same, beq_false_of_ne same]
  induction row with
  | start => exact ⟨.refl m, h, fun _ => rfl⟩
  | other before evolves same ih =>
      obtain ⟨evolves₁, orderly, held⟩ := ih
      obtain ⟨orderly', held'⟩ := orderly.evolve evolves same
      exact ⟨evolves₁.trans evolves, orderly', fun t => (held' t).trans (held t)⟩
  | assign given before named sets ih =>
      obtain ⟨-, rfl⟩ := sets.unique (evaluates_assign_variable given)
      exact step ih named
  | @attr ws m₁ m₂ m₃ m₄ env place place' recv value c t a v w given receiver before plain
      offers sets ih =>
      have sound := ih.2.1.names
      rcases Nat.lt_or_ge m₃.depth maxDepth with room | deep
      · have acts := offers.actsAsVariable sound plain room
        obtain ⟨-, rfl⟩ := sets.unique (acts.assigns given receiver)
        exact step ih offers.defines.named.slot
      · have refuses := offers.refusesAccess sound plain deep
        obtain ⟨failed, -⟩ := sets.unique (refuses.assigns given receiver)
        cases failed
  | @byName ws m₁ m₂ fuel I t name v w before spelled sets ih =>
      obtain ⟨evolves, orderly, held⟩ := ih
      obtain ⟨names, x, grows, found, rfl⟩ := ObjectOp.run_variableSet orderly.names spelled sets
      have knows : m₁.Evolves { m₁ with names := names } :=
        { Machine.Evolves.refl m₁ with names := grows }
      obtain ⟨orderly', held'⟩ := orderly.evolve knows rfl
      exact step ⟨evolves.trans knows, orderly', fun t => (held' t).trans (held t)⟩ found

end Rows

/-! ### What is listed and shown -/

namespace Machine

/-- The native method for the list of variables answers the symbols with certain names. -/
def ListsVariables (m : Machine) (o : ObjectId) (names : List String) : Prop :=
  ∃ xs : List NameId, xs.map m.names.text = names ∧ (∀ x ∈ xs, m.names.Has x) ∧
    ∀ fuel I args, Run.Lists ((Native.object .variableNames).run fuel I (.obj o) args) m xs

/-- The native method that shows an object answers a string with a certain text, and nothing else
is done than to make strings. -/
def Appears (m : Machine) (I : Invoke) (o : ObjectId) (text : String) : Prop :=
  ∀ fuel args, ∃ cells, (Native.object .inspect).run fuel I (.obj o) args m =
    Run.newString text (m.page cells m.sink)

/-- The picture of an object: its class, and the names of its variables with what is shown for
them. -/
def portrait (m : Machine) (o : ObjectId) (names : List String) (shown : String → String) :
    String :=
  if (Value.obj o).identical .main then "main"
  else "#<" ++ m.className (.obj o) ++
    ",".intercalate (names.map fun t => " " ++ t ++ "=" ++ shown t) ++ ">"

variable {m m' : Machine} {o : ObjectId} {I : Invoke} {shown : String → String}

theorem Orderly.listsVariables (h : m.Orderly o) : m.ListsVariables o (m.variableNames o) := by
  refine ⟨(m.variablesByName o).map (·.2.1), ?_, fun x hx => ?_, fun fuel I args => ?_⟩
  · rw [List.map_map]
    exact List.map_congr_left fun e he => (mem_variablesByName.mp he).2
  · obtain ⟨e, he, rfl⟩ := List.mem_map.mp hx
    exact h.known _ (List.mem_map.mpr ⟨_, (mem_variablesByName.mp he).1, rfl⟩)
  · have lists := Run.lists_newArray (m := m) ((m.variablesByName o).map (·.2.1))
    rwa [List.map_map] at lists

/-- **How an object is shown**, if what its variables hold is shown without effects. -/
theorem Orderly.appears (h : m.Orderly o)
    (drawn : ∀ t v, m.held? o t = some v → Run.Draws m (some (shown t)) (Run.inspect I v)) :
    m.Appears I o (m.portrait o (m.variableNames o) shown) := by
  intro fuel args
  show ∃ cells, ObjectOp.inspectObject I (.obj o) m = _
  unfold ObjectOp.inspectObject portrait
  split
  · rename_i main
    refine ⟨#[], ?_⟩
    rw [page_self, show Run.newString "main" m = Run.newString (m.plainText (.obj o)) m by
      rw [plainText, if_pos main]]
    rfl
  · let part (e : String × NameId × Value) : Run String := do
      pure (" " ++ e.1 ++ "=" ++ (← Run.inspect I e.2.2))
    have parts : Run.Draws m ((m.variablesByName o).mapM fun e =>
        some (" " ++ e.1 ++ "=" ++ shown e.1)) (Action.each part (m.variablesByName o)) := by
      refine .each fun e he => ?_
      have draws := drawn e.1 e.2.2 (h.held?_eq_some_iff.mpr ⟨e.2.1, he⟩)
      exact draws.bind (g := fun text => some (" " ++ e.1 ++ "=" ++ text)) fun text _ =>
        .same fun _ _ => rfl
    obtain ⟨cells, e⟩ := parts #[] m.sink
    rw [page_self, Array.empty_append, Heap.mapM_eq_some_map fun _ _ => rfl] at e
    refine ⟨cells, ?_⟩
    have each : Action.each part (m.variablesByName o) m = .done _ (m.page cells m.sink) := e
    refine (bind_of_done each).trans ?_
    rw [variableNames, List.map_map]
    rfl

end Machine

/-- What stands in the first of two related places has a counterpart in the second one. -/
theorem exists_right_of_rel {α β : Type} {r : α → β → Prop} {a : Option α} {b : Option β}
    (h : Option.Rel r a b) {v : α} (holds : a = some v) : ∃ w, b = some w ∧ r v w := by
  subst holds
  cases h with
  | some like => exact ⟨_, rfl, like⟩

theorem exists_left_of_rel {α β : Type} {r : α → β → Prop} {a : Option α} {b : Option β}
    (h : Option.Rel r a b) {w : β} (holds : b = some w) : ∃ v, a = some v ∧ r v w := by
  subst holds
  cases h with
  | some like => exact ⟨_, rfl, like⟩

/-- **Objects are shown and listed in the order of names**, whatever was written first.  Let two
rows of writes to the variables of an object, from the same machine on, leave the same value in each
variable, in whatever sense of being the same.  Then the same names are listed after both, in
strictly increasing order, those of the variables that are set; and if what the variables hold is
shown without effects, and in the same way after both rows, then so is the object. -/
theorem rendering_of_writes {m m₁ m₂ : Machine} {o : ObjectId} {ws₁ ws₂ : List (String × Value)}
    {alike : Value → Value → Prop} (orderly : m.Orderly o) (row₁ : VariableWrites o m ws₁ m₁)
    (row₂ : VariableWrites o m ws₂ m₂)
    (same : ∀ t, Option.Rel alike ((ws₁.lookup t).or (m.held? o t))
      ((ws₂.lookup t).or (m.held? o t))) :
    ∃ names : List String, names.Pairwise (· < ·) ∧
      (∀ t, t ∈ names ↔ ((ws₁.lookup t).or (m.held? o t)).isSome = true) ∧
      m₁.ListsVariables o names ∧ m₂.ListsVariables o names ∧
      ∀ (I₁ I₂ : Invoke) (shown : String → String),
        (∀ t v w, (ws₁.lookup t).or (m.held? o t) = some v →
          (ws₂.lookup t).or (m.held? o t) = some w → alike v w →
          Run.Draws m₁ (some (shown t)) (Run.inspect I₁ v) ∧
            Run.Draws m₂ (some (shown t)) (Run.inspect I₂ w)) →
        m₁.Appears I₁ o (m.portrait o names shown) ∧
          m₂.Appears I₂ o (m.portrait o names shown) := by
  obtain ⟨evolves₁, orderly₁, held₁⟩ := row₁.remembers orderly
  obtain ⟨evolves₂, orderly₂, held₂⟩ := row₂.remembers orderly
  have pairs (t : String) : Option.Rel alike (m₁.held? o t) (m₂.held? o t) := by
    rw [held₁, held₂]
    exact same t
  -- Both lists are sorted, so they are the same as soon as the same names are on them.
  have names : m₂.variableNames o = m₁.variableNames o := by
    refine List.Pairwise.eq_of_mem_iff (r := (· < ·)) orderly₂.pairwise_variableNames
      orderly₁.pairwise_variableNames fun t => ?_
    rw [orderly₂.mem_variableNames, orderly₁.mem_variableNames]
    have pair := pairs t
    generalize m₁.held? o t = a at pair
    generalize m₂.held? o t = b at pair
    cases pair <;> rfl
  have className {m' : Machine} (evolves : m.Evolves m') :
      m'.className (.obj o) = m.className (.obj o) := by
    show m'.classes.name (m'.heap.object o).cls = m.classes.name (m.heap.object o).cls
    rw [(evolves.heap.object o orderly.lives).2.1]
    exact (evolves.classes.kept orderly.cls).name
  have portrait {m' : Machine} (evolves : m.Evolves m') (shown : String → String) :
      m'.portrait o (m₁.variableNames o) shown = m.portrait o (m₁.variableNames o) shown := by
    rw [Machine.portrait, Machine.portrait, className evolves]
  refine ⟨m₁.variableNames o, orderly₁.pairwise_variableNames, fun t => ?_,
    orderly₁.listsVariables, names ▸ orderly₂.listsVariables, fun I₁ I₂ shown drawn => ⟨?_, ?_⟩⟩
  · rw [orderly₁.mem_variableNames, held₁]
  · rw [← portrait evolves₁]
    refine orderly₁.appears fun t v holds => ?_
    obtain ⟨w, other, like⟩ := exists_right_of_rel (pairs t) holds
    exact (drawn t v w (held₁ t ▸ holds) (held₂ t ▸ other) like).1
  · rw [← portrait evolves₂, ← names]
    refine orderly₂.appears fun t w holds => ?_
    obtain ⟨v, other, like⟩ := exists_left_of_rel (pairs t) holds
    exact (drawn t v w (held₁ t ▸ other) (held₂ t ▸ holds) like).2

/-- To assign an integer to a variable of self is one more write. -/
theorem VariableWrites.int {m m' : Machine} {o : ObjectId} {ws : List (String × Value)} {x : NameId}
    {t : String} (i : Int64) (before : VariableWrites o m ws m')
    (named : m'.names.find? t = some x) :
    VariableWrites o m ((t, .int i) :: ws) (m'.withVariable o x (.int i)) := by
  -- Where the nodes stand does not matter.
  let p : Span := ⟨0, 0⟩
  have given : Evaluates ⟨.top, .obj o⟩ (.int p i) m' (.ok (.int i)) m' := ⟨1, rfl⟩
  have sets : Evaluates ⟨.top, .obj o⟩ (.assign p (.instanceVar p x) (.int p i)) m' _ _ :=
    evaluates_assign_variable given
  exact .assign given before named sets

/-- An integer is shown natively. -/
theorem Run.draws_int {m : Machine} {i : Int64} (natively : m.IsDrawn (.int i))
    (room : m.depth < maxDepth) : Run.Draws m (some (m.plainly (.int i)))
      (Run.inspect (Perform.invoke (perform 1)) (.int i)) := by
  have drawn : Run.Draws m _ (Run.inspect (Perform.invoke (perform 1)) (.int i)) :=
    Run.draws_plainly natively nofun
  rwa [if_pos room] at drawn

/-- Two variables are set in one order, and in the other one after one of them was set to something
else. -/
theorem rendering_of_writes_swapped :
    let m₀ := (Machine.bare (.collecting "")).install ⟨.integer, "inspect", .exact 0, .integer .toS⟩
    let m := { m₀ with
      names := ((m₀.names.intern "@b").2.intern "@a").2
      heap := (m₀.heap.newObject .object).2 }
    let o : ObjectId := ⟨1⟩
    let ws₁ := [("@b", Value.int 2), ("@a", .int 1)]
    let ws₂ := [("@a", Value.int 1), ("@b", .int 2), ("@b", .int 7)]
    ∃ m₁ m₂, m.Orderly o ∧ VariableWrites o m ws₁ m₁ ∧ VariableWrites o m ws₂ m₂ ∧
      (∀ t, Option.Rel Eq ((ws₁.lookup t).or (m.held? o t)) ((ws₂.lookup t).or (m.held? o t))) ∧
      m₁.ListsVariables o ["@a", "@b"] ∧ m₂.ListsVariables o ["@a", "@b"] ∧
      m₁.Appears (Perform.invoke (perform 1)) o "#<Object @a=1, @b=2>" ∧
      m₂.Appears (Perform.invoke (perform 1)) o "#<Object @a=1, @b=2>" := by
  intro m₀ m o ws₁ ws₂
  have sound : m.names.Sound :=
    ((NameTable.sound_initial.intern "inspect").intern "@b").intern "@a"
  have orderly : m.Orderly o := .fresh sound (by decide +kernel) (by decide +kernel) rfl
  have b : m.names.find? "@b" = some ⟨12⟩ := by decide +kernel
  have a : m.names.find? "@a" = some ⟨13⟩ := by decide +kernel
  let m₁ := (m.withVariable o ⟨13⟩ (.int 1)).withVariable o ⟨12⟩ (.int 2)
  let m₂ := ((m.withVariable o ⟨12⟩ (.int 7)).withVariable o ⟨12⟩ (.int 2)).withVariable o ⟨13⟩
    (.int 1)
  have row₁ : VariableWrites o m ws₁ m₁ := .int 2 (.int 1 .start a) b
  have row₂ : VariableWrites o m ws₂ m₂ := .int 1 (.int 2 (.int 7 .start b) b) a
  have unset (t : String) : m.held? o t = none := by
    rw [Machine.held?]
    cases m.names.find? t <;> rfl
  have left : ∀ ws ∈ [ws₁, ws₂], ∀ t, (ws.lookup t).or (m.held? o t) =
      if t = "@b" then some (.int 2) else if t = "@a" then some (.int 1) else none := by
    intro ws hws t
    rw [unset, Option.or_none]
    by_cases hb : t = "@b"
    · rcases List.mem_pair.mp hws with rfl | rfl <;> simp [ws₁, ws₂, List.lookup_cons, hb]
    · have other := beq_false_of_ne hb
      by_cases ha : t = "@a" <;> rcases List.mem_pair.mp hws with rfl | rfl <;>
        simp [ws₁, ws₂, List.lookup_cons, ha, hb, other, beq_false_of_ne]
  have left₁ := left ws₁ (.head _)
  have left₂ := left ws₂ (.tail _ (.head _))
  have same : ∀ t, Option.Rel Eq ((ws₁.lookup t).or (m.held? o t))
      ((ws₂.lookup t).or (m.held? o t)) := by
    intro t
    rw [left₁, left₂]
    split
    · exact .some rfl
    · split
      · exact .some rfl
      · exact .none
  obtain ⟨names, sorted, mem, lists₁, lists₂, appears⟩ :=
    rendering_of_writes orderly row₁ row₂ same
  have order : names = ["@a", "@b"] := by
    refine List.Pairwise.eq_of_mem_iff (r := (· < ·)) sorted (by decide +kernel) fun t => ?_
    rw [mem, left₁]
    by_cases hb : t = "@b"
    · simp [hb]
    · by_cases ha : t = "@a" <;> simp [ha, hb]
  subst order
  have shown (m' : Machine) (h : ∀ i, m'.IsDrawn (.int i)) (room : m'.depth < maxDepth)
      (t : String) (v : Value)
      (holds : (if t = "@b" then some (.int 2) else if t = "@a" then some (.int 1) else none) =
        some v) : Run.Draws m' (some (if t = "@b" then "2" else "1"))
          (Run.inspect (Perform.invoke (perform 1)) v) := by
    by_cases hb : t = "@b"
    · rw [if_pos hb] at holds ⊢
      cases holds
      exact Run.draws_int (h 2) room
    · rw [if_neg hb] at holds ⊢
      split at holds
      · cases holds
        exact Run.draws_int (h 1) room
      · cases holds
  have natively₁ (i : Int64) : m₁.IsDrawn (.int i) :=
    (by decide +kernel : m₁.IsDrawn (.int 0))
  have natively₂ (i : Int64) : m₂.IsDrawn (.int i) :=
    (by decide +kernel : m₂.IsDrawn (.int 0))
  have texts := appears (Perform.invoke (perform 1)) (Perform.invoke (perform 1))
    (fun t => if t = "@b" then "2" else "1") fun t v w hv hw like => by
      rw [left₁] at hv
      rw [left₂] at hw
      exact ⟨shown m₁ natively₁ (by decide) t v hv, shown m₂ natively₂ (by decide) t w hw⟩
  have portrait : m.portrait o ["@a", "@b"] (fun t => if t = "@b" then "2" else "1") =
      "#<Object @a=1, @b=2>" := by
    decide +kernel
  rw [portrait] at texts
  exact ⟨m₁, m₂, orderly, row₁, row₂, same, lists₁, lists₂, texts⟩

end MiniRuby
