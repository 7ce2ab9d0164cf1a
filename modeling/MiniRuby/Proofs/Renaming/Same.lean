import MiniRuby.Proofs.Renaming.Machine

/-!
# Machines that are alike on one table

Names of one table that are spelled alike are the same name.  So what is alike on one table is the
same (`Kin.Tight`), part by part: values, methods, cells and whole machines (`Machine.Alike.eq`).

What likeness still says there is that a thing is alike to itself, and this means that all names in
it are names of the table (`Machine.Alike.has_ivar`).
-/

namespace MiniRuby

/-- A span that is moved by nothing stays where it is. -/
theorem Span.shift_zero (s : Span) : s.shift 0 = s := rfl

namespace Node

mutual

/-- The tree that stands no characters later is the tree itself. -/
theorem shift_zero : ∀ a : Node, a.shift 0 = a
  | .self _ | .nil _ | .int _ _ | .float _ _ | .bool _ _ | .str _ _ | .symbol _ _ | .ident _ _
  | .instanceVar _ _ | .const _ _ => by rw [shift, Span.shift_zero]
  | .array _ as | .stmts _ as => by rw [shift, Span.shift_zero, shiftAll_zero as]
  | .assign _ a b | .and _ a b | .or _ a b | .loop _ a b => by
    rw [shift, Span.shift_zero, shift_zero a, shift_zero b]
  | .not _ a | .breakWith _ a | .nextWith _ a | .returnWith _ a => by
    rw [shift, Span.shift_zero, shift_zero a]
  | .cond _ a b c => by rw [shift, Span.shift_zero, shift_zero a, shift_zero b, shift_zero c]
  | .guarded _ a rs b c => by
    rw [shift, Span.shift_zero, shift_zero a, shiftRescues_zero rs, shift_zero b, shift_zero c]
  | .methodDef _ _ ps a => by rw [shift, Span.shift_zero, shiftParams_zero ps, shift_zero a]
  | .singletonDef _ a _ ps b => by
    rw [shift, Span.shift_zero, shift_zero a, shiftParams_zero ps, shift_zero b]
  | .classDef _ _ none a => by rw [shift, Span.shift_zero, shift_zero a]
  | .classDef _ _ (some p) a => by rw [shift, Span.shift_zero, shift_zero p, shift_zero a]
  | .send _ none _ as => by rw [shift, Span.shift_zero, shiftAll_zero as]
  | .send _ (some r) _ as => by rw [shift, Span.shift_zero, shift_zero r, shiftAll_zero as]

/-- So do trees. -/
theorem shiftAll_zero : ∀ as : List Node, shiftAll 0 as = as
  | [] => by rw [shiftAll]
  | a :: as => by rw [shiftAll, shift_zero a, shiftAll_zero as]

theorem shiftParams_zero : ∀ ps : List (Param Node), shiftParams 0 ps = ps
  | [] => by rw [shiftParams]
  | ⟨_, none⟩ :: ps => by rw [shiftParams, shiftParams_zero ps]
  | ⟨_, some d⟩ :: ps => by rw [shiftParams, shift_zero d, shiftParams_zero ps]

theorem shiftRescues_zero : ∀ rs : List (RescueClause Node), shiftRescues 0 rs = rs
  | [] => by rw [shiftRescues]
  | ⟨cs, _, a⟩ :: rs => by
    rw [shiftRescues, shiftAll_zero cs, shift_zero a, shiftRescues_zero rs]

end

end Node

variable {α β : Type} {t : NameTable}

/-- Whether what is alike on one table of names is the same. -/
def Kin.Tight (R : Kin α) (t : NameTable) : Prop := ∀ a b, R ⟨t, t⟩ a b → b = a

namespace Kin.Tight

variable {R : Kin α} {S : Kin β}

/-! ### Parts of things -/

/-- Two names of one table with one text are one name. -/
theorem name (sound : t.Sound) : Kin.name.Tight t :=
  fun x y h => sound.distinct y x h.2.1 h.1 h.2.2

/-- What corresponds in one table is the same, also inside an option. -/
theorem option (hR : R.Tight t) : R.option.Tight t := by
  rintro _ _ (h | _)
  · rw [hR _ _ h]
  · rfl

/-- The same inside a list. -/
theorem list (hR : R.Tight t) : R.list.Tight t := by
  intro as bs h
  induction h with
  | nil => rfl
  | cons h _ ih => rw [hR _ _ h, ih]

theorem array (hR : R.Tight t) : R.array.Tight t :=
  fun _ _ h => Array.toList_inj.mp (hR.list _ _ h)

theorem prod (hR : R.Tight t) (hS : S.Tight t) : (R.prod S).Tight t :=
  fun _ _ h => Prod.ext (hR _ _ h.1) (hS _ _ h.2)

/-- Bindings that correspond in one table are the same, as their names are. -/
theorem bindings (sound : t.Sound) (hR : R.Tight t) : R.bindings.Tight t := by
  rintro ⟨es, distinct⟩ ⟨fs, distinct'⟩ h
  obtain rfl : fs = es := ((name sound).prod hR).list _ _ h
  rfl

/-- **Trees** that correspond in one table are the same tree. -/
theorem node (sound : t.Sound) : Kin.node.Tight t := by
  intro a b h
  have spelled : ∀ x y, Tables.Spelled ⟨t, t⟩ x y → y = x := name sound
  have placed : b = a.shift 0 :=
    Node.Alike.eq_shift spelled (fun x y (hs : _ ∧ True) => spelled x y hs.1) h
  rw [placed, a.shift_zero]

theorem params (sound : t.Sound) : Kin.params.Tight t := by
  intro ps qs h
  induction h with
  | nil => rfl
  | cons h _ ih =>
      obtain ⟨hn, hd⟩ := h
      rw [name sound _ _ hn.1, (node sound).option _ _ hd, ih]

/-! ### Values and methods -/

/-- **Values** that correspond in one table are the same value. -/
theorem value (sound : t.Sound) : Kin.value.Tight t := by
  intro v v' h
  cases h with
  | sym h => rw [name sound _ _ h]
  | _ => rfl

/-- So are methods. -/
theorem method (sound : t.Sound) : Kin.method.Tight t := by
  intro f f' h
  cases h with
  | native hn arity ho =>
      rw [name sound _ _ hn]
      cases ho with
      | reader h | writer h => rw [name sound _ _ h]
      | same => rfl
  | defined hn hp hb scope =>
      rw [name sound _ _ hn, params sound _ _ hp, node sound _ _ hb]

/-! ### Classes, cells and frames -/

/-- So are the entries of classes. -/
theorem classInfo (sound : t.Sound) : Kin.classInfo.Tight t := by
  rintro ⟨_, _, _, methods, own⟩ ⟨_, _, _, methods', own'⟩ ⟨rfl, rfl, rfl, hm, hc⟩
  obtain rfl : methods' = methods := (method sound).bindings sound _ _ hm
  obtain rfl : own' = own := (method sound).bindings sound _ _ hc
  rfl

theorem arrayCell (sound : t.Sound) : Kin.arrayCell.Tight t := by
  rintro ⟨_, elements⟩ ⟨_, elements'⟩ ⟨rfl, h⟩
  obtain rfl : elements' = elements := (value sound).array _ _ h
  rfl

theorem objectCell (sound : t.Sound) : Kin.objectCell.Tight t := by
  rintro ⟨_, ivars⟩ ⟨_, ivars'⟩ ⟨rfl, h⟩
  obtain rfl : ivars' = ivars := (value sound).bindings sound _ _ h
  rfl

theorem boundCell (sound : t.Sound) : Kin.boundCell.Tight t := by
  rintro ⟨_, x, receiver, f, _⟩ ⟨_, y, receiver', f', _⟩ ⟨rfl, hn, hr, hf, rfl⟩
  obtain rfl : y = x := name sound _ _ hn
  obtain rfl : receiver' = receiver := value sound _ _ hr
  obtain rfl : f' = f := method sound _ _ hf
  rfl

/-- So are heaps, cell by cell. -/
theorem heap (sound : t.Sound) : Kin.heap.Tight t := by
  rintro ⟨_, arrays, objects, bounds⟩ ⟨_, arrays', objects', bounds'⟩ ⟨rfl, ha, ho, hb⟩
  obtain rfl : arrays' = arrays := (arrayCell sound).array _ _ ha
  obtain rfl : objects' = objects := (objectCell sound).array _ _ ho
  obtain rfl : bounds' = bounds := (boundCell sound).array _ _ hb
  rfl

/-- What corresponds is the same, if machines are compared on one table. -/
theorem eq [Comparison] {w : Tables} (hR : R.Tight w.left) (hw : w.Valid)
    (same : Comparison.sameTable) {a b : α} (h : R w a b) : b = a := by
  obtain ⟨left, right⟩ := w
  obtain rfl : right = left := hw.same same
  exact hR a b h

end Kin.Tight

/-- The methods of a table that is alike to itself have names of the table of names. -/
theorem ClassTable.Alike.spelled_of_mem {w : Tables} {u : ClassTable} (h : u.Alike w u)
    {c : ClassId} {x : NameId} (hx : x ∈ u.methodNames c) : w.Spelled x x := by
  simp only [methodNames, List.mem_mergeSort] at hx
  obtain ⟨e, mem, rfl⟩ := List.mem_map.mp hx
  exact (List.forall₂_same.mp (h.get c).methods e mem).1

namespace Machine

variable [Comparison] {m n : Machine}

/-- **Machines that are alike on one table are the same.** -/
theorem Alike.eq (h : m.Alike n) (same : n.names = m.names) : n = m := by
  obtain ⟨names, ⟨classes, known⟩, heap, ⟨frames⟩, constants, _, _, _, _⟩ := m
  obtain ⟨_, ⟨classes', _⟩, heap', ⟨frames'⟩, constants', _, _, _, _⟩ := n
  obtain ⟨valid, ⟨hc, rfl⟩, hh, hf, hk, rfl, rfl, rfl, rfl⟩ := h
  cases same
  have sound : names.Sound := valid.left
  obtain rfl : classes' = classes := (Kin.Tight.classInfo sound).array _ _ hc
  obtain rfl : heap' = heap := Kin.Tight.heap sound _ _ hh
  obtain rfl : frames' = frames := ((Kin.Tight.value sound).bindings sound).array _ _ hf
  obtain rfl : constants' = constants := (Kin.Tight.value sound).bindings sound _ _ hk
  rfl

/-- The instance variables of a machine that is alike to itself have names of its table. -/
theorem Alike.has_ivar (h : m.Alike m) {o : ObjectId} {x : NameId}
    (hx : x ∈ (m.heap.object o).ivars.names) : m.names.Has x := by
  obtain ⟨e, mem, rfl⟩ := List.mem_map.mp hx
  exact (List.forall₂_same.mp (h.heap.object o).ivars e mem).1.1

end Machine

end MiniRuby
