import Mathlib.Order.RelClasses
import MiniRuby.Proofs.ClassTable

/-!
# Looking up methods

A table of classes comes about by edits.  A class is added below one that is there, and what is
above a class never changes, so the classes above a class follow from the one directly above it, and
come before it in the table (`ClassTable.Linked`).

A method is looked up along these classes.  What is found is told by the edits alone: of the classes
that have been given a method of the name and still have it, the nearest one counts, and of the
methods that this class has been given under the name, the last one (`Edit.Latest`).

* `ClassTable.Linked.suffix`: the classes above a class end in those above any of them.
* `ClassTable.own?_after`: a class has the method that it was last given and has not lost since.
* `ClassTable.nearest_definition_wins`: looking up a method, and how an edit changes the answer.
-/

namespace MiniRuby

/-- A name that is erased is the only one that is no longer bound. -/
theorem Bindings.get?_erase {α : Type} (b : Bindings α) (name x : NameId) :
    (b.erase name).get? x = if name = x then none else b.get? x := by
  obtain ⟨es⟩ := b
  induction es with
  | nil => exact (ite_self none).symm
  | cons e es ih =>
      simp only [erase, get?, List.filter_cons] at ih ⊢
      by_cases he : e.1 = name <;> by_cases hx : name = x <;> simp_all [find]

namespace ClassTable

/-! ### The classes above a class -/

/-- The classes above a class are the one directly above it and the classes above that one, and they
come before it. -/
structure Linked (t : ClassTable) : Prop where
  ancestors_eq : ∀ c, t.ancestors c = c :: (t.parent? c).elim [] t.ancestors
  parent_lt : ∀ c, ∀ p ∈ t.parent? c, p.index < c.index

namespace Linked

variable {t : ClassTable} {a b c : ClassId}

/-- What holds of a class because it holds of the one above it holds of all classes. -/
theorem induction (h : t.Linked) {motive : ClassId → Prop}
    (step : ∀ c, (∀ p ∈ t.parent? c, motive p) → motive c) (c : ClassId) : motive c := by
  obtain ⟨i⟩ := c
  induction i using Nat.strongRecOn with
  | ind i ih => exact step ⟨i⟩ fun p hp => ih p.index (h.parent_lt ⟨i⟩ p hp)

/-- The classes above a class are its parent and those above the parent. -/
theorem above_eq (h : t.Linked) (c : ClassId) :
    (t.get c).above = (t.parent? c).elim [] t.ancestors :=
  (List.cons.inj (h.ancestors_eq c)).2

/-- They have all been made before the class. -/
theorem lt_of_mem_above (h : t.Linked) : ∀ a ∈ (t.get c).above, a.index < c.index := by
  refine h.induction (motive := fun c => ∀ a ∈ (t.get c).above, a.index < c.index) ?_ c
  intro c ih a ha
  rw [h.above_eq] at ha
  cases hp : t.parent? c with
  | none =>
      rw [hp] at ha
      cases ha
  | some p =>
      rw [hp] at ha
      have below := h.parent_lt c p hp
      rcases List.mem_cons.mp ha with rfl | ha
      · exact below
      · exact Nat.lt_trans (ih p hp a ha) below

/-- Where a class stands among the classes above another one, its own follow. -/
theorem above_of_eq (h : t.Linked) {before after : List ClassId}
    (hc : t.ancestors c = before ++ a :: after) : (t.get a).above = after := by
  revert before
  refine h.induction (motive := fun c => ∀ {before}, t.ancestors c = before ++ a :: after →
    (t.get a).above = after) ?_ c
  intro c ih before hc
  cases before with
  | nil =>
      obtain ⟨rfl, above⟩ := List.cons.inj hc
      exact above
  | cons b before =>
      have above : (t.parent? c).elim [] t.ancestors = before ++ a :: after :=
        (h.above_eq c).symm.trans (List.cons.inj hc).2
      cases hp : t.parent? c with
      | none =>
          rw [hp] at above
          cases before <;> cases above
      | some p =>
          rw [hp] at above
          exact ih p hp above

/-- **The classes above a class end in those above any of them.** -/
theorem suffix (h : t.Linked) (ha : a ∈ t.ancestors c) : t.ancestors a <:+ t.ancestors c := by
  obtain ⟨before, after, hc⟩ := List.append_of_mem ha
  rw [ancestors, h.above_of_eq hc, hc]
  exact List.suffix_append _ _

/-- No class is its own ancestor twice, as ancestors have lower and lower positions. -/
theorem nodup (h : t.Linked) : (t.ancestors c).Nodup := by
  refine h.induction (motive := fun c => (t.ancestors c).Nodup) ?_ c
  intro c ih
  refine List.nodup_cons.mpr ⟨fun hc => Nat.lt_irrefl _ (h.lt_of_mem_above c hc), ?_⟩
  rw [h.above_eq]
  cases hp : t.parent? c with
  | none => exact List.nodup_nil
  | some p => exact ih p hp

/-- **Being a subclass is a partial order** in a table that is linked. -/
theorem isPartialOrder (h : t.Linked) :
    IsPartialOrder ClassId fun c a => t.isSubclass c a = true where
  refl c := by simp [isSubclass, ancestors]
  trans a b c hab hbc := by
    simp only [isSubclass, List.contains_iff_mem] at *
    exact (h.suffix hab).subset hbc
  antisymm a b hab hba := by
    simp only [isSubclass, List.contains_iff_mem, ancestors, List.mem_cons] at *
    rcases hab with rfl | hab
    · rfl
    · rcases hba with rfl | hba
      · rfl
      · exact absurd (h.lt_of_mem_above _ hab) (Nat.lt_asymm (h.lt_of_mem_above _ hba))

end Linked

/-! ### Edits -/

/-- Whether the classes that an edit names are there. -/
def Edit.Fits (t : ClassTable) : Edit → Prop
  | .register _ _ parent? _ => ∀ p ∈ parent?, p.index < t.classes.size
  | .addMethod c _ | .addClassMethod c _ | .removeMethod c _ => c.index < t.classes.size

/-- The table that has come from the empty one by edits, the latest of which stands first. -/
def after : List Edit → ClassTable
  | [] => .empty
  | e :: es => (after es).apply e

/-- Whether each edit names classes that are there by then. -/
def AllFit : List Edit → Prop
  | [] => True
  | e :: es => e.Fits (after es) ∧ AllFit es

instance (t : ClassTable) : DecidablePred (Edit.Fits t)
  | .register _ _ none _ => .isTrue nofun
  | .register _ _ (some p) _ => decidable_of_iff (p.index < t.classes.size) (by simp [Edit.Fits])
  | .addMethod c _ | .addClassMethod c _ | .removeMethod c _ =>
    inferInstanceAs (Decidable (c.index < t.classes.size))

instance decidableAllFit : DecidablePred AllFit
  | [] => .isTrue trivial
  | e :: es =>
    haveI := decidableAllFit es
    inferInstanceAs (Decidable (e.Fits (after es) ∧ AllFit es))

theorem linked_empty : empty.Linked where
  ancestors_eq _ := rfl
  parent_lt := nofun

/-- What is above a class does not depend on methods. -/
theorem Linked.of_above {t t' : ClassTable} (h : t.Linked)
    (same : ∀ c, (t'.get c).above = (t.get c).above) : t'.Linked := by
  have ancestors : t'.ancestors = t.ancestors := funext fun c => congrArg (c :: ·) (same c)
  have parent? : t'.parent? = t.parent? := funext fun c => congrArg List.head? (same c)
  exact ⟨by rw [ancestors, parent?]; exact h.ancestors_eq, by rw [parent?]; exact h.parent_lt⟩

/-- A class that is below another one is in the table. -/
theorem lt_size_of_parent? (t : ClassTable) {c p : ClassId} (hp : t.parent? c = some p) :
    c.index < t.classes.size := by
  by_contra hc
  rw [parent?, get_of_le (Nat.le_of_not_lt hc)] at hp
  cases hp

/-- A class that is registered is below one that is there. -/
theorem Linked.register {t : ClassTable} (h : t.Linked) (known name : String)
    (parent? : Option ClassId) (payload? : Option Payload)
    (hp : ∀ p ∈ parent?, p.index < t.classes.size) :
    (t.register known name parent? payload?).2.Linked := by
  generalize ht : (t.register known name parent? payload?).2 = t'
  have kept : ∀ {a : ClassId}, a ≠ ⟨t.classes.size⟩ → t'.get a = t.get a := fun ha =>
    ht ▸ t.get_register known name parent? payload? ha
  have new : (t'.get ⟨t.classes.size⟩).above = (parent?.map t.ancestors).getD [] := by
    rw [← ht, get_register_new]
  have ancestors_kept : ∀ {a : ClassId}, a.index < t.classes.size →
      t'.ancestors a = t.ancestors a := fun ha => by rw [ancestors, ancestors, kept (ne_new ha)]
  suffices h' : ∀ c, (t'.get c).above = (t'.parent? c).elim [] t'.ancestors ∧
      ∀ p ∈ t'.parent? c, p.index < c.index from
    ⟨fun c => congrArg (c :: ·) (h' c).1, fun c => (h' c).2⟩
  intro c
  by_cases hc : c = ⟨t.classes.size⟩
  · subst hc
    rw [ClassTable.parent?, new]
    cases parent? with
    | none => exact ⟨rfl, by simp⟩
    | some p =>
        have here := hp p rfl
        refine ⟨(ancestors_kept here).symm, ?_⟩
        rintro _ ⟨⟩
        exact here
  · have same : t'.parent? c = t.parent? c := by
      rw [ClassTable.parent?, ClassTable.parent?, kept hc]
    rw [same, kept hc, h.above_eq c]
    refine ⟨?_, h.parent_lt c⟩
    cases hq : t.parent? c with
    | none => rfl
    | some q =>
        have inside := t.lt_size_of_parent? hq
        exact (ancestors_kept (Nat.lt_trans (h.parent_lt c q hq) inside)).symm

/-- An edit that fits keeps a table linked. -/
theorem Linked.apply {t : ClassTable} (h : t.Linked) {e : Edit} (he : e.Fits t) :
    (t.apply e).Linked := by
  cases e with
  | register known name parent? payload? => exact h.register known name parent? payload? he
  | addMethod k method | addClassMethod k method | removeMethod k name =>
      refine h.of_above fun c => SameButMethods.above (t.sameButMethods_modify k c fun _ => ?_)
      exact ⟨rfl, rfl, rfl⟩

/-- **A table is linked** after every history of edits that fit. -/
theorem linked_after {es : List Edit} (h : AllFit es) : (after es).Linked := by
  induction es with
  | nil => exact linked_empty
  | cons e es ih => exact (ih h.2).apply h.1

/-! ### What a class has been given -/

/-- Whether an edit gives the instances of a class a method of some name, or takes it from them. -/
def Edit.At (c : ClassId) (name : NameId) : Edit → Prop
  | .addMethod k method => k = c ∧ method.name = name
  | .removeMethod k x => k = c ∧ x = name
  | .register _ _ _ _ | .addClassMethod _ _ => False

/-- Whether a method is the last one that the instances of a class were given under some name, and
has not been taken from them since. -/
def Edit.Latest (es : List Edit) (c : ClassId) (name : NameId) (method : Method) : Prop :=
  ∃ newer older, es = newer ++ .addMethod c method :: older ∧ method.name = name ∧
    ∀ e ∈ newer, ¬ e.At c name

variable {t : ClassTable} {e : Edit} {es : List Edit} {c k : ClassId} {name : NameId}
  {method : Method}

/-- No edit is the latest of none. -/
theorem Edit.not_latest_nil : ¬ Edit.Latest [] c name method := by
  rintro ⟨newer, older, h, -⟩
  cases newer <;> cases h

/-- The latest edit for a name is the last one, or the latest before it if the last is for another
name. -/
theorem Edit.latest_cons : Edit.Latest (e :: es) c name method ↔
    e = .addMethod c method ∧ method.name = name ∨ ¬ e.At c name ∧
      Edit.Latest es c name method := by
  constructor
  · rintro ⟨newer, older, h, hm, hn⟩
    cases newer with
    | nil => exact .inl ⟨(List.cons.inj h).1, hm⟩
    | cons _ newer =>
        obtain ⟨rfl, rfl⟩ := List.cons.inj h
        exact .inr ⟨hn _ (.head _), newer, older, rfl, hm, fun e he => hn e (.tail _ he)⟩
  · rintro (⟨rfl, hm⟩ | ⟨he, newer, older, rfl, hm, hn⟩)
    · exact ⟨[], es, rfl, hm, nofun⟩
    · exact ⟨e :: newer, older, rfl, hm, List.forall_mem_cons.mpr ⟨he, hn⟩⟩

/-- The method of a name that the instances of a class are given by the class itself. -/
def own? (t : ClassTable) (c : ClassId) (name : NameId) : Option Method :=
  (t.get c).methods.get? name

/-- An edit for another name leaves a method alone. -/
theorem own?_apply_of_not_at (he : ¬ e.At c name) : (t.apply e).own? c name = t.own? c name := by
  cases e with
  | register known own parent? payload? =>
      by_cases hc : c = ⟨t.classes.size⟩
      · have absent : t.get ⟨t.classes.size⟩ = default := get_of_le (Nat.le_refl _)
        rw [apply, own?, own?, hc, get_register_new, absent]
        rfl
      · rw [apply, own?, own?, get_register t known own parent? payload? hc]
  | addMethod k method =>
      rw [apply, addMethod, own?, own?, get_modify]
      split
      · rename_i h
        exact Bindings.get?_insert_of_ne _ _ fun hn => he ⟨h.1, hn⟩
      · rfl
  | addClassMethod k method =>
      rw [apply, addClassMethod, own?, own?, get_modify]
      split <;> rfl
  | removeMethod k x =>
      rw [apply, removeMethod, own?, own?, get_modify]
      split
      · rename_i h
        exact (Bindings.get?_erase ..).trans (if_neg fun hx => he ⟨h.1, hx⟩)
      · rfl

/-- A method that is added is there. -/
theorem own?_addMethod (hc : c.index < t.classes.size) (method : Method) :
    (t.addMethod c method).own? c method.name = some method := by
  rw [addMethod, own?, get_modify, if_pos ⟨rfl, hc⟩, Bindings.get?_insert_self]

/-- A method that is removed is not there. -/
theorem own?_removeMethod (t : ClassTable) (c : ClassId) (name : NameId) :
    (t.removeMethod c name).own? c name = none := by
  rw [removeMethod, own?, get_modify]
  split
  · exact (Bindings.get?_erase ..).trans (if_pos rfl)
  · rename_i h
    have hc : t.classes.size ≤ c.index := Nat.le_of_not_lt fun hc => h ⟨rfl, hc⟩
    rw [get_of_le hc]
    rfl

/-- **A class has the method that it was last given** and that has not been taken from it since. -/
theorem own?_after (h : AllFit es) : (after es).own? c name = some method ↔
    Edit.Latest es c name method := by
  induction es with
  | nil => exact ⟨nofun, fun h => (Edit.not_latest_nil h).elim⟩
  | cons e es ih =>
      rw [Edit.latest_cons, ← ih h.2, after]
      by_cases he : e.At c name
      · cases e with
        | addMethod k added =>
            obtain ⟨rfl, rfl⟩ := he
            rw [apply, own?_addMethod h.1]
            refine ⟨fun same => ?_, ?_⟩
            · cases same
              exact .inl ⟨rfl, rfl⟩
            · rintro (⟨same, -⟩ | ⟨other, -⟩)
              · cases same
                rfl
              · exact (other ⟨rfl, rfl⟩).elim
        | removeMethod k x =>
            obtain ⟨rfl, rfl⟩ := he
            rw [apply, own?_removeMethod]
            simp [Edit.At]
        | register | addClassMethod => exact he.elim
      · rw [own?_apply_of_not_at he]
        refine ⟨fun same => .inr ⟨he, same⟩, ?_⟩
        rintro (⟨rfl, hn⟩ | ⟨-, same⟩)
        · exact (he ⟨rfl, hn⟩).elim
        · exact same

/-- A class has no method of a name exactly if no edit that adds one is the latest. -/
theorem own?_after_eq_none (h : AllFit es) : (after es).own? c name = none ↔
    ∀ method, ¬ Edit.Latest es c name method := by
  simp only [← own?_after h, Option.eq_none_iff_forall_ne_some, ne_eq]

/-! ### Looking up -/

/-- Whether, for the instances of a class, some class is not hidden by a nearer one that has a
method of the name. -/
def Exposed (es : List Edit) (c : ClassId) (name : NameId) (k : ClassId) : Prop :=
  ∃ nearer further, (after es).ancestors c = nearer ++ k :: further ∧
    ∀ a ∈ nearer, ∀ method, ¬ Edit.Latest es a name method

/-- A method is looked for in the classes of a list from the first on. -/
theorem findIn_eq_findSome? (t : ClassTable) (methods : ClassInfo → Bindings Method) (name : NameId)
    (cs : List ClassId) : t.findIn methods name cs =
      cs.findSome? fun c => ((methods (t.get c)).get? name).map (·, c) := by
  induction cs with
  | nil => rfl
  | cons c cs ih =>
      rw [findIn, List.findSome?_cons, ih]
      cases (methods (t.get c)).get? name <;> rfl

/-- **A method is found** in the first ancestor that has one of its own. -/
theorem findMethod?_eq_some {owner : ClassId} : t.findMethod? c name = some (method, owner) ↔
    (∃ nearer further, t.ancestors c = nearer ++ owner :: further ∧
      ∀ a ∈ nearer, t.own? a name = none) ∧ t.own? owner name = some method := by
  rw [findMethod?, findIn_eq_findSome?, List.findSome?_eq_some_iff]
  constructor
  · rintro ⟨nearer, a, further, hc, here, before⟩
    obtain ⟨_, own, ⟨⟩⟩ := Option.map_eq_some_iff.mp here
    exact ⟨⟨nearer, further, hc, fun a ha => Option.map_eq_none_iff.mp (before a ha)⟩, own⟩
  · rintro ⟨⟨nearer, further, hc, before⟩, own⟩
    exact ⟨nearer, owner, further, hc, Option.map_eq_some_iff.mpr ⟨method, own, rfl⟩,
      fun a ha => Option.map_eq_none_iff.mpr (before a ha)⟩

/-- An ancestor is exposed if no nearer one has a method of the name. -/
theorem exposed_iff (h : AllFit es) : Exposed es c name k ↔ ∃ nearer further,
    (after es).ancestors c = nearer ++ k :: further ∧
      ∀ a ∈ nearer, (after es).own? a name = none := by
  simp only [Exposed, own?_after_eq_none h]

/-- The answer depends on what the classes have under the name. -/
theorem findIn_congr {t t' : ClassTable} {methods : ClassInfo → Bindings Method} {cs : List ClassId}
    (h : ∀ a ∈ cs, (methods (t'.get a)).get? name = (methods (t.get a)).get? name) :
    t'.findIn methods name cs = t.findIn methods name cs := by
  induction cs with
  | nil => rfl
  | cons c cs ih => rw [findIn, findIn, h c (.head _), ih fun a ha => h a (.tail _ ha)]

/-- If a table differs from another one in the methods of one class, then so does the answer at most
where no nearer class has one. -/
theorem findIn_eq_or {t t' : ClassTable} {methods : ClassInfo → Bindings Method}
    (h : ∀ a ≠ k, (methods (t'.get a)).get? name = (methods (t.get a)).get? name)
    (cs : List ClassId) : t'.findIn methods name cs = t.findIn methods name cs ∨
      ∃ nearer further, cs = nearer ++ k :: further ∧
        ∀ a ∈ nearer, (methods (t.get a)).get? name = none := by
  induction cs with
  | nil => exact .inl rfl
  | cons c cs ih =>
      by_cases hc : c = k
      · exact .inr ⟨[], cs, by rw [hc]; rfl, nofun⟩
      · rw [findIn, findIn, h c hc]
        cases hm : (methods (t.get c)).get? name with
        | some method => exact .inl rfl
        | none =>
            refine ih.imp id ?_
            rintro ⟨nearer, further, rfl, before⟩
            exact ⟨c :: nearer, further, rfl, List.forall_mem_cons.mpr ⟨hm, before⟩⟩

/-- Classes that have nothing under the name are passed over. -/
theorem findIn_append {methods : ClassInfo → Bindings Method} {nearer : List ClassId}
    (h : ∀ a ∈ nearer, (methods (t.get a)).get? name = none) (further : List ClassId) :
    t.findIn methods name (nearer ++ further) = t.findIn methods name further := by
  induction nearer with
  | nil => rfl
  | cons c nearer ih =>
      rw [List.cons_append, findIn, h c (.head _)]
      exact ih fun a ha => h a (.tail _ ha)

/-- The ancestors of a class depend on nothing but how the classes were made. -/
theorem ancestors_modify (t : ClassTable) (k c : ClassId) {f : ClassInfo → ClassInfo}
    (hf : ∀ i, SameButMethods i (f i)) : (t.modify k f).ancestors c = t.ancestors c :=
  congrArg (c :: ·) (t.sameButMethods_modify k c hf).above

@[simp] theorem ancestors_addMethod (t : ClassTable) (k : ClassId) (method : Method) (c : ClassId) :
    (t.addMethod k method).ancestors c = t.ancestors c :=
  t.ancestors_modify k c fun _ => ⟨rfl, rfl, rfl⟩

@[simp] theorem ancestors_addClassMethod (t : ClassTable) (k : ClassId) (method : Method)
    (c : ClassId) : (t.addClassMethod k method).ancestors c = t.ancestors c :=
  t.ancestors_modify k c fun _ => ⟨rfl, rfl, rfl⟩

@[simp] theorem ancestors_removeMethod (t : ClassTable) (k : ClassId) (x : NameId) (c : ClassId) :
    (t.removeMethod k x).ancestors c = t.ancestors c :=
  t.ancestors_modify k c fun _ => ⟨rfl, rfl, rfl⟩

/-- An edit of methods changes no ancestors. -/
theorem ancestors_apply_of_at (he : e.At k name) (c : ClassId) :
    (t.apply e).ancestors c = t.ancestors c := by
  cases e with
  | addMethod a method => exact t.ancestors_addMethod a method c
  | removeMethod a x => exact t.ancestors_removeMethod a x c
  | register | addClassMethod => exact he.elim

/-- An edit of one method changes what is found under its name only, and only for the instances of
classes below that have no nearer one. -/
theorem exposed_of_findMethod?_ne (h : AllFit es) (he : e.At k name) {x : NameId}
    (changed : ((after es).apply e).findMethod? c x ≠ (after es).findMethod? c x) :
    x = name ∧ Exposed es c name k := by
  have elsewhere : ∀ a y, ¬ (a = k ∧ y = name) →
      ((after es).apply e).own? a y = (after es).own? a y := by
    intro a y hay
    refine own?_apply_of_not_at fun h' => hay ?_
    cases e with
    | addMethod b method | removeMethod b z => exact ⟨h'.1.symm.trans he.1, h'.2.symm.trans he.2⟩
    | register | addClassMethod => exact he.elim
  rw [findMethod?, findMethod?, ancestors_apply_of_at he] at changed
  by_cases hx : x = name
  · subst hx
    refine ⟨rfl, (exposed_iff h).mpr ?_⟩
    exact (findIn_eq_or (fun a ha => elsewhere a x fun h => ha h.1) _).resolve_left changed
  · exact (changed (findIn_congr fun a _ => elsewhere a x fun h => hx h.2)).elim

/-- When a method has been taken from a class, the class above it answers. -/
theorem findMethod?_removeMethod (h : AllFit es) (exposed : Exposed es c name k) :
    ((after es).removeMethod k name).findMethod? c name =
      ((after es).parent? k).bind ((after es).findMethod? · name) := by
  obtain ⟨nearer, further, hc, before⟩ := (exposed_iff h).mp exposed
  have linked := linked_after h
  have elsewhere : ∀ a ≠ k, ((after es).removeMethod k name).own? a name = (after es).own? a name :=
    fun a ha => own?_apply_of_not_at (e := .removeMethod k name) fun h => ha h.1.symm
  have removed := (after es).own?_removeMethod k name
  have passed : ∀ a ∈ nearer ++ [k], ((after es).removeMethod k name).own? a name = none := by
    intro a ha
    by_cases hk : a = k
    · rw [hk, removed]
    · rw [elsewhere a hk]
      exact before a ((List.mem_append.mp ha).resolve_right fun h => hk (List.mem_singleton.mp h))
  have distinct : k ∉ further := by
    have := hc ▸ linked.nodup (c := c)
    exact (List.nodup_cons.mp (List.nodup_append.mp this).2.1).1
  calc ((after es).removeMethod k name).findMethod? c name
      = ((after es).removeMethod k name).findIn ClassInfo.methods name
          ((nearer ++ [k]) ++ further) := by
        rw [findMethod?, ancestors_removeMethod, hc, List.append_assoc, List.singleton_append]
    _ = ((after es).removeMethod k name).findIn ClassInfo.methods name further :=
        findIn_append passed further
    _ = (after es).findIn ClassInfo.methods name further :=
        findIn_congr fun a ha => elsewhere a fun hk => distinct (hk ▸ ha)
    _ = ((after es).parent? k).bind ((after es).findMethod? · name) := by
        rw [← linked.above_of_eq hc, linked.above_eq]
        cases (after es).parent? k <;> rfl

/-- What a class itself has is not touched by what its instances are given. -/
theorem findClassMethod?_apply_of_at (he : e.At k name) (c : ClassId) (x : NameId) :
    (t.apply e).findClassMethod? c x = t.findClassMethod? c x := by
  rw [findClassMethod?, findClassMethod?, ancestors_apply_of_at he]
  refine findIn_congr fun a _ => ?_
  cases e with
  | addMethod b method | removeMethod b y =>
      simp only [apply, addMethod, removeMethod, get_modify]
      split <;> rfl
  | register | addClassMethod => exact he.elim

/-- What the instances of a class have is not touched by what the class itself is given. -/
theorem findMethod?_addClassMethod (t : ClassTable) (k : ClassId) (method : Method) (c : ClassId)
    (x : NameId) : (t.addClassMethod k method).findMethod? c x = t.findMethod? c x := by
  rw [findMethod?, findMethod?, ancestors_addClassMethod]
  exact findIn_congr fun a _ => own?_apply_of_not_at (e := .addClassMethod k method) id

/-- **The nearest definition wins**, whatever edits a table has come about by.  The classes above a
class follow the links, and none of them occurs twice.  Of those that have a method of some name,
the nearest one counts, and of the methods that it was given under the name, the last one.  So to
give or take a method changes what is found under its name, where no nearer class has one, and
nothing else; where a method is taken, the class above answers. -/
theorem nearest_definition_wins (h : AllFit es) :
    (∀ c, (after es).ancestors c = c :: ((after es).parent? c).elim [] (after es).ancestors ∧
      ((after es).ancestors c).Nodup) ∧
    IsPartialOrder ClassId (fun c a => (after es).isSubclass c a = true) ∧
    (∀ c name method owner, (after es).findMethod? c name = some (method, owner) ↔
      Exposed es c name owner ∧ Edit.Latest es owner name method) ∧
    (∀ e k name, Edit.At k name e → ∀ c x,
      (((after es).apply e).findMethod? c x ≠ (after es).findMethod? c x →
        x = name ∧ Exposed es c name k) ∧
      ((after es).apply e).findClassMethod? c x = (after es).findClassMethod? c x) ∧
    (∀ k name c, Exposed es c name k → ((after es).removeMethod k name).findMethod? c name =
      ((after es).parent? k).bind ((after es).findMethod? · name)) ∧
    ∀ k method c x, ((after es).addClassMethod k method).findMethod? c x =
      (after es).findMethod? c x := by
  have linked := linked_after h
  refine ⟨fun c => ⟨linked.ancestors_eq c, linked.nodup⟩, linked.isPartialOrder, ?_, ?_, ?_,
    findMethod?_addClassMethod _⟩
  · intro c name method owner
    rw [findMethod?_eq_some, own?_after h, exposed_iff h]
  · exact fun e k name he c x =>
      ⟨exposed_of_findMethod?_ne h he, findClassMethod?_apply_of_at he c x⟩
  · exact fun k name c => findMethod?_removeMethod h

/-- A class and one below it each get a method of the same name, and then the name of the lower
class is given to another one. -/
def rebinding : List Edit :=
  [.register "B" "B" (some ⟨0⟩) none,
   .addMethod ⟨1⟩ (.native .toS (.exact 0) (.object .toS)),
   .addMethod ⟨0⟩ (.native .toS (.exact 0) (.object .inspect)),
   .register "B" "B" (some ⟨0⟩) none,
   .register "A" "A" none (some .ivars)]

/-- The class that has lost its name goes on having its method, and when this is taken from it, the
one above answers. -/
theorem nearest_definition_wins_rebinding : AllFit rebinding ∧
    (after rebinding).find? "B" = some ⟨2⟩ ∧
    (after rebinding).findMethod? ⟨1⟩ .toS =
      some (.native .toS (.exact 0) (.object .toS), ⟨1⟩) ∧
    ((after rebinding).removeMethod ⟨1⟩ .toS).findMethod? ⟨1⟩ .toS =
      some (.native .toS (.exact 0) (.object .inspect), ⟨0⟩) := by
  have fit : AllFit rebinding := by decide
  obtain ⟨-, -, found, -, removed, -⟩ := nearest_definition_wins fit
  have lower : Exposed rebinding ⟨1⟩ .toS ⟨1⟩ := ⟨[], [⟨0⟩], rfl, nofun⟩
  refine ⟨fit, rfl, ?_, ?_⟩
  · refine (found ..).mpr ⟨lower, rebinding.take 1, rebinding.drop 2, rfl, rfl, ?_⟩
    exact List.forall_mem_singleton.mpr id
  · exact (removed _ _ _ lower).trans rfl

end ClassTable

end MiniRuby
