import MiniRuby.Proofs.Sessions

/-!
# Things that differ in their names

Two machines that do the same may have different tables of names, and then the names that occur in
their values, their methods and their variables stand at different positions.  Such things are alike
when names occur in the same places and are spelled alike.

Since the tables grow while the machines run, likeness is a relation for each pair of tables that
goes on holding in later tables (`Kin`).  Kins of lists, arrays, pairs and bindings come from kins
of what is in them.

* `Kin.bindings_get?`, `Kin.bindings_insert`: in bindings that are alike, the same is found and set
  under names that are spelled alike.
* `Value.Alike`, `Method.Alike`: likeness of values and methods.
-/

namespace MiniRuby

variable {α β : Type} {w w' : Tables}

/-- How the things of two machines correspond, given the tables of names of both.  What corresponds
does so in later tables. -/
structure Kin (α : Type) where
  rel : Tables → α → α → Prop
  mono : ∀ {w w' : Tables} {a b : α}, w ≤ w' → rel w a b → rel w' a b

instance : CoeFun (Kin α) fun _ => Tables → α → α → Prop := ⟨Kin.rel⟩

/-- Things that correspond do so when more names are known. -/
theorem Kin.rel.later {R : Kin α} {a b : α} (h : R w a b) (hw : w ≤ w') : R w' a b := R.mono hw h

/-- How two machines are compared: on one table of names, or on tables that may differ. -/
class Comparison where
  sameTable : Prop

/-- Whether both tables hold every name once, and the first names where they belong, and whether
they are the same, if machines are compared on one table. -/
structure Tables.Valid [Comparison] (w : Tables) : Prop where
  left : w.left.Sound
  right : w.right.Sound
  same : Comparison.sameTable → w.right = w.left

/-- Names that are spelled alike are the same as others in both tables or in none. -/
theorem Tables.Spelled.eq_iff [Comparison] {x x' y y' : NameId} (h : w.Spelled x y) (hw : w.Valid)
    (h' : w.Spelled x' y') : x = x' ↔ y = y' :=
  (Naming.spelled fun _ => True).eq_iff ⟨hw.left, hw.right⟩ h h'

/-- The same name may be looked up in both tables. -/
theorem Tables.Valid.intern [Comparison] (hw : w.Valid) (name : String) :
    (w.intern name).Valid where
  left := hw.left.intern name
  right := hw.right.intern name
  same h := by rw [Tables.intern, hw.same h]

namespace Kin

/-! ### Kins of what is in a thing -/

/-- The same thing. -/
abbrev same : Kin α := ⟨fun _ a b => b = a, fun _ h => h⟩

/-- Names that are spelled alike. -/
abbrev name : Kin NameId := ⟨Tables.Spelled, fun hw h => h.mono hw⟩

abbrev option (R : Kin α) : Kin (Option α) :=
  ⟨fun w => Option.Rel (R w), fun hw => rel_imp fun _ _ => R.mono hw⟩

abbrev list (R : Kin α) : Kin (List α) :=
  ⟨fun w => List.Forall₂ (R w), fun hw h => h.imp fun _ _ => R.mono hw⟩

abbrev array (R : Kin α) : Kin (Array α) :=
  ⟨fun w as bs => R.list w as.toList bs.toList, R.list.mono⟩

abbrev prod (R : Kin α) (S : Kin β) : Kin (α × β) :=
  ⟨fun w a b => R w a.1 b.1 ∧ S w a.2 b.2, fun hw h => ⟨h.1.later hw, h.2.later hw⟩⟩

/-- Errors that correspond, or answers that do. -/
abbrev except {ε : Type} (R : Kin α) (E : Kin ε) : Kin (Except ε α) where
  rel w
    | .ok a, .ok b => R w a b
    | .error e, .error f => E w e f
    | _, _ => False
  mono := by
    rintro w w' (e | a) (f | b) hw h
    · exact E.mono hw h
    · exact h
    · exact h
    · exact R.mono hw h

abbrev bindings (R : Kin α) : Kin (Bindings α) :=
  ⟨fun w b c => (name.prod R).list w b.entries c.entries, (name.prod R).list.mono⟩

/-- Nodes with names that are spelled alike, at the same places. -/
abbrev node : Kin Node :=
  ⟨fun w => Node.Alike ((Naming.spelled fun _ => True).likeness w) 0,
    fun hw h => h.mono ((Naming.spelled fun _ => True).mono hw)⟩

abbrev params : Kin (List (Param Node)) :=
  ⟨fun w => Node.AlikeParams ((Naming.spelled fun _ => True).likeness w) 0, fun hw h =>
    h.imp fun _ _ h => h.mono ((Naming.spelled fun _ => True).mono hw) fun _ _ => node.mono hw⟩

abbrev clause : Kin (RescueClause Node) :=
  ⟨fun w => Node.AlikeClause ((Naming.spelled fun _ => True).likeness w) (node w), fun hw h =>
    h.mono ((Naming.spelled fun _ => True).mono hw) fun _ _ => node.mono hw⟩

/-! ### Options and lists -/

section lists

variable {R : Kin α} {as bs : List α} {xs ys : Array α}

/-- What stands in for nothing has to correspond, too. -/
theorem option_getD {a b : Option α} {d e : α} (h : R.option w a b) (hd : R w d e) :
    R w (a.getD d) (b.getD e) := by
  cases h with
  | none => exact hd
  | some h => exact h

/-- Options that correspond are both there or both not. -/
theorem option_isSome {a b : Option α} (h : R.option w a b) : b.isSome = a.isSome := by
  cases h <;> rfl

/-- Lists correspond element by element, so lists of the same things are the same. -/
theorem list_same {as bs : List β} (h : (same : Kin β).list w as bs) : bs = as := by
  induction h with
  | nil => rfl
  | cons h _ ih => rw [h, ih]

/-- Elements at one index correspond, or neither list is long enough. -/
theorem list_getElem? (h : R.list w as bs) (i : Nat) : R.option w as[i]? bs[i]? := by
  induction h generalizing i with
  | nil => exact .none
  | cons hab _ ih =>
      cases i with
      | zero => exact .some hab
      | succ i => simpa using ih i

/-- Lists in a row correspond if each does. -/
theorem list_append {as' bs' : List α} (h : R.list w as bs) (h' : R.list w as' bs') :
    R.list w (as ++ as') (bs ++ bs') := List.rel_append h h'

/-- An element may be changed alike. -/
theorem list_modify (h : R.list w as bs) (i : Nat) {f g : α → α}
    (hf : ∀ a b, R w a b → R w (f a) (g b)) : R.list w (as.modify i f) (bs.modify i g) := by
  induction h generalizing i with
  | nil => cases i <;> exact .nil
  | cons hab hrest ih =>
      cases i with
      | zero => exact .cons (hf _ _ hab) hrest
      | succ i => exact .cons hab (ih i)

/-- An element may be replaced. -/
theorem list_set (h : R.list w as bs) (i : Nat) {a b : α} (hab : R w a b) :
    R.list w (as.set i a) (bs.set i b) := by
  induction h generalizing i with
  | nil => exact .nil
  | cons hcd hrest ih =>
      cases i with
      | zero => exact .cons hab hrest
      | succ i => exact .cons hcd (ih i)

/-- Pairs correspond in both parts. -/
theorem list_zip {S : Kin β} {cs ds : List β} (h : R.list w as bs) (h' : S.list w cs ds) :
    (R.prod S).list w (as.zip cs) (bs.zip ds) := by
  induction h generalizing cs ds with
  | nil => exact .nil
  | cons hab _ ih =>
      cases h' with
      | nil => exact .nil
      | cons hcd hrest => exact .cons ⟨hab, hcd⟩ (ih hrest)

/-- Lists that are sorted by the same measure stay alike. -/
theorem list_mergeSort {le : α → α → Bool} (h : R.list w as bs)
    (hle : ∀ a b a' b', R w a b → R w a' b' → le b b' = le a a') :
    R.list w (as.mergeSort le) (bs.mergeSort le) := by
  -- Both lists are read off the list of pairs, sorted by the measure of the first of each pair.
  have pairs : ∀ p ∈ as.zip bs, R w p.1 p.2 := fun p hp => List.forall₂_zip h hp
  have left := List.map_fst_zip (List.Forall₂.length_eq h).le
  have right := List.map_snd_zip (List.Forall₂.length_eq h).ge
  have first : ((as.zip bs).mergeSort fun p q => le p.1 q.1).map Prod.fst = as.mergeSort le := by
    rw [List.map_mergeSort (s := le) fun _ _ _ _ => rfl, left]
  have second : ((as.zip bs).mergeSort fun p q => le p.1 q.1).map Prod.snd = bs.mergeSort le := by
    rw [List.map_mergeSort (s := le) fun p hp q hq => (hle _ _ _ _ (pairs p hp) (pairs q hq)).symm,
      right]
  change List.Forall₂ (R w) _ _
  rw [← first, ← second, List.forall₂_map_left_iff, List.forall₂_map_right_iff, List.forall₂_same]
  exact fun p hp => pairs p (List.mem_mergeSort.mp hp)

/-- Arrays that correspond have one length. -/
theorem array_size (h : R.array w xs ys) : ys.size = xs.size := by
  simpa using (List.Forall₂.length_eq h).symm

theorem array_getElem? (h : R.array w xs ys) (i : Nat) : R.option w xs[i]? ys[i]? := by
  rw [← Array.getElem?_toList, ← Array.getElem?_toList]
  exact list_getElem? h i

theorem array_push (h : R.array w xs ys) {a b : α} (hab : R w a b) :
    R.array w (xs.push a) (ys.push b) := by
  change R.list w _ _
  rw [Array.toList_push, Array.toList_push]
  exact list_append h (.cons hab .nil)

theorem array_append {xs' ys' : Array α} (h : R.array w xs ys) (h' : R.array w xs' ys') :
    R.array w (xs ++ xs') (ys ++ ys') := by
  change R.list w _ _
  rw [Array.toList_append, Array.toList_append]
  exact list_append h h'

theorem array_appendList (h : R.array w xs ys) (h' : R.list w as bs) :
    R.array w (xs ++ as) (ys ++ bs) := by
  change R.list w _ _
  rw [Array.toList_appendList, Array.toList_appendList]
  exact list_append h h'

theorem array_replicate (n : Nat) {a b : α} (h : R w a b) :
    R.array w (Array.replicate n a) (Array.replicate n b) := by
  change R.list w _ _
  rw [Array.toList_replicate, Array.toList_replicate]
  induction n with
  | zero => exact .nil
  | succ n ih => exact .cons h ih

theorem array_back? (h : R.array w xs ys) : R.option w xs.back? ys.back? := by
  rw [Array.back?, Array.back?, array_size h]
  exact array_getElem? h _

theorem array_pop (h : R.array w xs ys) : R.array w xs.pop ys.pop := by
  change R.list w _ _
  rw [Array.toList_pop, Array.toList_pop, List.dropLast_eq_take, List.dropLast_eq_take,
    ← List.Forall₂.length_eq h]
  exact List.forall₂_take _ h

theorem array_reverse (h : R.array w xs ys) : R.array w xs.reverse ys.reverse := by
  change R.list w _ _
  rw [Array.toList_reverse, Array.toList_reverse]
  exact List.forall₂_reverse_iff.mpr h

theorem array_set (h : R.array w xs ys) (i : Nat) {a b : α} (hab : R w a b) :
    R.array w (xs.setIfInBounds i a) (ys.setIfInBounds i b) := by
  change R.list w _ _
  rw [Array.toList_setIfInBounds, Array.toList_setIfInBounds]
  exact list_set h i hab

theorem array_modify (h : R.array w xs ys) (i : Nat) {f g : α → α}
    (hf : ∀ a b, R w a b → R w (f a) (g b)) : R.array w (xs.modify i f) (ys.modify i g) := by
  change R.list w _ _
  rw [Array.toList_modify, Array.toList_modify]
  exact list_modify h i hf

end lists

/-! ### Bindings -/

section bindings

variable [Comparison] {R : Kin α} {b c : Bindings α} {x y : NameId}

/-- Under names that are spelled alike the same is found. -/
theorem bindings_get? (h : R.bindings w b c) (hw : w.Valid) (hn : w.Spelled x y) :
    R.option w (b.get? x) (c.get? y) := by
  unfold Bindings.get?
  replace h : (name.prod R).list w b.entries c.entries := h
  generalize b.entries = es at h
  generalize c.entries = fs at h
  induction h with
  | nil => exact .none
  | cons he _ ih =>
      simp only [Bindings.find, ← he.1.eq_iff hw hn]
      split
      · exact .some he.2
      · exact ih

/-- Names that are spelled alike are set to the same. -/
theorem bindings_insert (h : R.bindings w b c) (hw : w.Valid) (hn : w.Spelled x y) {a d : α}
    (ha : R w a d) : R.bindings w (b.insert x a) (c.insert y d) := by
  change (name.prod R).list w (Bindings.insertEntry _ _ _) (Bindings.insertEntry _ _ _)
  replace h : (name.prod R).list w b.entries c.entries := h
  generalize b.entries = es at h
  generalize c.entries = fs at h
  induction h with
  | nil => exact .cons ⟨hn, ha⟩ .nil
  | cons he hrest ih =>
      simp only [Bindings.insertEntry, ← he.1.eq_iff hw hn]
      split
      · exact .cons ⟨hn, ha⟩ hrest
      · exact .cons he ih

/-- A name that is no longer bound may be taken out on both sides. -/
theorem bindings_erase (h : R.bindings w b c) (hw : w.Valid) (hn : w.Spelled x y) :
    R.bindings w (b.erase x) (c.erase y) := by
  change (name.prod R).list w (List.filter _ _) (List.filter _ _)
  replace h : (name.prod R).list w b.entries c.entries := h
  generalize b.entries = es at h
  generalize c.entries = fs at h
  induction h with
  | nil => exact .nil
  | cons he hrest ih =>
      simp only [List.filter_cons, decide_eq_true_eq, ne_eq, ← he.1.eq_iff hw hn]
      split
      · exact .cons he ih
      · exact ih

end bindings

end Kin

/-! ### Values -/

/-- Symbols of names that are spelled alike, and otherwise the same value. -/
inductive Value.Alike (w : Tables) : Value → Value → Prop where
  | nil : Alike w .nil .nil
  | bool (b : Bool) : Alike w (.bool b) (.bool b)
  | int (i : Int64) : Alike w (.int i) (.int i)
  | float (x : Float) : Alike w (.float x) (.float x)
  | str (id : StringId) : Alike w (.str id) (.str id)
  | sym {x y : NameId} (h : w.Spelled x y) : Alike w (.sym x) (.sym y)
  | arr (id : ArrayId) : Alike w (.arr id) (.arr id)
  | cls (id : ClassId) : Alike w (.cls id) (.cls id)
  | obj (id : ObjectId) : Alike w (.obj id) (.obj id)
  | bound (id : BoundId) : Alike w (.bound id) (.bound id)

abbrev Kin.value : Kin Value where
  rel := Value.Alike
  mono := by
    rintro w w' a b hw (_ | _ | _ | _ | _ | h | _ | _ | _ | _)
    case sym => exact .sym (h.mono hw)
    all_goals constructor

abbrev Kin.values : Kin (List Value) := Kin.value.list

namespace Value.Alike

variable {v v' u u' : Value}

/-- Truth does not depend on names. -/
theorem truthy_eq (h : Alike w v v') : v'.truthy = v.truthy := by
  cases h <;> rfl

theorem isNil_eq (h : Alike w v v') : v'.isNil = v.isNil := by
  cases h <;> rfl

/-- Whether two values are the same one does not depend on where names stand. -/
theorem identical_eq [Comparison] (h : Alike w v v') (hw : w.Valid) (hu : Alike w u u') :
    v'.identical u' = v.identical u := by
  cases h with
  | sym h =>
      cases hu with
      | sym hu =>
          have same := h.eq_iff hw hu
          rw [Value.identical, Value.identical, Bool.eq_iff_iff, beq_iff_eq, beq_iff_eq]
          exact same.symm
      | _ => rfl
  | _ => cases hu <;> rfl

end Value.Alike

/-! ### Methods -/

/-- Accessors of instance variables whose names are spelled alike, and otherwise the same native
method. -/
inductive Native.Alike (w : Tables) : Native → Native → Prop where
  | reader {x y : NameId} (h : w.Spelled x y) : Alike w (.reader x) (.reader y)
  | writer {x y : NameId} (h : w.Spelled x y) : Alike w (.writer x) (.writer y)
  | same (op : Native) (hr : ∀ x, op ≠ .reader x) (hw : ∀ x, op ≠ .writer x) : Alike w op op

inductive Method.Alike (w : Tables) : Method → Method → Prop where
  | native {x y : NameId} {op op' : Native} (hn : w.Spelled x y) (arity : Arity)
      (ho : op.Alike w op') : Alike w (.native x arity op) (.native y arity op')
  | defined {x y : NameId} {ps ps' : List (Param Node)} {a a' : Node} (hn : w.Spelled x y)
      (hp : Kin.params w ps ps') (hb : Kin.node w a a') (scope : Scope) :
      Alike w (.defined x ps a scope) (.defined y ps' a' scope)

/-- Native methods that correspond do so when more names are known. -/
theorem Native.Alike.mono {op op' : Native} (hw : w ≤ w') (h : op.Alike w op') :
    op.Alike w' op' := by
  cases h with
  | reader h => exact .reader (h.mono hw)
  | writer h => exact .writer (h.mono hw)
  | same op hr hw => exact .same op hr hw

abbrev Kin.method : Kin Method where
  rel := Method.Alike
  mono := by
    rintro w w' a b hw (⟨hn, arity, ho⟩ | ⟨hn, hp, hb, scope⟩)
    · exact .native (hn.mono hw) arity (ho.mono hw)
    · exact .defined (hn.mono hw) (Kin.params.mono hw hp) (hb.later hw) scope

namespace Method.Alike

variable {f f' : Method}

/-- The names of methods that correspond have one text. -/
theorem name (h : Alike w f f') : w.Spelled f.name f'.name := by
  cases h with
  | native hn | defined hn => exact hn

/-- Methods that correspond take as many arguments. -/
theorem arity_eq (h : Alike w f f') : f'.arity = f.arity := by
  cases h with
  | native => rfl
  | @defined _ _ ps ps' _ _ hn hp hb scope =>
      have count : ps'.countP (fun p => p.default?.isNone) =
          ps.countP fun p => p.default?.isNone := by
        induction hp with
        | nil => rfl
        | cons h _ ih =>
            obtain ⟨-, hd⟩ := h
            rw [List.countP_cons, List.countP_cons, ih]
            cases hd <;> rfl
      change Method.arityOf ps' = Method.arityOf ps
      rw [arityOf, arityOf, count, List.Forall₂.length_eq hp]

end Method.Alike

end MiniRuby
