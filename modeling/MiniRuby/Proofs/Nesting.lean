import MiniRuby.Proofs.Listing
import MiniRuby.Proofs.Termination

/-!
# Showing nested arrays

To show an array is to show its elements, by a call for each of them.  An array that is an element
of itself is cut off there: in its place stands a hint.  This is all that is looked at, so what is
shown of a value depends on how many more calls may be made (`Heap.drawn`).

Arrays may also hold themselves through others.  In the picture of a value an array is cut off
wherever it is within itself, however far inside (`Heap.picture`).  An array that holds itself
through another one is never cut off, and no number of calls is enough to show it; otherwise there
are no more calls within each other than there are values on a path downwards, and what they make is
the picture.

* `Heap.drawn_eq_none`: arrays that hold each other cannot be shown.
* `Heap.drawn_eq_picture`: all other values are, as in their picture.
* `Run.draws_inspect`: what there is to be shown is shown, by induction on the fuel.
* `inspect_nested`: which values are shown when all is shown natively, and how.
-/

namespace MiniRuby

namespace Heap

variable {h : Heap} {text : Value → String} {v w u : Value} {a b : ArrayId}

/-! ### Arrays within arrays -/

theorem Contains.trans (hv : h.Contains v w) (hw : h.Contains w u) : h.Contains v u := by
  induction hv with
  | self => exact hw
  | element he _ ih => exact .element he (ih hw)

/-- What is found in something that is no array is this itself. -/
theorem Contains.exists_arr (hv : h.Contains v w) (other : v ≠ w) : ∃ id, v = .arr id := by
  cases hv with
  | self => exact absurd rfl other
  | element => exact ⟨_, rfl⟩

/-- Whether a value is an element of an array. -/
def Encloses (h : Heap) (v w : Value) : Prop := ∃ id, v = .arr id ∧ w ∈ h.elements id

/-- Whether an array that is found in a value holds itself through another one. -/
def Tangled (h : Heap) (v : Value) : Prop :=
  ∃ a b : ArrayId, a ≠ b ∧ h.Contains v (.arr a) ∧ h.Contains (.arr a) (.arr b) ∧
    h.Contains (.arr b) (.arr a)

/-- What is on a path downwards is found at its beginning. -/
theorem contains_of_mem_path {vs : List Value} (hp : List.IsChain h.Encloses (v :: vs))
    (hw : w ∈ v :: vs) : h.Contains v w := by
  induction vs generalizing v with
  | nil =>
      obtain rfl := List.mem_singleton.mp hw
      exact .self w
  | cons u vs ih =>
      obtain ⟨⟨id, rfl, hu⟩, rest⟩ := List.isChain_cons_cons.mp hp
      rcases List.mem_cons.mp hw with rfl | hw
      · exact .self _
      · exact .element hu (ih rest hw)

/-- Arrays in which there are only themselves and arrays further on do not hold each other. -/
theorem not_tangled_of_le
    (forward : ∀ a : ArrayId, ∀ v ∈ h.elements a, ∀ b, v = .arr b → a.index ≤ b.index) :
    ¬ h.Tangled v := by
  have le {v w : Value} (found : h.Contains v w) :
      ∀ a b : ArrayId, v = .arr a → w = .arr b → a.index ≤ b.index := by
    induction found with
    | self =>
        rintro a b rfl ⟨⟩
        exact Nat.le_refl _
    | @element c u w he hu ih =>
        rintro a b ⟨⟩ rfl
        by_cases same : u = .arr b
        · exact forward c u he b same
        · obtain ⟨d, rfl⟩ := hu.exists_arr same
          exact (forward c _ he d rfl).trans (ih d b rfl rfl)
  rintro ⟨a, b, ne, -, down, up⟩
  have same := Nat.le_antisymm (le down a b rfl rfl) (le up b a rfl rfl)
  exact ne (by cases a; cases b; exact congrArg ArrayId.mk same)

/-! ### What is shown -/

/-- A row of texts in brackets. -/
def bracketed (parts : List String) : String := "[" ++ ", ".intercalate parts ++ "]"

/-- What is shown of a value by so many calls within each other, given the texts of what is no
array; nothing, if they are too few. -/
def drawn (h : Heap) (text : Value → String) : Nat → Value → Option String
  | 0, _ => none
  | n + 1, .arr id => ((h.elements id).toList.mapM fun (v : Value) =>
      if v.identical (.arr id) then some "[...]" else h.drawn text n v).map bracketed
  | _ + 1, v => some (text v)

/-- The picture of a value within the arrays on a path: an array that is on the path is only hinted
at. -/
def picture (h : Heap) (text : Value → String) (path : List ArrayId) : Value → String
  | .arr id =>
    if id ∈ path then "[...]"
    else if (h.elements id).isEmpty then bracketed []
    else bracketed ((h.elements id).toList.map (h.picture text (id :: path)))
  | v => text v
termination_by (h.offPath path).card
decreasing_by exact card_offPath_lt (Bool.eq_false_iff.mpr ‹_›) ‹_›

section Picture

variable {path : List ArrayId}

theorem picture_cut (again : a ∈ path) : h.picture text path (.arr a) = "[...]" := by
  rw [picture, if_pos again]

theorem picture_arr (fresh : a ∉ path) : h.picture text path (.arr a) =
    bracketed ((h.elements a).toList.map (h.picture text (a :: path))) := by
  rw [picture, if_neg fresh]
  split
  · rename_i none
    rw [Array.isEmpty_iff.mp none]
    rfl
  · rfl

theorem picture_of_not_arr (other : ∀ id, v ≠ .arr id) : h.picture text path v = text v := by
  cases v with
  | arr id => exact absurd rfl (other id)
  | _ =>
      rw [Heap.picture]
      nofun

end Picture

theorem drawn_of_not_arr (n : Nat) (other : ∀ id, v ≠ .arr id) :
    h.drawn text (n + 1) v = some (text v) := by
  cases v with
  | arr id => exact absurd rfl (other id)
  | _ => rfl

theorem isSome_mapM {α β : Type} {f : α → Option β} {as : List α} :
    (as.mapM f).isSome = true ↔ ∀ a ∈ as, (f a).isSome = true := by
  induction as with
  | nil => simp
  | cons a as ih =>
      rw [List.mapM_cons, List.forall_mem_cons, ← ih]
      cases f a <;> cases as.mapM f <;> simp

theorem mapM_eq_some_map {α β : Type} {f : α → Option β} {g : α → β} {as : List α}
    (h : ∀ a ∈ as, f a = some (g a)) : as.mapM f = some (as.map g) := by
  induction as with
  | nil => rfl
  | cons a as ih =>
      rw [List.mapM_cons, h a (.head _), ih fun b hb => h b (.tail _ hb)]
      rfl

/-! ### Arrays that hold each other -/

/-- The elements of an array that is shown are shown with one call less, all but itself. -/
theorem drawn_element {n : Nat} (shown : (h.drawn text n (.arr a)).isSome = true)
    (hv : v ∈ h.elements a) (other : v ≠ .arr a) :
    ∃ k < n, (h.drawn text k v).isSome = true := by
  cases n with
  | zero => cases shown
  | succ k =>
      rw [drawn, Option.isSome_map, isSome_mapM] at shown
      have element := shown v (Array.mem_toList_iff.mpr hv)
      rw [if_neg fun same => other (Value.eq_of_identical_arr same)] at element
      exact ⟨k, k.lt_succ_self, element⟩

/-- So is all else that is found in it. -/
theorem drawn_contained {n : Nat} (shown : (h.drawn text n v).isSome = true)
    (hw : h.Contains v w) : v = w ∨ ∃ k < n, (h.drawn text k w).isSome = true := by
  induction hw generalizing n with
  | self => exact .inl rfl
  | @element a u w he _ ih =>
      by_cases same : u = .arr a
      · subst same
        exact ih shown
      · obtain ⟨k, hk, inner⟩ := drawn_element shown he same
        refine .inr ?_
        rcases ih inner with rfl | ⟨l, hl, deeper⟩
        · exact ⟨k, hk, inner⟩
        · exact ⟨l, hl.trans hk, deeper⟩

/-- **Arrays that hold each other cannot be shown**: by way of the other one, each would be shown by
fewer calls than itself. -/
theorem drawn_eq_none (tangled : h.Tangled v) (n : Nat) : h.drawn text n v = none := by
  obtain ⟨a, b, ne, found, down, up⟩ := tangled
  have never (n : Nat) : ¬ (h.drawn text n (.arr a)).isSome = true := by
    induction n using Nat.strong_induction_on with
    | _ n ih =>
        intro shown
        obtain ⟨k, hk, inner⟩ :=
          (drawn_contained shown down).resolve_left fun same => ne (Value.arr.inj same)
        obtain ⟨l, hl, again⟩ :=
          (drawn_contained inner up).resolve_left fun same => ne (Value.arr.inj same).symm
        exact ih l (hl.trans hk) again
  by_contra some
  have shown : (h.drawn text n v).isSome = true := Option.isSome_iff_ne_none.mpr some
  rcases drawn_contained shown found with rfl | ⟨k, -, inner⟩
  · exact never n shown
  · exact never k inner

/-! ### Arrays that do not -/

/-- **All other values are shown as in their picture**, within arrays that they are found in, if
there are no more values on a path downwards than calls.  What is on the path upwards cannot be met
again but as an element of itself. -/
theorem drawn_eq_picture {n : Nat} {path : List ArrayId} (untangled : ¬ h.Tangled v)
    (within : ∀ a ∈ path, h.Contains (.arr a) v) (fresh : ∀ a ∈ path, v ≠ .arr a)
    (room : ∀ vs, List.IsChain h.Encloses (v :: vs) → (v :: vs).Nodup → (v :: vs).length ≤ n) :
    h.drawn text n v = some (h.picture text path v) := by
  induction n generalizing v path with
  | zero => exact absurd (room [] (.singleton v) (List.nodup_singleton v)) (Nat.not_succ_le_zero _)
  | succ n ih =>
      by_cases other : ∀ id, v ≠ .arr id
      · rw [drawn_of_not_arr n other, picture_of_not_arr other]
      obtain ⟨a, rfl⟩ := not_forall_not.mp other
      rw [drawn, picture_arr fun ha => fresh a ha rfl]
      rw [mapM_eq_some_map (g := h.picture text (a :: path)), Option.map_some]
      intro w hw
      have hw : w ∈ h.elements a := Array.mem_toList_iff.mp hw
      split
      · rename_i same
        rw [Value.eq_of_identical_arr same, picture_cut (.head _)]
      rename_i differs
      have ne : w ≠ .arr a := fun same => differs (same ▸ Value.identical_self w)
      have down : h.Contains (.arr a) w := .element hw (.self w)
      have apart : ¬ h.Contains w (.arr a) := by
        intro up
        obtain ⟨b, rfl⟩ := up.exists_arr ne
        exact untangled ⟨a, b, fun same => ne (congrArg Value.arr same.symm), .self _, down, up⟩
      refine ih ?_ ?_ ?_ fun vs chain nodup => ?_
      · rintro ⟨b, c, distinct, found, both⟩
        exact untangled ⟨b, c, distinct, down.trans found, both⟩
      · exact List.forall_mem_cons.mpr ⟨down, fun b hb => (within b hb).trans down⟩
      · refine List.forall_mem_cons.mpr ⟨ne, fun b hb same => apart ?_⟩
        exact same ▸ within b hb
      · have longer := room (w :: vs) (.cons_cons ⟨a, rfl, hw⟩ chain) (List.nodup_cons.mpr
          ⟨fun again => apart (contains_of_mem_path chain again), nodup⟩)
        exact Nat.le_of_succ_le_succ longer

/-- On a path downwards all but the last one are arrays. -/
theorem exists_arrays_of_path {vs : List Value} (hp : List.IsChain h.Encloses (v :: vs)) :
    ∃ ids : List ArrayId, ids.map Value.arr = (v :: vs).dropLast ∧
      ∀ id ∈ ids, id.index < h.arrays.size := by
  induction vs generalizing v with
  | nil => exact ⟨[], rfl, nofun⟩
  | cons u vs ih =>
      obtain ⟨⟨id, rfl, hu⟩, rest⟩ := List.isChain_cons_cons.mp hp
      obtain ⟨ids, arrays, there⟩ := ih rest
      refine ⟨id :: ids, by rw [List.map_cons, arrays, List.dropLast_cons_cons],
        List.forall_mem_cons.mpr ⟨index_lt_of_elements ?_, there⟩⟩
      refine Bool.eq_false_iff.mpr fun none => ?_
      rw [Array.isEmpty_iff.mp none] at hu
      exact Array.not_mem_empty u hu

/-- So there are no more values on it than there are arrays, and one. -/
theorem length_le_of_path {vs : List Value} (hp : List.IsChain h.Encloses (v :: vs))
    (nodup : (v :: vs).Nodup) : (v :: vs).length ≤ h.arrays.size + 1 := by
  obtain ⟨ids, arrays, there⟩ := exists_arrays_of_path hp
  have distinct : ids.Nodup := by
    refine List.Nodup.of_map Value.arr ?_
    rw [arrays]
    exact nodup.sublist (List.dropLast_sublist _)
  have fewer := ArrayId.length_le distinct there
  have size := congrArg List.length arrays
  rw [List.length_map, List.length_dropLast] at size
  omega

end Heap

/-! ### Showing what there is -/

theorem Catalogue.inspectors_exact :
    ∀ e ∈ entries, e.name = "inspect" → e.arity = .exact 0 := by
  decide +kernel

namespace Machine

/-- The native methods that show values take no arguments. -/
theorem ShowsNatively.find_exact {m : Machine} {v : Value} {op : Native} (h : m.ShowsNatively v)
    (hop : (v.sort, op) ∈ Catalogue.inspectors) :
    ∃ name owner,
      m.findMethod? v .inspect = .ok (some (.native name (.exact 0) op, owner)) := by
  obtain ⟨name, arity, owner, found⟩ := h.find hop
  obtain ⟨e, he, -, hname, shown⟩ := h
  rw [inspector?, found] at shown
  obtain rfl : arity = .exact 0 :=
    (congrArg Prod.fst (Option.some.inj shown)).trans (Catalogue.inspectors_exact e he hname)
  exact ⟨name, owner, found⟩

/-- Whether a value is an array, a string that is there, or `nil`, a boolean, an integer or a
symbol, and is shown natively. -/
def IsDrawn (m : Machine) : Value → Prop
  | .str id => id.index < m.heap.strings.size ∧ m.ShowsNatively (.str id)
  | .float _ | .cls _ | .obj _ | .bound _ => False
  | v => m.ShowsNatively v

instance {m : Machine} : DecidablePred m.IsDrawn
  | .str _ => inferInstanceAs (Decidable (_ ∧ _))
  | .float _ | .cls _ | .obj _ | .bound _ => .isFalse id
  | .nil | .bool _ | .int _ | .sym _ | .arr _ => inferInstanceAs (Decidable (m.ShowsNatively _))

/-- What is shown of a value that is no array. -/
def plainly (m : Machine) : Value → String
  | .nil => "nil"
  | .bool true => "true"
  | .bool false => "false"
  | .int i => Integer.text i
  | .sym name => ":" ++ m.names.text name
  | .str id => Text.inspect (m.heap.text id)
  | _ => ""

end Machine

namespace Run

variable {m : Machine} {α β : Type} {x : Run α} {f : α → Run β} {a? : Option α} {g : α → Option β}

/-- What there is, or else the failure when calls are nested too deeply. -/
def orTooDeep : Option α → Run α
  | some a => pure a
  | none => fault .tooDeep

/-- Whether an action comes to the same as giving what there is, or failing for calls that are
nested too deeply, up to strings that are made on the way, on a machine with strings added or not.
-/
def Draws (m : Machine) (a? : Option α) (x : Run α) : Prop :=
  ∀ cells sink, ∃ more, x (m.page cells sink) = orTooDeep a? (m.page (cells ++ more) sink)

namespace Draws

theorem same (h : ∀ cells sink, x (m.page cells sink) = orTooDeep a? (m.page cells sink)) :
    Draws m a? x :=
  fun cells sink => ⟨#[], by rw [Array.append_empty, h]⟩

theorem bind (hx : Draws m a? x) (hf : ∀ a ∈ a?, Draws m (g a) (f a)) :
    Draws m (a?.bind g) (x >>= f) := by
  intro cells sink
  obtain ⟨more, e⟩ := hx cells sink
  rw [Action.bind_eq_andThen, e]
  cases a? with
  | none => exact ⟨more, rfl⟩
  | some a =>
      obtain ⟨more', e'⟩ := hf a rfl (cells ++ more) sink
      refine ⟨more ++ more', ?_⟩
      rw [← Array.append_assoc]
      exact e'

/-- What is given for each element in turn. -/
theorem each {γ : Type} {f : γ → Run β} {g : γ → Option β} {cs : List γ}
    (h : ∀ c ∈ cs, Draws m (g c) (f c)) : Draws m (cs.mapM g) (Action.each f cs) := by
  induction cs with
  | nil => exact same fun _ _ => rfl
  | cons c cs ih =>
      rw [Action.each_cons, List.mapM_cons]
      refine (h c (.head _)).bind fun b _ => ?_
      exact (ih fun c hc => h c (.tail _ hc)).bind fun bs _ => same fun _ _ => rfl

end Draws

section Inspect

variable {v : Value} {op : Native} {fuel : Nat}

/-- **How a value is shown by a native method** that works out a text, one level deeper, and makes
it a string. -/
theorem draws_native {t? : Option String} {x : Run String} (op : Native) (h : m.ShowsNatively v)
    (hop : (v.sort, op) ∈ Catalogue.inspectors)
    (same : ∀ cells sink, (m.page cells sink).findMethod? v .inspect = m.findMethod? v .inspect)
    (runs : op.run fuel (Perform.invoke (perform fuel)) v [] = x >>= newString)
    (hx : m.depth < maxDepth → Draws { m with depth := m.depth + 1 } t? x) :
    Draws m (if m.depth < maxDepth then t? else none)
      (Run.inspect (Perform.invoke (perform (fuel + 1))) v) := by
  obtain ⟨name, owner, found⟩ := h.find_exact hop
  intro cells sink
  have found : (m.page cells sink).findMethod? v .inspect =
      .ok (some (.native name (.exact 0) op, owner)) := (same cells sink).trans found
  have shows : Run.inspect (Perform.invoke (perform (fuel + 1))) v (m.page cells sink) =
      ((perform (fuel + 1) (.invoke (.native name (.exact 0) op) v []) (m.page cells sink)).andThen
        (textOr v)) := by
    rw [inspect, Action.bind_eq_andThen, send_of_found found]
    rfl
  rw [shows]
  split
  · rename_i hd
    have callable : (Method.native name (.exact 0) op).Callable [] (m.page cells sink) := ⟨rfl, hd⟩
    obtain ⟨more, e⟩ := hx hd cells sink
    have e : x { m.page cells sink with depth := (m.page cells sink).depth + 1 } = _ := e
    rw [perform_native callable, runs, Action.bind_eq_andThen, e]
    cases t? with
    | none => exact ⟨more, rfl⟩
    | some t =>
        refine ⟨more ++ #[⟨.string, t⟩], ?_⟩
        simp [orTooDeep, Action.pure_apply, Outcome.andThen, Outcome.leave, Machine.left,
          Machine.page, newString, allocate, Action.transform, Heap.newString, textOr, Action.view,
          Heap.text?, Heap.text, Heap.string]
  · rename_i hd
    have deep : perform (fuel + 1) (.invoke (.native name (.exact 0) op) v []) (m.page cells sink) =
      .failed (.ofFault .tooDeep) (m.page cells sink) := Perform.call_of_too_deep _ rfl hd
    rw [deep]
    exact ⟨#[], by rw [Array.append_empty]; rfl⟩

/-- What is no array is shown at once. -/
theorem draws_plainly (h : m.IsDrawn v) (other : ∀ id, v ≠ .arr id) :
    Draws m (if m.depth < maxDepth then some (m.plainly v) else none)
      (Run.inspect (Perform.invoke (perform (fuel + 1))) v) := by
  have given (t : String) (_ : m.depth < maxDepth) :
      Draws { m with depth := m.depth + 1 } (some t) (pure t) := .same fun _ _ => rfl
  cases v with
  | nil => exact draws_native (.truth (.text "nil")) h (by decide) (fun _ _ => rfl) rfl (given _)
  | bool b =>
      cases b with
      | true =>
          exact draws_native (.truth (.text "true")) h (by decide) (fun _ _ => rfl) rfl (given _)
      | false =>
          exact draws_native (.truth (.text "false")) h (by decide) (fun _ _ => rfl) rfl (given _)
  | int i =>
      exact draws_native (.integer .toS) h (by simp [Catalogue.inspectors, Value.sort])
        (fun _ _ => rfl) rfl (given _)
  | sym name =>
      exact draws_native (x := Action.view fun m => ":" ++ m.names.text name) (.symbol .inspect) h
        (by simp [Catalogue.inspectors, Value.sort]) (fun _ _ => rfl) rfl
        fun _ => .same fun _ _ => rfl
  | str id =>
      have kept (cells : Array StringCell) (sink : Sink) :
          (m.page cells sink).heap.string id = m.heap.string id := by
        simp [Heap.string, Machine.page, Array.getElem?_append_left h.1]
      refine draws_native (x := Action.view fun m => Text.inspect (m.heap.text id))
        (.string .inspect) h.2 (by simp [Catalogue.inspectors, Value.sort])
        (fun cells sink => ?_) rfl fun _ => .same fun cells sink => ?_
      · simp only [Machine.findMethod?, Machine.classOf, ClassTable.classOf, Heap.home, kept]
        rfl
      · have text : (m.page cells sink).heap.text id = m.heap.text id :=
          congrArg StringCell.text (kept cells sink)
        rw [Machine.plainly, ← text]
        rfl
  | arr id => exact absurd rfl (other id)
  | float | cls | obj | bound => exact h.elim

/-- An array is shown by its elements, itself left out, each of which is shown one level deeper. -/
theorem draws_array {a : ArrayId} (h : m.IsDrawn (.arr a)) (n : Nat)
    (elements : m.depth < maxDepth → ∀ w ∈ m.heap.elements a,
      Draws { m with depth := m.depth + 1 } (m.heap.drawn m.plainly n w)
        (Run.inspect (Perform.invoke (perform fuel)) w)) :
    Draws m (if m.depth < maxDepth then m.heap.drawn m.plainly (n + 1) (.arr a) else none)
      (Run.inspect (Perform.invoke (perform (fuel + 1))) (.arr a)) := by
  let part (w : Value) : Run String :=
    if w.identical (.arr a) then pure "[...]" else Run.inspect (Perform.invoke (perform fuel)) w
  refine draws_native (x := do
    let elements ← ArrayOp.selfElements (.arr a)
    let parts ← Action.each part elements.toList
    pure (Heap.bracketed parts)) (.array .inspect) h (by simp [Catalogue.inspectors, Value.sort])
    (fun _ _ => rfl) ?_ ?_
  · simp only [bind_assoc, pure_bind]
    rfl
  intro hd
  have parts : Draws { m with depth := m.depth + 1 } _ (Action.each part _) :=
    .each (g := fun w => if w.identical (.arr a) then some "[...]" else m.heap.drawn m.plainly n w)
      fun w hw => by
        show Draws _ _ (part w)
        unfold part
        split
        · exact .same fun _ _ => rfl
        · exact elements hd w (Array.mem_toList_iff.mp hw)
  have row := parts.bind (f := fun parts => pure (Heap.bracketed parts))
    (g := fun parts => some (Heap.bracketed parts)) fun parts _ => .same fun _ _ => rfl
  rw [Heap.drawn, Option.map_eq_bind]
  intro cells sink
  exact row cells sink

/-- **What there is to be shown is shown.**  All that is found in a value being such as can be
shown, it is shown with as many calls as there may still be, if there is fuel for them. -/
theorem draws_inspect (fuel : Nat) {m : Machine} {v : Value}
    (drawn : ∀ w, m.heap.Contains v w → m.IsDrawn w) (enough : maxDepth - m.depth < fuel) :
    Draws m (m.heap.drawn m.plainly (maxDepth - m.depth) v)
      (Run.inspect (Perform.invoke (perform fuel)) v) := by
  induction fuel generalizing m v with
  | zero => exact absurd enough (Nat.not_lt_zero _)
  | succ fuel ih =>
      have here := drawn v (.self v)
      by_cases other : ∀ id, v ≠ .arr id
      · have plainly : Draws m _ (Run.inspect (Perform.invoke (perform (fuel + 1))) v) :=
          draws_plainly here other
        split at plainly
        · rename_i hd
          rwa [show maxDepth - m.depth = maxDepth - (m.depth + 1) + 1 by omega,
            Heap.drawn_of_not_arr _ other]
        · rename_i hd
          rwa [show maxDepth - m.depth = 0 by omega]
      obtain ⟨a, rfl⟩ := not_forall_not.mp other
      have nested : Draws m _ (Run.inspect (Perform.invoke (perform (fuel + 1))) (.arr a)) :=
        draws_array here (maxDepth - (m.depth + 1)) fun hd w hw =>
          ih (m := { m with depth := m.depth + 1 }) (fun u hu => drawn u (.element hw hu))
            (show maxDepth - (m.depth + 1) < fuel by omega)
      split at nested
      · rename_i hd
        rwa [show maxDepth - m.depth = maxDepth - (m.depth + 1) + 1 by omega]
      · rename_i hd
        rwa [show maxDepth - m.depth = 0 by omega]

end Inspect

end Run

/-- **Showing nested arrays.**  Let all that is found in a value be arrays, `nil`, booleans,
integers, symbols and strings, each shown natively, and let no path downwards, on which no value
occurs twice, have more values than there may still be calls.  The value is shown as in its picture
unless an array in it holds itself through another one.  If one does, showing it fails for calls
that are nested too deeply. -/
theorem inspect_nested {m : Machine} {v : Value} {fuel : Nat}
    (drawn : ∀ w, m.heap.Contains v w → m.IsDrawn w)
    (room : ∀ vs, List.IsChain m.heap.Encloses (v :: vs) → (v :: vs).Nodup →
      (v :: vs).length ≤ maxDepth - m.depth)
    (enough : maxDepth - m.depth < fuel) :
    (¬ m.heap.Tangled v → ∃ cells, Run.inspect (Perform.invoke (perform fuel)) v m =
      .done (m.heap.picture m.plainly [] v) (m.page cells m.sink)) ∧
    (m.heap.Tangled v → ∃ cells, Run.inspect (Perform.invoke (perform fuel)) v m =
      .failed (.ofFault .tooDeep) (m.page cells m.sink)) := by
  obtain ⟨cells, e⟩ := Run.draws_inspect fuel drawn enough #[] m.sink
  rw [m.page_self, Array.empty_append] at e
  refine ⟨fun untangled => ⟨cells, e.trans ?_⟩, fun tangled => ⟨cells, e.trans ?_⟩⟩
  · rw [Heap.drawn_eq_picture untangled (List.forall_mem_nil _) (List.forall_mem_nil _) room]
    rfl
  · rw [Heap.drawn_eq_none tangled]
    rfl

/-- An array that holds another one twice, and itself in between, is shown, and one that holds
itself through another one is not. -/
theorem inspect_nested_cyclic :
    let m₀ := ((Machine.bare (.collecting "")).install
      ⟨.integer, "inspect", .exact 0, .integer .toS⟩).install
      ⟨.array, "inspect", .exact 0, .array .inspect⟩
    let m (arrays : Array ArrayCell) := { m₀ with heap := { m₀.heap with arrays := arrays } }
    let m₁ := m #[⟨.array, #[.arr ⟨1⟩, .arr ⟨0⟩, .arr ⟨1⟩]⟩, ⟨.array, #[.int 2]⟩]
    let m₂ := m #[⟨.array, #[.arr ⟨1⟩]⟩, ⟨.array, #[.arr ⟨0⟩]⟩]
    let Suited (m : Machine) := (∀ w, m.heap.Contains (.arr ⟨0⟩) w → m.IsDrawn w) ∧
      (∀ vs, List.IsChain m.heap.Encloses (.arr ⟨0⟩ :: vs) → (.arr ⟨0⟩ :: vs).Nodup →
        (Value.arr ⟨0⟩ :: vs).length ≤ maxDepth - m.depth) ∧ maxDepth - m.depth < 201
    Suited m₁ ∧ Suited m₂ ∧
    (∃ cells, Run.inspect (Perform.invoke (perform 201)) (.arr ⟨0⟩) m₁ =
      .done "[[2], [...], [2]]" (m₁.page cells m₁.sink)) ∧
    ∃ cells, Run.inspect (Perform.invoke (perform 201)) (.arr ⟨0⟩) m₂ =
      .failed (.ofFault .tooDeep) (m₂.page cells m₂.sink) := by
  intro m₀ m m₁ m₂ Suited
  have suited (arrays : Array ArrayCell) (few : arrays.size = 2)
      (elements : ∀ cell ∈ arrays, ∀ v ∈ cell.elements, (m arrays).IsDrawn v)
      (here : (m arrays).IsDrawn (.arr ⟨0⟩)) : Suited (m arrays) := by
    have calls : maxDepth - (m arrays).depth = 200 := rfl
    refine ⟨fun w hw => hw.of_elements elements here, fun vs chain nodup => ?_, by omega⟩
    have size : (m arrays).heap.arrays.size = 2 := few
    have le := Heap.length_le_of_path chain nodup
    omega
  have suited₁ : Suited m₁ := suited _ rfl (by decide +kernel) (by decide +kernel)
  have suited₂ : Suited m₂ := suited _ rfl (by decide +kernel) (by decide +kernel)
  have text : m₁.heap.picture m₁.plainly [] (.arr ⟨0⟩) = "[[2], [...], [2]]" := by
    have first : m₁.heap.elements ⟨0⟩ = #[.arr ⟨1⟩, .arr ⟨0⟩, .arr ⟨1⟩] := rfl
    have second : m₁.heap.elements ⟨1⟩ = #[.int 2] := rfl
    have two : m₁.plainly (.int 2) = "2" := by decide +kernel
    simp [Heap.picture, first, second, two, Heap.bracketed]
  have untangled : ¬ m₁.heap.Tangled (.arr ⟨0⟩) := by
    refine Heap.not_tangled_of_le ?_
    rintro ⟨_ | _ | i⟩ v hv b rfl
    · exact Nat.zero_le _
    · have second : m₁.heap.elements ⟨1⟩ = #[.int 2] := rfl
      simp [second] at hv
    · have none : m₁.heap.elements ⟨i + 2⟩ = #[] := rfl
      simp [none] at hv
  have tangled : m₂.heap.Tangled (.arr ⟨0⟩) := by
    have first : m₂.heap.elements ⟨0⟩ = #[.arr ⟨1⟩] := rfl
    have second : m₂.heap.elements ⟨1⟩ = #[.arr ⟨0⟩] := rfl
    exact ⟨⟨0⟩, ⟨1⟩, by decide, .self _, .element (by simp [first]) (.self _),
      .element (by simp [second]) (.self _)⟩
  refine ⟨suited₁, suited₂, ?_, ?_⟩
  · rw [← text]
    exact (inspect_nested suited₁.1 suited₁.2.1 suited₁.2.2).1 untangled
  · exact (inspect_nested suited₂.1 suited₂.2.1 suited₂.2.2).2 tangled

end MiniRuby
