import MiniRuby.Proofs.Evaluator.Literal
import MiniRuby.Proofs.Typing.Classes

/-!
# What is shown can be read back

The text by which a value is shown to programmers is a program, and running it gives the value back.
This is so for the values that hold a datum and are shown, with all their elements, by the native
methods of their classes (`Machine.ShowsNatively`).

Showing a value makes strings and nothing else, so the elements of an array that are shown later
are still what they were (`Machine.AddsTexts`).

* `inspect_spelling`: a value that holds a datum is shown by the spelling of the datum, by
  induction on the fuel.
* `run_inspect`: the text runs, and gives a value that holds the same datum.
-/

namespace MiniRuby

open MiniRuby.Action (bind_of_done)

variable {m m' : Machine} {v w : Value} {d : Datum}

/-! ### Native methods that show values -/

/-- A value is found in another one: it is the other one, or it is found in an element of it. -/
inductive Heap.Contains (h : Heap) : Value → Value → Prop where
  | self (v : Value) : h.Contains v v
  | element {id : ArrayId} {v w : Value} (he : v ∈ h.elements id) (hw : h.Contains v w) :
      h.Contains (.arr id) w

namespace Machine

/-- The native method that a value is shown by, with the arguments that it takes. -/
def inspector? (m : Machine) (v : Value) : Option (Arity × Native) :=
  match m.findMethod? v .inspect with
  | .ok (some (.native _ arity op, _)) => some (arity, op)
  | _ => none

/-- Whether a value is shown by the native method that the catalogue has for such values. -/
def ShowsNatively (m : Machine) (v : Value) : Prop :=
  ∃ e ∈ Catalogue.entries, e.owner = v.sort ∧ e.name = "inspect" ∧
    m.inspector? v = some (e.arity, e.op)

instance : Decidable (m.ShowsNatively v) := inferInstanceAs (Decidable (∃ e ∈ _, _))

/-- Whether a value and all that is found in it are shown by native methods. -/
def ShowsAllNatively (m : Machine) (v : Value) : Prop :=
  ∀ w, m.heap.Contains v w → m.ShowsNatively w

end Machine

theorem Machine.showsAllNatively_iff {id : ArrayId} :
    m.ShowsAllNatively (.arr id) ↔
      m.ShowsNatively (.arr id) ∧ ∀ v ∈ m.heap.elements id, m.ShowsAllNatively v := by
  constructor
  · exact fun h => ⟨h _ (.self _), fun v hv w hw => h w (.element hv hw)⟩
  · rintro ⟨here, elements⟩ w hw
    cases hw with
    | self => exact here
    | element hv hw => exact elements _ hv w hw

theorem Machine.ShowsNatively.all (h : m.ShowsNatively v) (hv : ∀ id, v ≠ .arr id) :
    m.ShowsAllNatively v := by
  intro w hw
  cases hw with
  | self => exact h
  | element => exact absurd rfl (hv _)

/-- The native methods that show values, with the classes that they are for. -/
def Catalogue.inspectors : List (ClassId × Native) :=
  [(.object, .object .inspect), (.classes, .cls .name), (.nilClass, .truth (.text "nil")),
    (.trueClass, .truth (.text "true")), (.falseClass, .truth (.text "false")),
    (.integer, .integer .toS), (.float, .float .toS), (.string, .string .inspect),
    (.symbol, .symbol .inspect), (.array, .array .inspect), (.method, .bound .inspect),
    (.exception, .exception .inspect)]

theorem Catalogue.mem_inspectors :
    ∀ e ∈ entries, e.name = "inspect" → (e.owner, e.op) ∈ inspectors := by
  decide +kernel

theorem Catalogue.inspectors_unique :
    ∀ p ∈ inspectors, ∀ q ∈ inspectors, p.1 = q.1 → p.2 = q.2 := by
  decide +kernel

theorem Machine.ShowsNatively.find {op : Native} (h : m.ShowsNatively v)
    (hop : (v.sort, op) ∈ Catalogue.inspectors) :
    ∃ name arity owner, m.findMethod? v .inspect = .ok (some (.native name arity op, owner)) := by
  obtain ⟨e, he, ho, hname, hf⟩ := h
  obtain rfl : e.op = op :=
    Catalogue.inspectors_unique _ (Catalogue.mem_inspectors e he hname) _ hop ho
  unfold Machine.inspector? at hf
  split at hf
  · rename_i name arity op owner found
    cases hf
    exact ⟨name, e.arity, owner, found⟩
  · cases hf

/-! ### Showing a value -/

/-- A native method that is done has run one level deeper. -/
theorem Perform.run_of_call_done {P : Perform} {fuel : Nat} {name : NameId} {arity : Arity}
    {op : Native} {args : List Value} {r : Value}
    (h : P.call fuel (.native name arity op) v args m = .done r m') :
    m.depth < maxDepth ∧ ∃ m₁, m' = m₁.left ∧
      op.run fuel P.invoke v args { m with depth := m.depth + 1 } = .done r m₁ := by
  by_cases hc : (Method.native name arity op).Callable args m
  · rw [call_of_callable hc, Run.nested_apply] at h
    change (op.run fuel P.invoke v args { m with depth := m.depth + 1 }).leave = _ at h
    cases hrun : op.run fuel P.invoke v args { m with depth := m.depth + 1 } with
    | done r₁ m₁ =>
        rw [hrun] at h
        cases h
        exact ⟨hc.2, m₁, rfl, rfl⟩
    | failed e m₁ =>
        rw [hrun] at h
        cases h
    | halted m₁ =>
        rw [hrun] at h
        cases h
  · obtain ⟨cause, fails⟩ := call_of_not_callable hc
    rw [fails] at h
    cases h

/-- How a value is shown by a native method. -/
theorem inspect_native {fuel : Nat} {t : String} {name : NameId} {arity : Arity} {op : Native}
    {owner : ClassId} (hf : m.findMethod? v .inspect = .ok (some (.native name arity op, owner)))
    (h : Run.inspect (Perform.invoke (perform fuel)) v m = .done t m') :
    ∃ k r m₁, fuel = k + 1 ∧ m.depth < maxDepth ∧ m' = m₁.left ∧
      op.run k (Perform.invoke (perform k)) v [] { m with depth := m.depth + 1 } = .done r m₁ ∧
      t = (m₁.heap.text? r).getD (m₁.left.plainText v) := by
  obtain ⟨r, m₂, hsend, htext⟩ := Action.done_of_bind h
  have found : Run.findMethod v .inspect m = .done (some (.native name arity op, owner)) m :=
    Run.findMethod_of_ok hf
  rw [Run.send, bind_of_done found] at hsend
  cases fuel with
  | zero => cases hsend
  | succ k =>
      obtain ⟨hdepth, m₁, rfl, hrun⟩ := Perform.run_of_call_done (P := perform k) hsend
      cases htext
      exact ⟨k, r, m₁, rfl, hdepth, rfl, hrun, rfl⟩

/-- Whether a machine has, beyond another one, further strings only. -/
structure Machine.AddsTexts (m m' : Machine) : Prop where
  retains : m.Retains m'
  classes : m'.classes = m.classes
  arrays : m'.heap.arrays = m.heap.arrays
  depth : m'.depth = m.depth

namespace Machine.AddsTexts

theorem refl (m : Machine) : m.AddsTexts m := ⟨.refl m, rfl, rfl, rfl⟩

theorem trans {m'' : Machine} (h : m.AddsTexts m') (h' : m'.AddsTexts m'') : m.AddsTexts m'' :=
  ⟨h.retains.trans h'.retains, h'.classes.trans h.classes, h'.arrays.trans h.arrays,
    h'.depth.trans h.depth⟩

/-- Making a string adds it. -/
theorem of_newString {text : String} {r : Value} (h : Run.newString text m = .done r m') :
    m.AddsTexts m' ∧ m'.heap.text? r = some text := by
  cases h
  refine ⟨⟨retains_newString .string text, rfl, rfl, rfl⟩, ?_⟩
  simp [Heap.newString, Heap.text?, Heap.text, Heap.string]

/-- What is added one level deeper is there after the call. -/
theorem leave (h : AddsTexts { m with depth := m.depth + 1 } m') : m.AddsTexts m'.left :=
  ⟨⟨h.retains.names, h.retains.strings, h.retains.arrays⟩, h.classes, h.arrays,
    congrArg (· - 1) h.depth⟩

end Machine.AddsTexts

/-- What holds a datum has its class from a cell that is kept, so the same methods are found for
it. -/
theorem Machine.Holds.findMethod?_eq (h : m.Holds v d) (ha : m.AddsTexts m') (name : NameId) :
    m'.findMethod? v name = m.findMethod? v name := by
  have home : m'.heap.home v = m.heap.home v := by
    cases h with
    | nil | int | sym => rfl
    | bool b => cases b <;> rfl
    | str hc => simp only [Heap.home, Heap.string, hc, ha.retains.strings _ _ hc]
    | arr hc => simp only [Heap.home, Heap.array, hc, ha.retains.arrays _ _ hc]
  have cls : m'.classOf v = m.classOf v := by
    simp only [Machine.classOf, ClassTable.classOf, home, ha.classes]
  cases h <;> simp only [Machine.findMethod?, cls, ha.classes]

/-- All that is found in a value that holds a datum holds one. -/
theorem Machine.Holds.contains (h : m.Holds v d) (hw : m.heap.Contains v w) :
    ∃ d', m.Holds w d' := by
  induction hw generalizing d with
  | self v => exact ⟨d, h⟩
  | element he _ ih =>
      cases h with
      | arr hc hs =>
        simp only [Heap.elements, Heap.array, hc, Option.getD_some] at he
        obtain ⟨d', -, hd'⟩ := exists_of_forall₂ hs (Array.mem_toList_iff.mpr he)
        exact ih hd'

theorem Heap.Contains.congr {h h' : Heap} (ha : h'.arrays = h.arrays) (hw : h'.Contains v w) :
    h.Contains v w := by
  induction hw with
  | self v => exact .self v
  | element he _ ih =>
      refine .element ?_ ih
      simpa only [Heap.elements, Heap.array, ha] using he

/-- Making strings does not change how a value is shown. -/
theorem Machine.ShowsAllNatively.retain (hs : m.ShowsAllNatively v) (h : m.Holds v d)
    (ha : m.AddsTexts m') : m'.ShowsAllNatively v := by
  intro w hw
  have hw := hw.congr ha.arrays
  obtain ⟨d', hd'⟩ := h.contains hw
  obtain ⟨e, he, ho, hname, hf⟩ := hs w hw
  refine ⟨e, he, ho, hname, ?_⟩
  rwa [inspector?, hd'.findMethod?_eq ha]

/-- What showing a value comes to: it is shown by the spelling of its datum, strings are all that
is made, and its levels are not more than there may be open calls. -/
structure Shown (m : Machine) (d : Datum) (t : String) (m' : Machine) : Prop where
  text : t.toList = d.spelling
  adds : m.AddsTexts m'
  within : d.Within (maxDepth - m.depth)

/-- What is shown by a method that makes its text at once, when the text is the spelling. -/
theorem shown_of_text {fuel : Nat} {t : String} (op : Native) (text : String)
    (hs : m.ShowsNatively v) (hop : (v.sort, op) ∈ Catalogue.inspectors)
    (hr : ∀ k invoke, op.run k invoke v [] { m with depth := m.depth + 1 } =
      Run.newString text { m with depth := m.depth + 1 })
    (h : Run.inspect (Perform.invoke (perform fuel)) v m = .done t m')
    (spelled : text.toList = d.spelling) (within : ∀ n, d.Within (n + 1)) : Shown m d t m' := by
  obtain ⟨name, arity, owner, hf⟩ := hs.find hop
  obtain ⟨k, r, m₁, -, hdepth, rfl, hrun, rfl⟩ := inspect_native hf h
  rw [hr] at hrun
  obtain ⟨adds, made⟩ := Machine.AddsTexts.of_newString hrun
  have levels : maxDepth - m.depth = maxDepth - m.depth - 1 + 1 := by omega
  exact ⟨by rw [made, Option.getD_some, spelled], adds.leave, levels ▸ within _⟩

/-! ### Arrays -/

/-- Running an action on each element in turn keeps what each of the runs keeps. -/
theorem Action.forall₂_of_each {σ ε α β : Type} {I : σ → Prop} {R : α → β → Prop}
    {f : α → Action σ ε β} {as : List α} {bs : List β} {s s' : σ}
    (hf : ∀ a ∈ as, ∀ s b s', I s → f a s = .done b s' → I s' ∧ R a b) (hs : I s)
    (h : each f as s = .done bs s') : I s' ∧ List.Forall₂ R as bs := by
  induction as generalizing s bs with
  | nil =>
      cases h
      exact ⟨hs, .nil⟩
  | cons a as ih =>
      rw [each_cons] at h
      obtain ⟨b, s₁, hb, h⟩ := done_of_bind h
      obtain ⟨bs', s₂, hbs, h⟩ := done_of_bind h
      cases h
      obtain ⟨h₁, hr⟩ := hf a (.head _) s b s₁ hs hb
      obtain ⟨h₂, hrs⟩ := ih (fun a ha => hf a (.tail _ ha)) h₁ hbs
      exact ⟨h₂, .cons hr hrs⟩

theorem Value.eq_of_identical_arr {id : ArrayId} (h : v.identical (.arr id) = true) :
    v = .arr id := by
  cases v <;> simp_all [Value.identical]

/-- Whether showing values with certain fuel is as it should be. -/
def ShowsAt (fuel : Nat) : Prop :=
  ∀ {m m' : Machine} {v : Value} {d : Datum} {t : String}, m.Holds v d → m.ShowsAllNatively v →
    Run.inspect (Perform.invoke (perform fuel)) v m = .done t m' → Shown m d t m'

/-- What the texts of elements are, one by one. -/
theorem spellings_of_elements {vs : List Value} {ds : List Datum} {parts : List String} {n : Nat}
    (h : List.Forall₂ m.Holds vs ds)
    (hp : List.Forall₂ (fun v t => ∀ d, m.Holds v d → t.toList = d.spelling ∧ d.Within n)
      vs parts) :
    parts.map String.toList = ds.map Datum.spelling ∧ ∀ d ∈ ds, d.Within n := by
  induction h generalizing parts with
  | nil =>
      cases hp
      exact ⟨rfl, nofun⟩
  | cons hd _ ih =>
      cases hp with
      | cons ht hp =>
        obtain ⟨texts, within⟩ := ih hp
        exact ⟨by rw [List.map_cons, List.map_cons, (ht _ hd).1, texts],
          List.forall_mem_cons.mpr ⟨(ht _ hd).2, within⟩⟩

/-- The texts of the elements of an array, from which its own text is made. -/
theorem inspect_elements {fuel : Nat} (ih : ShowsAt fuel) {id : ArrayId} {cell : ArrayCell}
    {ds : List Datum} {parts : List String} (hc : m.heap.arrays[id.index]? = some cell)
    (hd : List.Forall₂ m.Holds cell.elements.toList ds) (hs : m.ShowsAllNatively (.arr id))
    (hp : Action.each (fun v => if v.identical (.arr id) then pure "[...]"
      else Run.inspect (Perform.invoke (perform fuel)) v) cell.elements.toList m =
        .done parts m') :
    m.AddsTexts m' ∧ parts.map String.toList = ds.map Datum.spelling ∧
      ∀ d ∈ ds, d.Within (maxDepth - m.depth) := by
  refine (Action.forall₂_of_each (I := m.AddsTexts) ?_ (.refl m) hp).imp_right
    (spellings_of_elements hd)
  intro v hv s t s' hadds ht
  obtain ⟨d, hmem, hvd⟩ := exists_of_forall₂ hd hv
  -- The array is not an element of itself, so its element is shown in full.
  have other : v.identical (.arr id) = false := by
    rw [Bool.eq_false_iff]
    exact fun h => (Machine.Holds.arr hc hd).ne_of_mem hmem hvd (Value.eq_of_identical_arr h)
  have natively : m.ShowsAllNatively v := by
    refine fun w hw => hs w (.element ?_ hw)
    simpa only [Heap.elements, Heap.array, hc, Option.getD_some] using Array.mem_toList_iff.mp hv
  rw [other] at ht
  have shown := ih (hvd.retain hadds.retains) (natively.retain hvd hadds) ht
  refine ⟨hadds.trans shown.adds, fun d' hd' => ?_⟩
  obtain rfl := hvd.unique hd'
  exact ⟨shown.text, hadds.depth ▸ shown.within⟩

/-- How an array is shown: its elements are, and the texts are put between brackets. -/
theorem ArrayOp.done_of_inspectElements {invoke : Invoke} {id : ArrayId} {cell : ArrayCell}
    {r : Value} (hc : m.heap.arrays[id.index]? = some cell)
    (h : inspectElements invoke (.arr id) m = .done r m') :
    ∃ parts m₁, Action.each (fun v => if v.identical (.arr id) then pure "[...]"
        else Run.inspect invoke v) cell.elements.toList m = .done parts m₁ ∧
      Run.newString ("[" ++ ", ".intercalate parts ++ "]") m₁ = .done r m' := by
  have elements : selfElements (.arr id) m = .done cell.elements m := by
    change Outcome.done (m.heap.elements id) m = _
    simp only [Heap.elements, Heap.array, hc, Option.getD_some]
  rw [inspectElements, bind_of_done elements] at h
  exact Action.done_of_bind h

theorem inspect_array {fuel : Nat} (ih : ∀ k < fuel, ShowsAt k) {id : ArrayId} {ds : List Datum}
    {t : String} (h : m.Holds (.arr id) (.arr ds)) (hs : m.ShowsAllNatively (.arr id))
    (hi : Run.inspect (Perform.invoke (perform fuel)) (.arr id) m = .done t m') :
    Shown m (.arr ds) t m' := by
  obtain ⟨name, arity, owner, hf⟩ :=
    (hs _ (.self _)).find (show (ClassId.array, Native.array .inspect) ∈ _ by decide)
  obtain ⟨k, r, m₁, rfl, hdepth, rfl, hrun, rfl⟩ := inspect_native hf hi
  have deeper : m.Retains { m with depth := m.depth + 1 } :=
    ⟨rfl, fun _ _ h => h, fun _ _ h => h⟩
  cases h.retain deeper with
  | arr hc hd =>
      obtain ⟨parts, m₂, hparts, hmade⟩ := ArrayOp.done_of_inspectElements hc hrun
      obtain ⟨adds, texts, within⟩ := inspect_elements (ih k k.lt_succ_self) hc hd hs hparts
      obtain ⟨made, text⟩ := Machine.AddsTexts.of_newString hmade
      refine ⟨?_, (adds.trans made).leave, ?_⟩
      · rw [text, Datum.spelling, Option.getD_some, String.toList_append, String.toList_append,
          String.toList_intercalate, texts]
        rfl
      · have levels : maxDepth - m.depth = maxDepth - (m.depth + 1) + 1 := by omega
        rw [levels]
        exact within

/-- **A value that holds a datum** is shown by the spelling of the datum. -/
theorem inspect_spelling (fuel : Nat) : ShowsAt fuel := by
  induction fuel using Nat.strong_induction_on with
  | _ fuel ih =>
      intro m m' v d t h hs hi
      have shown := hs v (.self v)
      -- All but arrays make their text at once, and it is the spelling.
      cases h with
      | nil =>
          refine shown_of_text (.truth (.text "nil")) "nil" shown (by decide) (fun _ _ => rfl) hi ?_
            fun n => trivial
          rw [Datum.spelling]
          rfl
      | bool b =>
          cases b with
          | false =>
              refine shown_of_text (.truth (.text "false")) "false" shown (by decide)
                (fun _ _ => rfl) hi ?_ fun n => trivial
              rw [Datum.spelling]
              rfl
          | true =>
              refine shown_of_text (.truth (.text "true")) "true" shown (by decide)
                (fun _ _ => rfl) hi ?_ fun n => trivial
              rw [Datum.spelling]
              rfl
      | int i =>
          refine shown_of_text (.integer .toS) (Integer.text i) shown
            (show (ClassId.integer, Native.integer .toS) ∈ _ by decide) (fun _ _ => rfl) hi ?_
            fun n => trivial
          rw [Datum.spelling]
      | @sym id name hn hname =>
          refine shown_of_text (.symbol .inspect) (":" ++ m.names.text id) shown
            (show (ClassId.symbol, Native.symbol .inspect) ∈ _ by decide) (fun _ _ => rfl) hi ?_
            fun n => trivial
          rw [Datum.spelling, hn, String.toList_append]
          rfl
      | @str id cell text hc ht =>
          refine shown_of_text (.string .inspect) (Text.inspect (m.heap.text id)) shown
            (show (ClassId.string, Native.string .inspect) ∈ _ by decide) (fun _ _ => rfl) hi ?_
            fun n => trivial
          rw [Datum.spelling, Heap.text, Heap.string, hc, ← ht]
          rfl
      | arr hc hd => exact inspect_array ih (.arr hc hd) hs hi

/-- **What is shown can be read back.**  Whenever a value that holds a datum is shown by native
methods, the text runs as a program on a new machine and gives a value that holds the same datum. -/
theorem run_inspect {fuel : Nat} {t : String} (path : String) (sink : Sink) (host : Host)
    (h : m.Holds v d) (hs : m.ShowsAllNatively v)
    (hi : Run.inspect (Perform.invoke (perform fuel)) v m = .done t m') :
    ∃ v' m'', Session.run path t (Machine.boot sink host) = .done v' m'' ∧ m''.Holds v' d := by
  have shown := inspect_spelling fuel h hs hi
  have within : d.Within maxDepth := shown.within.mono (Nat.sub_le _ _)
  exact (Session.run_spelling path shown.text within (Machine.boot sink host)).exists_eq

/-- A machine with the native methods that show values, and with an array in another one, next to
a string. -/
def Machine.furnished : Machine :=
  let m := (Catalogue.entries.filter (·.name = "inspect")).foldl install (bare (.collecting ""))
  { m with
    names := (m.names.intern "a=").2
    heap :=
      { m.heap with
        strings := #[⟨.string, "\x1b\""⟩]
        arrays := #[⟨.array, #[.sym ⟨12⟩, .int Int64.minValue]⟩,
          ⟨.array, #[.arr ⟨0⟩, .str ⟨0⟩]⟩] } }

/-- The name of a setter, the least integer and a string with escapes are read back. -/
theorem run_inspect_nested :
    ∃ d m' t, Machine.furnished.Holds (.arr ⟨1⟩) d ∧
      Run.inspect (Perform.invoke (perform 3)) (.arr ⟨1⟩) Machine.furnished = .done t m' ∧
      t = "[[:a=, -9223372036854775808], \"\\e\\\"\"]" ∧
      ∃ v' m'', Session.run "" t (Machine.boot (.collecting "")) = .done v' m'' ∧
        m''.Holds v' d := by
  have shown : (Run.inspect (Perform.invoke (perform 3)) (.arr ⟨1⟩)
      Machine.furnished).DoneWith fun t _ =>
        t = "[[:a=, -9223372036854775808], \"\\e\\\"\"]" := by
    decide +kernel
  obtain ⟨t, m', hi, ht⟩ := shown.exists_eq
  have name : Lexer.IsSymbolName "a=" := ⟨['a', '='], by decide⟩
  have plain : Text.IsPlain "\x1b\"" := by decide
  have symbol : Machine.furnished.names.text ⟨12⟩ = "a=" := by decide +kernel
  have holds : Machine.furnished.Holds (.arr ⟨1⟩)
      (.arr [.arr [.sym "a=" name, .int Int64.minValue], .str "\x1b\"" plain]) :=
    .arr rfl (.cons (.arr rfl (.cons (.sym symbol name) (.cons (.int _) .nil)))
      (.cons (@Machine.Holds.str _ _ ⟨.string, _⟩ _ rfl rfl plain) .nil))
  have outer : Machine.furnished.heap.elements ⟨1⟩ = #[.arr ⟨0⟩, .str ⟨0⟩] := rfl
  have inner : Machine.furnished.heap.elements ⟨0⟩ = #[.sym ⟨12⟩, .int Int64.minValue] := rfl
  have natively : Machine.furnished.ShowsAllNatively (.arr ⟨1⟩) := by
    simp only [Machine.showsAllNatively_iff, outer, inner, List.mem_toArray, List.forall_mem_cons,
      List.not_mem_nil, false_implies, implies_true, and_true]
    refine ⟨by decide +kernel, ⟨by decide +kernel, ?_, ?_⟩, ?_⟩ <;>
      exact Machine.ShowsNatively.all (by decide +kernel) nofun
  exact ⟨_, m', t, holds, hi, ht, run_inspect "" _ .standard holds natively hi⟩

end MiniRuby
