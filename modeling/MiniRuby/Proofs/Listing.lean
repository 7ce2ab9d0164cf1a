import Mathlib.Data.Finset.Card
import MiniRuby.Proofs.Inspect
import MiniRuby.Proofs.Jumps
import MiniRuby.Proofs.Sending

/-!
# Writing lines

What `puts` writes for a value is a listing of it: an array is listed as its elements, first to
last, an array that is being listed is only hinted at, and one that is merely met again is listed
again.  Each array that is entered is one less that can be, so a listing comes to an end whatever
arrays hold, be it themselves (`Heap.listing`).

The text of an element may have to be asked for, which makes a string, so `puts` adds strings to the
heap as it goes.  Nothing refers to these, and nothing else changes.  So an action is compared to
writing its text at once: on a machine with strings added, and whatever is there to write to, it
comes to the same up to further strings (`Run.Writes`).  This says, too, that it stops where the
output is refused.

* `Heap.listing`: what is written for a value.
* `Run.Writes.each`: what is written one after the other.
* `KernelOp.writes_putsValue`: a value is written as its listing, by induction on the fuel.
* `puts_listing`: so is what is given to `puts`.
-/

namespace MiniRuby

/-! ### Listings -/

namespace Heap

/-- The positions of the arrays that are not on a path. -/
def offPath (h : Heap) (path : List ArrayId) : Finset Nat :=
  (Finset.range h.arrays.size).filter fun i => ⟨i⟩ ∉ path

/-- An array with elements is one of the heap. -/
theorem index_lt_of_elements {h : Heap} {id : ArrayId} (he : (h.elements id).isEmpty = false) :
    id.index < h.arrays.size := by
  by_contra out
  rw [elements, array, Array.getElem?_eq_none (Nat.le_of_not_lt out)] at he
  cases he

/-- An array that is entered goes onto the path. -/
theorem card_offPath_lt {h : Heap} {id : ArrayId} {path : List ArrayId}
    (he : (h.elements id).isEmpty = false) (hid : id ∉ path) :
    (h.offPath (id :: path)).card < (h.offPath path).card := by
  refine Finset.card_lt_card ⟨fun i hi => ?_, fun all => ?_⟩
  · simp only [offPath, Finset.mem_filter, List.mem_cons, not_or] at hi ⊢
    exact ⟨hi.1, hi.2.2⟩
  · have there : id.index ∈ h.offPath path := by
      simp only [offPath, Finset.mem_filter, Finset.mem_range]
      exact ⟨index_lt_of_elements he, hid⟩
    simpa [offPath] using all there

/-- At first all arrays are off the path. -/
theorem card_offPath_nil (h : Heap) : (h.offPath []).card = h.arrays.size := by
  simp [offPath]

/-- What is written for a value within the arrays on a path, given the texts of what is no array:
a line for each text, and the listings of the elements for an array. -/
def listing (h : Heap) (text : Value → String) (path : List ArrayId) : Value → String
  | .arr id =>
    if id ∈ path then "[...]\n"
    else if (h.elements id).isEmpty then "\n"
    else String.join ((h.elements id).toList.map (h.listing text (id :: path)))
  | v => asLine (text v)
termination_by (h.offPath path).card
decreasing_by exact card_offPath_lt (Bool.eq_false_iff.mpr ‹_›) ‹_›

/-- Every line has its line end. -/
theorem asLine_ne_empty (s : String) : asLine s ≠ "" := by
  unfold asLine
  split
  · rintro rfl
    contradiction
  · exact fun empty => absurd (String.append_eq_empty_iff.mp empty).2 (by decide)

/-- Something is written for every value. -/
theorem listing_ne_empty (h : Heap) (text : Value → String) (path : List ArrayId) (v : Value) :
    h.listing text path v ≠ "" := by
  fun_induction listing with
  | case1 path id again => decide
  | case2 path id fresh none => decide
  | case3 path id fresh some ih =>
      cases elements : (h.elements id).toList with
      | nil => exact absurd (by simpa using elements) some
      | cons v vs =>
          rw [List.map_cons, String.join_cons]
          exact fun empty => ih v (String.append_eq_empty_iff.mp empty).1
  | case4 path v other => exact asLine_ne_empty _

/-- What is written for values, each on its own.  A line is written if there are none. -/
def lines (h : Heap) (text : Value → String) (vs : List Value) : String :=
  if vs.isEmpty then "\n" else String.join (vs.map (h.listing text []))

/-- Every listing has a line, also that of no values at all. -/
theorem lines_ne_empty (h : Heap) (text : Value → String) (vs : List Value) :
    h.lines text vs ≠ "" := by
  cases vs with
  | nil => exact (by decide : "\n" ≠ "")
  | cons v vs =>
      rw [lines, List.isEmpty_cons, if_neg nofun, List.map_cons, String.join_cons]
      exact fun empty => h.listing_ne_empty text [] v (String.append_eq_empty_iff.mp empty).1

end Heap

/-! ### Writing a text -/

/-- A machine with strings added to its heap, and something else to write to. -/
def Machine.page (m : Machine) (cells : Array StringCell) (sink : Sink) : Machine :=
  { m with heap := { m.heap with strings := m.heap.strings ++ cells }, sink := sink }

/-- With no strings added and its own sink, a machine is itself. -/
theorem Machine.page_self (m : Machine) : m.page #[] m.sink = m := by
  simp [page]

namespace Run

variable {m : Machine} {α β : Type} {a : α} {b : β} {text text' : String} {x : Run α}
  {f : α → Run β}

/-- A sink that collects takes the text. -/
theorem write_collecting (text written : String) (cells : Array StringCell) :
    write text (m.page cells (.collecting written)) =
      .done () (m.page cells (.collecting (written ++ text))) := rfl

/-- A sink that refuses does not, unless there is nothing to write. -/
theorem write_refusing (h : text ≠ "") (reason : String) (cells : Array StringCell) :
    write text (m.page cells (.refusing reason)) =
      .failed (.ofFault (.outputFailed reason)) (m.page cells (.refusing reason)) := by
  simp [write, Machine.page, h]

theorem write_empty (cells : Array StringCell) (sink : Sink) :
    write "" (m.page cells sink) = .done () (m.page cells sink) := by
  cases sink with
  | collecting written => rw [write_collecting, String.append_empty]
  | refusing reason => rfl

/-- Whether an action comes to the same as writing a text and answering, up to strings that are made
on the way, on a machine with strings added or not, and whatever there is to write to. -/
def Writes (m : Machine) (text : String) (a : α) (x : Run α) : Prop :=
  ∀ cells sink, ∃ more,
    x (m.page cells sink) = (do write text; pure a) (m.page (cells ++ more) sink)

namespace Writes

/-- Writing writes the text. -/
theorem write (text : String) : Writes m text () (write text) := by
  refine fun cells sink => ⟨#[], ?_⟩
  rw [Array.append_empty, Action.bind_eq_andThen]
  cases Run.write text (m.page cells sink) <;> rfl

/-- What makes strings only. -/
theorem silent (h : ∀ cells sink, ∃ more,
    x (m.page cells sink) = .done a (m.page (cells ++ more) sink)) : Writes m "" a x := by
  intro cells sink
  obtain ⟨more, e⟩ := h cells sink
  refine ⟨more, e.trans ?_⟩
  rw [Action.bind_eq_andThen, write_empty]
  rfl

theorem pure (a : α) : Writes m "" a (pure a : Run α) :=
  silent fun cells sink => ⟨#[], by rw [Array.append_empty]; rfl⟩

theorem view {f : Machine → α} (same : ∀ cells sink, f (m.page cells sink) = a) :
    Writes m "" a (Action.view f) :=
  silent fun cells sink => ⟨#[], by rw [Array.append_empty, Action.view, same]⟩

/-- **Actions in a row** write one text after the other. -/
theorem bind (hx : Writes m text a x) (hf : Writes m text' b (f a)) :
    Writes m (text ++ text') b (x >>= f) := by
  intro cells sink
  obtain ⟨more, e⟩ := hx cells sink
  rw [Action.bind_eq_andThen] at e ⊢
  rw [e]
  by_cases empty : text = ""
  · obtain ⟨more', e'⟩ := hf (cells ++ more) sink
    refine ⟨more ++ more', ?_⟩
    rw [empty, write_empty, String.empty_append, ← Array.append_assoc]
    exact e'
  · cases sink with
    | collecting written =>
        obtain ⟨more', e'⟩ := hf (cells ++ more) (.collecting (written ++ text))
        refine ⟨more ++ more', ?_⟩
        rw [write_collecting, ← Array.append_assoc]
        refine e'.trans ?_
        rw [Action.bind_eq_andThen, Action.bind_eq_andThen, write_collecting, write_collecting,
          String.append_assoc]
    | refusing reason =>
        have more_text : text ++ text' ≠ "" := fun both =>
          empty (String.append_eq_empty_iff.mp both).1
        refine ⟨more, ?_⟩
        rw [Action.bind_eq_andThen, write_refusing empty, write_refusing more_text]
        rfl

/-- What follows may answer something else. -/
theorem answer (hx : Writes m text a x) (b : β) : Writes m text b (x >>= fun _ => Pure.pure b) := by
  have both := hx.bind (f := fun _ => Pure.pure b) (pure b)
  rwa [String.append_empty] at both

/-- What is written for each element in turn. -/
theorem each {γ : Type} {g : γ → Run Unit} {line : γ → String} {cs : List γ}
    (h : ∀ c ∈ cs, Writes m (line c) () (g c)) :
    Writes m (String.join (cs.map line)) (cs.map fun _ => ()) (Action.each g cs) := by
  induction cs with
  | nil => exact pure []
  | cons c cs ih =>
      rw [Action.each_cons, List.map_cons, String.join_cons]
      refine (h c (.head _)).bind ?_
      have rest := (ih fun c hc => h c (.tail _ hc)).bind (f := fun bs => Pure.pure (() :: bs))
        (pure _)
      rwa [String.append_empty] at rest

end Writes

end Run

/-! ### Texts of values -/

/-- The native methods that give the texts of values that are neither strings nor arrays. -/
def Catalogue.texts : List (ClassId × Native) :=
  [(.nilClass, .truth (.text "")), (.trueClass, .truth (.text "true")),
    (.falseClass, .truth (.text "false")), (.integer, .integer .toS), (.symbol, .symbol .toS)]

/-- Each class with a text of its own has one method for it. -/
theorem Catalogue.texts_unique : ∀ e ∈ entries, e.name = "to_s" →
    ∀ p ∈ texts, e.owner = p.1 → e.op = p.2 ∧ e.arity = .exact 0 := by
  decide +kernel

namespace Machine

/-- The native method that gives the text of a value, with the arguments that it takes. -/
def textMethod? (m : Machine) (v : Value) : Option (Arity × Native) :=
  match m.findMethod? v .toS with
  | .ok (some (.native _ arity op, _)) => some (arity, op)
  | _ => none

/-- Whether the text of a value is given by the native method that the catalogue has for such
values. -/
def TellsNatively (m : Machine) (v : Value) : Prop :=
  ∃ e ∈ Catalogue.entries, e.owner = v.sort ∧ e.name = "to_s" ∧
    m.textMethod? v = some (e.arity, e.op)

instance {m : Machine} {v : Value} : Decidable (m.TellsNatively v) :=
  inferInstanceAs (Decidable (∃ e ∈ _, _))

/-- Whether a value is an array, a string that is there, or `nil`, a boolean, an integer or a symbol
whose text is given natively. -/
def IsListed (m : Machine) : Value → Prop
  | .arr _ => True
  | .str id => id.index < m.heap.strings.size
  | .nil => m.TellsNatively .nil
  | .bool b => m.TellsNatively (.bool b)
  | .int i => m.TellsNatively (.int i)
  | .sym name => m.TellsNatively (.sym name)
  | .float _ | .cls _ | .obj _ | .bound _ => False

instance {m : Machine} : DecidablePred m.IsListed
  | .arr _ => .isTrue trivial
  | .str id => inferInstanceAs (Decidable (id.index < m.heap.strings.size))
  | .nil | .bool _ | .int _ | .sym _ => inferInstanceAs (Decidable (m.TellsNatively _))
  | .float _ | .cls _ | .obj _ | .bound _ => .isFalse id

/-- What a value that is no array says. -/
def said (m : Machine) : Value → String
  | .bool true => "true"
  | .bool false => "false"
  | .int i => Integer.text i
  | .sym name => m.names.text name
  | .str id => m.heap.text id
  | _ => ""

variable {m : Machine} {v : Value} {op : Native} {text : String} {fuel : Nat}

/-- A value that tells its text natively has the method of its class. -/
theorem TellsNatively.find (h : m.TellsNatively v) (hop : (v.sort, op) ∈ Catalogue.texts) :
    ∃ name owner,
      m.findMethod? v .toS = .ok (some (.native name (.exact 0) op, owner)) := by
  obtain ⟨e, he, ho, hname, hf⟩ := h
  obtain ⟨same, arity⟩ := Catalogue.texts_unique e he hname _ hop ho
  unfold textMethod? at hf
  split at hf
  · rename_i name _ _ owner found
    cases hf
    rw [show e.op = op from same, arity] at found
    exact ⟨name, owner, found⟩
  · cases hf

end Machine

namespace Run

variable {m : Machine} {v : Value} {op : Native} {text : String} {fuel : Nat}

/-- Whether a value other than a string is asked for its text by a method that makes it. -/
def Asks (I : Invoke) (m : Machine) (v : Value) (text : String) : Prop :=
  (∀ id, v ≠ .str id) ∧ ∃ method owner, ∀ cells sink,
    (m.page cells sink).findMethod? v .toS = .ok (some (method, owner)) ∧
    I method v [] (m.page cells sink) =
      .done (.str ⟨(m.heap.strings ++ cells).size⟩)
        (m.page (cells ++ #[⟨.string, text⟩]) sink)

/-- Asking for a text writes nothing. -/
theorem Asks.writes {I : Invoke} (h : Asks I m v text) : Writes m "" text (toText I v) := by
  obtain ⟨other, method, owner, asks⟩ := h
  refine .silent fun cells sink => ⟨#[⟨.string, text⟩], ?_⟩
  obtain ⟨found, called⟩ := asks cells sink
  have sends : toText I v = (do textOr v (← send I v .toS [])) := by
    cases v with
    | str id => exact absurd rfl (other id)
    | _ => rfl
  rw [sends, Action.bind_eq_andThen, send_of_found found, called]
  simp [Outcome.andThen, textOr, Action.view, Heap.text?, Heap.text, Heap.string, Machine.page]

/-- The native methods that the catalogue has for texts make them, also with strings added. -/
theorem writes_native (op : Native) (h : m.TellsNatively v)
    (hop : (v.sort, op) ∈ Catalogue.texts) (hd : m.depth < maxDepth) (hv : ∀ id, v ≠ .str id)
    (same : ∀ cells sink, (m.page cells sink).findMethod? v .toS = m.findMethod? v .toS)
    (made : ∀ k invoke cells sink,
      op.run k invoke v [] { m.page cells sink with depth := m.depth + 1 } =
        Run.newString text { m.page cells sink with depth := m.depth + 1 }) :
    Writes m "" text (toText (Perform.invoke (perform (fuel + 1))) v) := by
  obtain ⟨name, owner, found⟩ := h.find hop
  refine Asks.writes ⟨hv, .native name (.exact 0) op, owner, fun cells sink =>
    ⟨(same cells sink).trans found, ?_⟩⟩
  have callable : (Method.native name (.exact 0) op).Callable [] (m.page cells sink) := ⟨rfl, hd⟩
  refine (perform_native callable).trans ?_
  refine (congrArg Outcome.leave (made fuel _ cells sink)).trans ?_
  simp [Run.newString, Run.allocate, Action.transform, Heap.newString, Outcome.leave, Machine.left,
    Machine.page]

/-- A value that is no array is asked for what it says. -/
theorem writes_said (hd : m.depth < maxDepth) (h : m.IsListed v) (hv : ∀ id, v ≠ .arr id) :
    Writes m "" (m.said v) (toText (Perform.invoke (perform (fuel + 1))) v) := by
  cases v with
  | nil =>
      exact writes_native (.truth (.text "")) h (by decide) hd nofun (fun _ _ => rfl)
        fun _ _ _ _ => rfl
  | bool b =>
      cases b with
      | true =>
          exact writes_native (.truth (.text "true")) h (by decide) hd nofun (fun _ _ => rfl)
            fun _ _ _ _ => rfl
      | false =>
          exact writes_native (.truth (.text "false")) h (by decide) hd nofun (fun _ _ => rfl)
            fun _ _ _ _ => rfl
  | int i =>
      exact writes_native (.integer .toS) h (by simp [Catalogue.texts, Value.sort]) hd nofun
        (fun _ _ => rfl) fun _ _ _ _ => rfl
  | sym name =>
      exact writes_native (.symbol .toS) h (by simp [Catalogue.texts, Value.sort]) hd nofun
        (fun _ _ => rfl) fun _ _ _ _ => rfl
  | str id =>
      refine .view fun cells sink => ?_
      have kept : (m.heap.strings ++ cells)[id.index]? = m.heap.strings[id.index]? :=
        Array.getElem?_append_left h
      simp [Machine.said, Heap.text, Heap.string, Machine.page, kept]
  | arr id => exact absurd rfl (hv id)
  | float | cls | obj | bound => exact h.elim

end Run

/-! ### Writing values -/

/-- **A value is written as its listing**, if there is fuel for all arrays that can be entered. -/
theorem KernelOp.writes_putsValue {m : Machine} {k : Nat} (hd : m.depth < maxDepth) {fuel : Nat}
    {path : List ArrayId} {v : Value} (hv : ∀ w, m.heap.Contains v w → m.IsListed w)
    (hf : (m.heap.offPath path).card < fuel) :
    Run.Writes m (m.heap.listing m.said path v) ()
      (putsValue (Perform.invoke (perform (k + 1))) fuel path v) := by
  induction fuel generalizing path v with
  | zero => exact absurd hf (Nat.not_lt_zero _)
  | succ fuel ih =>
      have text (other : ∀ id, v ≠ .arr id) : Run.Writes m (asLine (m.said v)) () (do
          Run.write (asLine (← Run.toText (Perform.invoke (perform (k + 1))) v))) := by
        have said : Run.Writes m "" (m.said v)
            (Run.toText (Perform.invoke (perform (k + 1))) v) :=
          Run.writes_said hd (hv v (.self v)) other
        have both := said.bind (f := fun t => Run.write (asLine t)) (.write _)
        rwa [String.empty_append] at both
      cases v with
      | arr id =>
          rw [Heap.listing]
          simp only [putsValue]
          by_cases again : id ∈ path
          · rw [if_pos again, if_pos (List.contains_iff_mem.mpr again)]
            exact .write _
          rw [if_neg again, if_neg fun there => again (List.contains_iff_mem.mp there),
            ← @String.empty_append (ite _ _ _)]
          refine .bind (a := m.heap.elements id) (.view fun _ _ => rfl) ?_
          split
          · exact .write _
          · rename_i some
            -- The array is on the path from here on.
            have entered := Heap.card_offPath_lt (Bool.eq_false_iff.mpr some) again
            refine (Run.Writes.each fun w hw => ih (fun u hu => hv u ?_) (by omega)).answer ()
            exact .element (Array.mem_toList_iff.mp hw) hu
      | _ =>
          rw [Heap.listing]
          · exact text nofun
          · exact nofun

/-- **`puts` writes the lines** of its arguments, or an empty one. -/
theorem KernelOp.writes_putLines {m : Machine} {fuel : Nat} (hd : m.depth < maxDepth)
    {args : List Value} (ha : ∀ v ∈ args, ∀ w, m.heap.Contains v w → m.IsListed w)
    (hf : m.heap.arrays.size < fuel) :
    Run.Writes m (m.heap.lines m.said args) .nil
      (putLines fuel (Perform.invoke (perform fuel)) args) := by
  obtain ⟨k, rfl⟩ : ∃ k, fuel = k + 1 := ⟨fuel - 1, by omega⟩
  have each : Run.Writes m (String.join (args.map (m.heap.listing m.said []))) .nil (do
      let _ ← Action.each (putsValue (Perform.invoke (perform (k + 1))) (k + 1) []) args
      pure Value.nil) :=
    (Run.Writes.each fun v hv =>
      writes_putsValue hd (ha v hv) (m.heap.card_offPath_nil ▸ hf)).answer Value.nil
  unfold putLines Heap.lines
  cases args with
  | nil => exact (Run.Writes.write "\n").answer Value.nil
  | cons v args => exact each

/-- **What `puts` does.**  Given values in which there are arrays only, and `nil`, booleans,
integers, symbols and strings whose texts are told natively, `puts` comes to an end if one more call
may be made, whatever arrays hold.  It writes the listings of the values, or an empty line if there
are none, and fails if nothing can be written.  It adds strings to the heap and leaves the rest as
it is. -/
theorem puts_listing {m : Machine} {args : List Value} {fuel : Nat} (room : m.depth < maxDepth)
    (listed : ∀ v ∈ args, ∀ w, m.heap.Contains v w → m.IsListed w)
    (enough : m.heap.arrays.size < fuel) (self : Value) :
    ∃ cells, (Native.kernel .puts).run fuel (Perform.invoke (perform fuel)) self args m =
      match m.sink with
      | .collecting written =>
        .done .nil (m.page cells (.collecting (written ++ m.heap.lines m.said args)))
      | .refusing reason =>
        .failed (.ofFault (.outputFailed reason)) (m.page cells (.refusing reason)) := by
  obtain ⟨cells, e⟩ := KernelOp.writes_putLines room listed enough #[] m.sink
  rw [m.page_self, Array.empty_append, Action.bind_eq_andThen] at e
  refine ⟨cells, e.trans ?_⟩
  cases m.sink with
  | collecting written => rw [Run.write_collecting]; rfl
  | refusing reason => rw [Run.write_refusing (m.heap.lines_ne_empty m.said args)]; rfl

/-- What holds of the elements of all arrays, and of a value, holds of all that is found there. -/
theorem Heap.Contains.of_elements {h : Heap} {P : Value → Prop}
    (elements : ∀ cell ∈ h.arrays, ∀ v ∈ cell.elements, P v) {v w : Value} (hw : h.Contains v w)
    (hv : P v) : P w := by
  induction hw with
  | self => exact hv
  | @element id v w he _ ih =>
      refine ih ?_
      unfold Heap.elements Heap.array at he
      cases cell : h.arrays[id.index]? with
      | none =>
          rw [cell] at he
          exact absurd he (Array.not_mem_empty v)
      | some c =>
          rw [cell] at he
          exact elements c (Array.mem_of_getElem? cell) v he

/-- An array that holds an integer, another array twice, and itself. -/
theorem puts_listing_cyclic :
    let m₀ := (Machine.bare (.collecting "")).install ⟨.integer, "to_s", .exact 0, .integer .toS⟩
    let m := { m₀ with heap := { m₀.heap with arrays :=
      #[⟨.array, #[.int 1, .arr ⟨1⟩, .arr ⟨0⟩, .arr ⟨1⟩]⟩, ⟨.array, #[.int 2]⟩] } }
    m.depth < maxDepth ∧ (∀ v ∈ [Value.arr ⟨0⟩], ∀ w, m.heap.Contains v w → m.IsListed w) ∧
    ∃ cells, (Native.kernel .puts).run 3 (Perform.invoke (perform 3)) .main [.arr ⟨0⟩] m =
      .done .nil (m.page cells (.collecting "1\n2\n[...]\n2\n")) := by
  intro m₀ m
  have elements : ∀ cell ∈ m.heap.arrays, ∀ v ∈ cell.elements, m.IsListed v := by
    decide +kernel
  have listed : ∀ v ∈ [Value.arr ⟨0⟩], ∀ w, m.heap.Contains v w → m.IsListed w := by
    intro v hv w hw
    obtain rfl := List.mem_singleton.mp hv
    exact hw.of_elements elements trivial
  have room : m.depth < maxDepth := by decide
  have text : m.heap.lines m.said [.arr ⟨0⟩] = "1\n2\n[...]\n2\n" := by
    have first : m.heap.elements ⟨0⟩ = #[.int 1, .arr ⟨1⟩, .arr ⟨0⟩, .arr ⟨1⟩] := rfl
    have second : m.heap.elements ⟨1⟩ = #[.int 2] := rfl
    have one : asLine (m.said (.int 1)) = "1\n" := by decide +kernel
    have two : asLine (m.said (.int 2)) = "2\n" := by decide +kernel
    simp [Heap.lines, Heap.listing, first, second, one, two]
  obtain ⟨cells, writes⟩ := @puts_listing m [.arr ⟨0⟩] 3 room listed (by decide) .main
  refine ⟨room, listed, cells, writes.trans ?_⟩
  rw [text]
  rfl

end MiniRuby
