import MiniRuby.Library.Argument
import MiniRuby.Proofs.Typing.Safe

/-!
# Dispatch is safe

Looking things up never shows a fault of the interpreter itself, and sending a message is safe as
long as calling the method is that is found (`Run.yields_send`), since what is found fits the
receiver.  The same goes for bound methods, whose cells keep a method with a receiver that it fits
(`Run.yields_callBound`).
-/

namespace MiniRuby

open Machine (Leads)
open Run (Safe Yields)

variable {ok : Node → Prop} {m : Machine}

/-- Whether all values of a list live. -/
def Value.AllLive (m : Machine) (vs : List Value) : Prop := ∀ v ∈ vs, v.Lives m

/-- No values at all live. -/
theorem Value.AllLive.nil : AllLive m [] := fun _ h => nomatch h

/-- A value that lives may be put before others that do. -/
theorem Value.AllLive.cons {v : Value} {vs : List Value} (hv : v.Lives m) (h : AllLive m vs) :
    AllLive m (v :: vs) :=
  List.forall_mem_cons.mpr ⟨hv, h⟩

/-- What lives goes on living on a machine that has grown. -/
theorem Value.AllLive.grow {vs : List Value} {m' : Machine} (h : AllLive m vs)
    (hg : m.Grows m') : AllLive m' vs :=
  fun v hv => (h v hv).grow hg

/-- Whether calls are safe that fit their receivers. -/
def Invoke.IsSafe (ok : Node → Prop) (invoke : Invoke) : Prop :=
  ∀ m method receiver args, m.Sound ok → method.Fits ok receiver → receiver.Lives m →
    Value.AllLive m args → Yields ok m (invoke method receiver args)

/-! ### Faults of look-ups -/

namespace Machine

variable (m) (v : Value)

/-- The class of a value is told without an internal error, as every value has one. -/
theorem mild_classOf : Mild (m.classOf v) := by
  unfold classOf ClassTable.classOf
  split
  · split
    · exact .ok _
    · exact .error nofun
  · exact .ok _

/-- Whether a value belongs to a class is told without an internal error. -/
theorem mild_isA (c : ClassId) : Mild (m.isA v c) := (m.mild_classOf v).bind fun _ => .ok _

/-- A method is looked up without an internal error. -/
theorem mild_findMethod? (name : NameId) : Mild (m.findMethod? v name) := by
  cases v with
  | cls c =>
      rw [findMethod?]
      split
      · exact .ok _
      · exact (m.mild_classOf _).bind fun _ => .ok _
  | _ => exact (m.mild_classOf _).bind fun _ => .ok _

/-- A constant that is not bound is an error of the program, and not an internal one. -/
theorem mild_constant (name : NameId) : Mild (m.constant name) := by
  rw [constant]
  cases m.constants.get? name with
  | some v => exact .ok v
  | none =>
      dsimp only
      cases m.classes.find? (m.names.text name) with
      | some c => exact .ok (Value.cls c)
      | none => exact .error (by simp [Fault.kind])

end Machine

/-! ### What an action can do -/

namespace Run

/-- Looking up a name is safe whatever the name is. -/
theorem safe_intern (hm : m.Sound ok) (text : String) :
    Safe ok m (intern text) fun _ _ => True :=
  .transform (hm.leads_of_eq rfl rfl rfl rfl .rfl) trivial

/-- A new string lives on the machine that it is made on. -/
theorem yields_newString (hm : m.Sound ok) (text : String) : Yields ok m (newString text) := by
  refine .transform (hm.leads_newString (hm.carries_first ?_ ?_) text) ?_
  · decide
  · decide +kernel
  · simp [Heap.newString, Value.Lives]

/-- A new array lives if its elements do. -/
theorem yields_newArray (hm : m.Sound ok) {elements : Array Value}
    (he : ∀ v ∈ elements, v.Lives m) : Yields ok m (newArray elements) := by
  refine .transform (hm.leads_newArray (hm.carries_first ?_ ?_) he) ?_
  · decide
  · decide +kernel
  · simp [Heap.newArray, Value.Lives]

/-- Writing is safe if the sink takes what is written, or refuses it. -/
theorem safe_write (hm : m.Sound ok) (text : String) :
    Safe ok m (write text) fun _ _ => True := by
  cases hs : m.sink with
  | collecting written =>
      have e : write text m = .done () { m with sink := .collecting (written ++ text) } := by
        simp only [write, hs]
      refine .of_done e (hm.leads_of_eq rfl rfl rfl rfl ?_) trivial
      rw [hs]
      exact .rfl
  | refusing reason =>
      by_cases ht : text.isEmpty = true
      · have e : write text m = .done () m := by simp only [write, hs, ht, if_true]
        exact .of_done e (.refl hm) trivial
      · have e : write text m = .failed (.ofFault (.outputFailed reason)) m := by
          simp only [write, hs, ht]
          rfl
        refine .of_failed e (.refl hm) fun _ => ?_
        rw [hs]
        trivial

/-- What an instance variable holds lives, and a variable that is not set holds `nil`. -/
theorem yields_getVariable (hm : m.Sound ok) (self : Value) (name : NameId) :
    Yields ok m (getVariable self name) := by
  cases self with
  | obj id =>
      refine .view hm ?_
      cases hv : m.heap.ivar? id name with
      | none => trivial
      | some v => exact (hm.ivars id).get? hv
  | _ => exact .pure hm trivial

/-- Setting an instance variable is safe if the value lives, also on a value that has no variables.
-/
theorem yields_setVariable (hm : m.Sound ok) (self : Value) (name : NameId) {v : Value}
    (hv : v.Lives m) : Yields ok m (setVariable self name v) := by
  cases self with
  | obj id =>
      have hl := hm.leads_setVariable id name hv
      exact (Safe.update (Q := fun _ s => v.Lives s) hl (hv.grow hl.grows)).bind
        fun _ _ hl hv => .pure hl.sound hv
  | _ => exact .view_bind (.fault hm nofun)

/-! ### Dispatch -/

/-- **A method that is found** fits the value that it was found for, and comes from a class of the
table. -/
theorem safe_findMethod (hm : m.Sound ok) {receiver : Value} (hv : receiver.Lives m)
    (name : NameId) :
    Safe ok m (findMethod receiver name) fun r s => ∀ found, r = some found →
      found.1.Fits ok receiver ∧ found.2.index < s.classes.classes.size := by
  refine .view_bind (.ofExcept hm (m.mild_findMethod? receiver name) fun r hr found hf => ?_)
  exact hm.fits_of_findMethod? hv (hr.trans (by rw [hf]))

section Sending

variable {invoke : Invoke}

/-- A message that no method answers goes to `method_missing`, which is safe if calling methods is.
-/
theorem yields_sendMissing (hI : invoke.IsSafe ok) (hm : m.Sound ok) {receiver : Value}
    (hv : receiver.Lives m) (name : NameId) {args : List Value} (ha : Value.AllLive m args) :
    Yields ok m (sendMissing invoke receiver name args) := by
  refine (safe_findMethod hm hv .methodMissing).bind fun r s hl hr => ?_
  cases r with
  | none => exact .view_bind (.fault hl.sound nofun)
  | some found =>
      exact hI s found.1 receiver _ hl.sound (hr found rfl).1 (hv.grow hl.grows)
        (.cons trivial (ha.grow hl.grows))

/-- **A message** is answered by a method that fits the receiver, so sending it is safe if calling
methods is. -/
theorem yields_send (hI : invoke.IsSafe ok) (hm : m.Sound ok) {receiver : Value}
    (hv : receiver.Lives m) (name : NameId) {args : List Value} (ha : Value.AllLive m args) :
    Yields ok m (send invoke receiver name args) := by
  refine (safe_findMethod hm hv name).bind fun r s hl hr => ?_
  cases r with
  | none => exact yields_sendMissing hI hl.sound (hv.grow hl.grows) name (ha.grow hl.grows)
  | some found =>
      exact hI s found.1 receiver args hl.sound (hr found rfl).1 (hv.grow hl.grows)
        (ha.grow hl.grows)

/-- A bound method is called on a receiver that it has been found for. -/
theorem yields_callBound (hI : invoke.IsSafe ok) (hm : m.Sound ok) {id : BoundId}
    (hid : id.index < m.heap.bounds.size) {args : List Value} (ha : Value.AllLive m args) :
    Yields ok m (callBound invoke id args) := by
  have hc := hm.bounds _ (Heap.bound_mem hid)
  exact .view_bind (hI m _ _ args hm hc.method hc.receiver ha)

/-- A method that is bound keeps a receiver that lives. -/
theorem yields_bindMethod (hm : m.Sound ok) {receiver : Value} (hv : receiver.Lives m)
    (name : NameId) : Yields ok m (bindMethod receiver name) := by
  refine (safe_findMethod hm hv name).bind fun r s hl hr => ?_
  cases r with
  | none => exact .view_bind (.fault hl.sound nofun)
  | some found =>
      obtain ⟨hf, ho⟩ := hr found rfl
      refine .transform (hl.sound.leads_newBound ⟨rfl, hv.grow hl.grows, hf, ho⟩) ?_
      simp [Heap.newBound, Value.Lives]

/-- What a text holds is told, or something else in its place. -/
theorem safe_textOr (hm : m.Sound ok) (v answer : Value) :
    Safe ok m (textOr v answer) fun _ _ => True :=
  .view hm trivial

/-- What `to_s` answers need not be a text, and then another text stands in. -/
theorem safe_toText (hI : invoke.IsSafe ok) (hm : m.Sound ok) {v : Value} (hv : v.Lives m) :
    Safe ok m (toText invoke v) fun _ _ => True := by
  cases v with
  | str id => exact .view hm trivial
  | _ => exact (yields_send hI hm hv .toS .nil).bind fun a s hl _ => safe_textOr hl.sound _ a

/-- What `inspect` answers need not be a text either. -/
theorem safe_inspect (hI : invoke.IsSafe ok) (hm : m.Sound ok) {v : Value} (hv : v.Lives m) :
    Safe ok m (inspect invoke v) fun _ _ => True :=
  (yields_send hI hm hv .inspect .nil).bind fun a _ hl _ => safe_textOr hl.sound _ a

/-- A class that the library asks for by name is one of the table. -/
theorem safe_classNamed (hm : m.Sound ok) (name : String) :
    Safe ok m (classNamed name) fun c s => c.index < s.classes.classes.size := by
  refine .view_bind ?_
  cases hc : m.classes.find? name with
  | some c => exact .pure hm (hm.classes.named name c hc)
  | none => exact .fault hm nofun

/-- An exception that the library raises is an object of a class of the table. -/
theorem yields_newException (hI : invoke.IsSafe ok) (hm : m.Sound ok) (className message : String) :
    Yields ok m (newException invoke className message) := by
  refine (safe_classNamed hm className).bind fun c s hl hc => ?_
  refine (yields_newString hl.sound message).bind fun text s' hl' ht => ?_
  have hc' : (Value.cls c).Lives s' := Value.Lives.grow (v := .cls c) hc hl'.grows
  exact yields_send hI hl'.sound hc' .new (.cons ht .nil)

end Sending

/-! ### Arguments -/

/-- An argument that has not been given is `nil`, which lives. -/
theorem lives_arg {args : List Value} (ha : Value.AllLive m args) (i : Nat) :
    (arg args i).Lives m := by
  rw [arg, List.getD_eq_getElem?_getD]
  cases h : args[i]? with
  | none => trivial
  | some v => exact ha v (List.mem_of_getElem? h)

variable {α : Type} {Q : α → Machine → Prop}

/-- A fault that names a value is no internal error if its cause is none. -/
theorem safe_faultOn (hm : m.Sound ok) (v : Value) {cause : String → Fault}
    (h : ∀ name, (cause name).kind ≠ .internal) : Safe ok m (faultOn v cause) Q :=
  .view_bind (.fault hm (h _))

/-- What is no integer is refused as a value of the wrong type. -/
theorem safe_expectInteger (hm : m.Sound ok) (v : Value) :
    Safe ok m (expectInteger v) fun _ _ => True := by
  cases v with
  | int i => exact .pure hm trivial
  | _ => exact safe_faultOn hm _ nofun

/-- What is no string is refused as a value of the wrong type. -/
theorem safe_expectText (hm : m.Sound ok) (v : Value) :
    Safe ok m (expectText v) fun _ _ => True := by
  cases v with
  | str id => exact .view hm trivial
  | _ => exact safe_faultOn hm _ nofun

/-- What is no class is refused, and a class that lives is one of the table. -/
theorem safe_expectClass (hm : m.Sound ok) {v : Value} (hv : v.Lives m) :
    Safe ok m (expectClass v) fun c s => c.index < s.classes.classes.size := by
  cases v with
  | cls c => exact .pure hm hv
  | _ => exact safe_faultOn hm _ nofun

/-- What is no array is refused, and the elements of one that is live. -/
theorem safe_expectElements (hm : m.Sound ok) (v : Value) :
    Safe ok m (expectElements v) fun vs s => Value.AllLive s vs := by
  cases v with
  | arr id =>
      refine .view hm fun w hw => hm.elements id w ?_
      exact Array.mem_toList_iff.mp hw
  | _ => exact safe_faultOn hm _ nofun

/-- A name is given by a symbol or by a string. -/
theorem safe_expectName {invoke : Invoke} (hI : invoke.IsSafe ok) (hm : m.Sound ok) {v : Value}
    (hv : v.Lives m) : Safe ok m (expectName invoke v) fun _ _ => True := by
  cases v with
  | sym name => exact .pure hm trivial
  | str id => exact .view_bind (safe_intern hm _)
  | _ => exact (safe_inspect hI hm hv).bind fun _ _ hl _ => .fault hl.sound nofun

/-- A truth value lives on every machine. -/
theorem yields_answer (hm : m.Sound ok) (b : Bool) : Yields ok m (answer b) := .pure hm trivial

end Run

end MiniRuby
