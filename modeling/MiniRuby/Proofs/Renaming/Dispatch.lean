import MiniRuby.Library.Argument
import MiniRuby.Proofs.Renaming.Matched

/-!
# Messages do not depend on positions of names

On machines that are alike, a message that is sent to receivers that are alike finds methods that
are alike.  So sending a message, taking a method as an object and asking for a text go side by
side, as long as the calls that they lead to do (`Invoke.Matched`), and so does what native methods
ask of their arguments.
-/

namespace MiniRuby

open Run (Matched)

variable [Comparison] {w : Tables}

/-- The first names of all tables have the same ids. -/
theorem Tables.Valid.first (hw : w.Valid) {x : NameId} (hx : NameTable.initial.Has x) :
    w.Spelled x x := .first hw.1 hw.2 hx

/-- Two ways of calling methods that go side by side. -/
def Invoke.Matched (I J : Invoke) : Prop :=
  ∀ (w : Tables) (f f' : Method) (v v' : Value) (args args' : List Value),
    Kin.method w f f' → Kin.value w v v' → Kin.values w args args' →
    Run.Matched w Kin.value (I f v args) (J f' v' args')

/-! ### Messages -/

namespace Run

variable {α : Type} {R : Kin α} {I J : Invoke} {v v' u u' : Value} {x y : NameId}
  {args args' : List Value}

/-- A class is named by a text, which both machines tell. -/
theorem matched_className (hv : Kin.value w v v') :
    Matched w Kin.same (className v) (className v') :=
  .view fun _ _ hw hmn => hmn.className_eq (hv.later hw)

/-- **A method is found** on both machines or on neither. -/
theorem matched_findMethod (hv : Kin.value w v v') (hn : w.Spelled x y) :
    Matched w Kin.found.option (findMethod v x) (findMethod v' y) :=
  (Matched.view (R := Kin.found.option.except Kin.same) fun _ _ hw hmn =>
    hmn.findMethod? (hv.later hw) (hn.mono hw)).bind fun _ _ _ _ h => .ofExcept h

/-- A fault that tells a name and a receiver. -/
theorem matched_named (hn : w.Spelled x y) (hv : Kin.value w v v')
    (cause : String → String → Fault) : Matched w R
      (Action.view (fun m : Machine => cause (m.names.text x) (m.describe v)) >>= fun c => fault c)
      (Action.view (fun m : Machine => cause (m.names.text y) (m.describe v')) >>=
        fun c => fault c) := by
  refine (Matched.view (R := Kin.same) fun m n hw hmn => ?_).andThen fun _ _ _ => .fault _
  have text : n.names.text y = m.names.text x := (hn.mono hw).2.2
  change cause _ _ = cause _ _
  rw [text, hmn.describe_eq (hv.later hw)]

/-- `method_missing` is called on both, with the name as a symbol. -/
theorem matched_sendMissing (hI : I.Matched J) (hv : Kin.value w v v') (hn : w.Spelled x y)
    (ha : Kin.values w args args') :
    Matched w Kin.value (sendMissing I v x args) (sendMissing J v' y args') := by
  refine .under fun w₁ h₁ valid => ?_
  refine (matched_findMethod (hv.later h₁) (valid.first (by decide))).bind fun w₂ h₂ o o' ho => ?_
  have h₂ := h₁.trans h₂
  rcases ho with ⟨hf, -⟩ | _
  · exact hI _ _ _ _ _ _ _ hf (hv.later h₂) (.cons (.sym (hn.mono h₂)) (Kin.values.mono h₂ ha))
  · exact matched_named (hn.mono h₂) (hv.later h₂) _

/-- **A message is sent** to values that correspond, with the same outcome. -/
theorem matched_send (hI : I.Matched J) (hv : Kin.value w v v') (hn : w.Spelled x y)
    (ha : Kin.values w args args') :
    Matched w Kin.value (send I v x args) (send J v' y args') := by
  refine (matched_findMethod hv hn).bind fun w₁ h₁ o o' ho => ?_
  have hv := hv.later h₁
  have ha := Kin.values.mono h₁ ha
  rcases ho with ⟨hf, -⟩ | _
  · exact hI _ _ _ _ _ _ _ hf hv ha
  · exact matched_sendMissing hI hv (hn.mono h₁) ha

/-- A message that the interpreter itself refers to. -/
theorem matched_sendFirst (hI : I.Matched J) (hv : Kin.value w v v')
    (hx : NameTable.initial.Has x) (ha : Kin.values w args args') :
    Matched w Kin.value (send I v x args) (send J v' x args') :=
  .under fun _ h₁ valid =>
    matched_send hI (hv.later h₁) (valid.first hx) (Kin.values.mono h₁ ha)

/-- The cells of one bound method correspond. -/
theorem matched_boundCell (id : BoundId) :
    Matched w Kin.boundCell (Action.view fun m : Machine => m.heap.bound id)
      (Action.view fun m : Machine => m.heap.bound id) :=
  .view fun _ _ _ hmn => hmn.heap.bound hmn.valid id

/-- Its method is called on receivers that correspond. -/
theorem matched_callBound (hI : I.Matched J) (id : BoundId) (ha : Kin.values w args args') :
    Matched w Kin.value (callBound I id args) (callBound J id args') :=
  (matched_boundCell id).bind fun _ hw _ _ hc =>
    hI _ _ _ _ _ _ _ hc.method hc.receiver (Kin.values.mono hw ha)

/-- A method is bound at the same id, or is missing on both. -/
theorem matched_bindMethod (hv : Kin.value w v v') (hn : w.Spelled x y) :
    Matched w Kin.value (bindMethod v x) (bindMethod v' y) := by
  refine (matched_findMethod hv hn).bind fun w₁ h₁ o o' ho => ?_
  have hv := hv.later h₁
  have hn := hn.mono h₁
  rcases ho with ⟨hf, hc⟩ | _
  · refine .allocate fun w₂ h₂ _ _ _ hk => Heap.Alike.newBound hk ?_
    exact ⟨rfl, hn.mono h₂, hv.later h₂, hf.later h₂, hc⟩
  · exact matched_named hn hv _

theorem matched_text (id : StringId) :
    Matched w Kin.same (Action.view fun m : Machine => m.heap.text id)
      (Action.view fun m : Machine => m.heap.text id) :=
  .view fun _ _ _ hmn => hmn.heap.text_eq id

/-- What a value says is its text, or that of another value. -/
theorem matched_textOr (hv : Kin.value w v v') (hu : Kin.value w u u') :
    Matched w Kin.same (textOr v u) (textOr v' u') :=
  .view fun m n hw hmn => by
    change Option.getD _ _ = Option.getD _ _
    rw [hmn.heap.text?_eq (hu.later hw), hmn.plainText_eq (hv.later hw)]

/-- The text of a value is asked for by a call. -/
theorem matched_toText (hI : I.Matched J) (hv : Kin.value w v v') :
    Matched w Kin.same (toText I v) (toText J v') := by
  have asked : Matched w Kin.same (send I v .toS [] >>= textOr v)
      (send J v' .toS [] >>= textOr v') :=
    (matched_sendFirst hI hv (by decide) .nil).bind fun _ h₁ _ _ hu =>
      matched_textOr (hv.later h₁) hu
  cases hv with
  | str id => exact matched_text id
  | _ => exact asked

/-- So is the text that shows a value. -/
theorem matched_inspect (hI : I.Matched J) (hv : Kin.value w v v') :
    Matched w Kin.same (inspect I v) (inspect J v') :=
  (matched_sendFirst hI hv (by decide) .nil).bind fun _ h₁ _ _ hu =>
    matched_textOr (hv.later h₁) hu

/-- A class of the library is asked for by its text. -/
theorem matched_classNamed (name : String) :
    Matched w Kin.same (classNamed name) (classNamed name) := by
  refine (Matched.view fun _ _ _ hmn => hmn.classes.find?_eq name).andThen fun _ _ found => ?_
  cases found with
  | none => exact .fault _
  | some c => exact .pure rfl

/-- An exception of the library is made with the same text. -/
theorem matched_newException (hI : I.Matched J) (className message : String) :
    Matched w Kin.value (newException I className message) (newException J className message) :=
  (matched_classNamed className).andThen fun _ _ c => (Matched.newString message).bind
    fun _ _ _ _ ht => matched_sendFirst hI (.cls c) (by decide) (.cons ht .nil)

/-! ### Arguments -/

omit [Comparison] in
/-- Arguments at one index correspond, and a missing one is `nil` on both sides. -/
theorem alike_arg (ha : Kin.values w args args') (i : Nat) :
    Kin.value w (arg args i) (arg args' i) := by
  rw [arg, arg, List.getD_eq_getElem?_getD, List.getD_eq_getElem?_getD]
  exact Kin.option_getD (Kin.list_getElem? ha i) .nil

/-- A fault that shows a value shows the same text. -/
theorem matched_faultOn (hv : Kin.value w v v') (cause : String → Fault) :
    Matched w R (faultOn v cause) (faultOn v' cause) :=
  (matched_className hv).andThen fun _ _ _ => .fault _

/-- A value is an integer on both sides, the same one, or is refused alike. -/
theorem matched_expectInteger (hv : Kin.value w v v') :
    Matched w Kin.same (expectInteger v) (expectInteger v') := by
  have other := matched_faultOn (R := Kin.same (α := Int64)) hv (.noConversion · "Integer")
  cases hv with
  | int i => exact .pure rfl
  | _ => exact other

theorem matched_expectText (hv : Kin.value w v v') :
    Matched w Kin.same (expectText v) (expectText v') := by
  have other := matched_faultOn (R := Kin.same (α := String)) hv (.noConversion · "String")
  cases hv with
  | str id => exact matched_text id
  | _ => exact other

theorem matched_expectClass (hv : Kin.value w v v') :
    Matched w Kin.same (expectClass v) (expectClass v') := by
  have other := matched_faultOn (R := Kin.same (α := ClassId)) hv .notAClass
  cases hv with
  | cls c => exact .pure rfl
  | _ => exact other

theorem matched_expectElements (hv : Kin.value w v v') :
    Matched w Kin.values (expectElements v) (expectElements v') := by
  have other := matched_faultOn (R := Kin.values) hv (.noConversion · "Array")
  cases hv with
  | arr id => exact .view fun _ _ _ hmn => hmn.heap.elements id
  | _ => exact other

/-- A name is taken from a symbol or from a text. -/
theorem matched_expectName (hI : I.Matched J) (hv : Kin.value w v v') :
    Matched w Kin.name (expectName I v) (expectName J v') := by
  have other : Matched w Kin.name (inspect I v >>= fun text => fault (.notAName text))
      (inspect J v' >>= fun text => fault (.notAName text)) :=
    (matched_inspect hI hv).andThen fun _ _ _ => .fault _
  cases hv with
  | sym h => exact .pure h
  | str id => exact (matched_text id).andThen fun _ _ text => .intern text
  | _ => exact other

theorem matched_answer (b : Bool) : Matched w Kin.value (answer b) (answer b) := .pure (.bool b)

end Run

end MiniRuby
