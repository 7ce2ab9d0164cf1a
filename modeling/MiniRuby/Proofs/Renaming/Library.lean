import MiniRuby.Library
import MiniRuby.Proofs.Renaming.Dispatch
import MiniRuby.Proofs.Renaming.Same

/-!
# The library does not look at positions of names

A native method that is called on machines that are alike goes side by side with itself, as long as
the calls that it makes do (`Native.matched_run`).  The answers of two of them tell the positions of
names (`Native.TellsPositions`): the one that gives an object's number, and the one that lists the
methods of a class in the order of their names.  These do so only on one table of names, where
machines that are alike are the same.
-/

namespace MiniRuby

open Run (Matched)

variable [Comparison] {w : Tables}

open Run

variable {I J : Invoke} {self self' other other' v v' : Value} {args args' : List Value}

/-! ### Numbers -/

omit [Comparison] in
/-- Two numbers compare alike, as no number has a name in it. -/
theorem compareNumbers?_eq (hs : Kin.value w self self') (ho : Kin.value w other other') :
    compareNumbers? self' other' = compareNumbers? self other := by
  cases hs <;> cases ho <;> rfl

omit [Comparison] in
theorem isNaN_eq (hv : Kin.value w v v') : isNaN v' = isNaN v := by
  cases hv <;> rfl

/-- Numbers are in an order on both machines or on neither, and what is no number is inspected for
the error on both. -/
theorem matched_inOrder (hI : I.Matched J) (test : Ordering → Bool) (hs : Kin.value w self self')
    (ho : Kin.value w other other') :
    Matched w Kin.value (inOrder I test self other) (inOrder J test self' other') := by
  rw [inOrder, inOrder, compareNumbers?_eq hs ho]
  cases compareNumbers? self other with
  | some o => exact matched_answer _
  | none =>
      refine .ite (by rw [isNaN_eq hs, isNaN_eq ho]) (matched_answer _) ?_
      exact (matched_className hs).andThen fun _ h₁ _ =>
        (matched_inspect hI (ho.later h₁)).andThen fun _ _ _ => .fault _

/-- **Comparisons** of values that correspond have the same answer. -/
theorem OrderOp.matched_run (hI : I.Matched J) (op : OrderOp) (hs : Kin.value w self self')
    (ha : Kin.values w args args') :
    Matched w Kin.value (op.run I self args) (op.run J self' args') := by
  have ho := alike_arg ha 0
  cases op with
  | equals =>
      rw [run, run, compareNumbers?_eq hs ho]
      exact matched_answer _
  | compare =>
      rw [run, run, compareNumbers?_eq hs ho]
      split
      · exact .pure (.int _)
      · exact .pure .nil
  | _ => exact matched_inOrder hI _ hs ho

namespace IntegerOp

theorem matched_receiver (hs : Kin.value w self self') :
    Matched w Kin.same (receiver self) (receiver self') := by
  cases hs with
  | int i => exact .pure rfl
  | _ => exact .fault _

/-- A number or a fault of the arithmetic has no name in it. -/
theorem matched_ofExcept (r : Except Fault Int64) :
    Matched w Kin.value (.int <$> Run.ofExcept r) (.int <$> Run.ofExcept r) :=
  (Matched.worked r).andThen fun _ _ i => .pure (.int i)

/-- An operation on integers goes over to floats in the same cases. -/
theorem matched_arithmetic (f : Int64 → Int64 → Except Fault Int64) (g : Float → Float → Float)
    (hs : Kin.value w self self') (ho : Kin.value w other other') :
    Matched w Kin.value (arithmetic f g self other) (arithmetic f g self' other') := by
  refine (matched_receiver hs).andThen fun w₁ h₁ a => ?_
  have faulty := matched_faultOn (R := Kin.value) (ho.later h₁) (.noCoercion · "Integer")
  cases ho with
  | int b => exact matched_ofExcept _
  | float x => exact .pure (.float _)
  | _ => exact faulty

/-- A power answers the same, as the exponent is a number. -/
theorem matched_power (hs : Kin.value w self self') (ho : Kin.value w other other') :
    Matched w Kin.value (power self other) (power self' other') := by
  refine (matched_receiver hs).andThen fun w₁ h₁ a => ?_
  have faulty := matched_faultOn (R := Kin.value) (ho.later h₁) (.noCoercion · "Integer")
  cases ho with
  | int b => exact .ite Iff.rfl (.pure (.float _)) (matched_ofExcept _)
  | float x => exact .pure (.float _)
  | _ => exact faulty

theorem matched_unary (f : Int64 → Except Fault Int64) (hs : Kin.value w self self') :
    Matched w Kin.value (unary f self) (unary f self') :=
  (matched_receiver hs).andThen fun _ _ _ => matched_ofExcept _

/-- **Integers** answer the same on both machines. -/
theorem matched_run (op : IntegerOp) (hs : Kin.value w self self') (ha : Kin.values w args args') :
    Matched w Kin.value (op.run self args) (op.run self' args') := by
  have ho := alike_arg ha 0
  cases op with
  | add | sub | mul => exact matched_arithmetic _ _ hs ho
  | div | mod =>
      refine (Matched.view fun _ _ _ hmn => congrArg Host.division hmn.host).andThen
        fun _ h₁ _ => matched_arithmetic _ _ (hs.later h₁) (ho.later h₁)
  | pow => exact matched_power hs ho
  | neg | abs | succ => exact matched_unary _ hs
  | toS => exact (matched_receiver hs).andThen fun _ _ _ => .newString _
  | toI => exact .pure hs
  | toF => exact (matched_receiver hs).andThen fun _ _ _ => .pure (.float _)
  | isZero =>
      rw [run, run, compareNumbers?_eq hs (.int 0)]
      exact matched_answer _
  | isEven | isOdd => exact (matched_receiver hs).andThen fun _ _ _ => matched_answer _

end IntegerOp

namespace FloatOp

theorem matched_receiver (hs : Kin.value w self self') :
    Matched w Kin.same (receiver self) (receiver self') := by
  cases hs with
  | float x => exact .pure rfl
  | _ => exact .fault _

/-- An operand is taken as a float, or refused, on both machines. -/
theorem matched_operand (hv : Kin.value w v v') :
    Matched w Kin.same (operand v) (operand v') := by
  have other := matched_faultOn (R := Kin.same (α := Float)) hv (.noCoercion · "Float")
  cases hv with
  | int i => exact .pure rfl
  | float x => exact .pure rfl
  | _ => exact other

theorem matched_arithmetic (f : Float → Float → Float) (hs : Kin.value w self self')
    (ho : Kin.value w other other') :
    Matched w Kin.value (arithmetic f self other) (arithmetic f self' other') :=
  (matched_receiver hs).andThen fun _ h₁ _ => (matched_operand (ho.later h₁)).andThen
    fun _ _ _ => .pure (.float _)

/-- Rounding looks at the number only. -/
theorem matched_rounded (f : Float → Float) (hs : Kin.value w self self') :
    Matched w Kin.value (rounded f self) (rounded f self') :=
  (matched_receiver hs).andThen fun _ _ _ => IntegerOp.matched_ofExcept _

theorem matched_run (op : FloatOp) (hs : Kin.value w self self') (ha : Kin.values w args args') :
    Matched w Kin.value (op.run self args) (op.run self' args') := by
  have ho := alike_arg ha 0
  cases op with
  | add | sub | mul | div | mod | pow => exact matched_arithmetic _ hs ho
  | toI | floor | ceil | round => exact matched_rounded _ hs
  | toS => exact (matched_receiver hs).andThen fun _ _ _ => .newString _
  | toF => exact .pure hs
  | neg | abs => exact (matched_receiver hs).andThen fun _ _ _ => .pure (.float _)
  | isNaN => exact (matched_receiver hs).andThen fun _ _ _ => matched_answer _

end FloatOp

/-! ### Texts and truth values -/

namespace StringOp

theorem matched_receiver (hs : Kin.value w self self') :
    Matched w Kin.same (receiver self) (receiver self') := by
  cases hs with
  | str id => exact .pure rfl
  | _ => exact .fault _

theorem matched_selfText (hs : Kin.value w self self') :
    Matched w Kin.same (selfText self) (selfText self') :=
  (matched_receiver hs).andThen fun _ _ id => matched_text id

/-- A text made from a text is the same text, at an id that both machines choose. -/
theorem matched_mapped (f : String → String) (hs : Kin.value w self self') :
    Matched w Kin.value (mapped f self) (mapped f self') :=
  (matched_selfText hs).andThen fun _ _ _ => .newString _

/-- A question about two texts has the same answer, as texts have no names in them. -/
theorem matched_tested (test : List Char → List Char → Bool) (hs : Kin.value w self self')
    (ho : Kin.value w other other') :
    Matched w Kin.value (tested test self other) (tested test self' other') :=
  (matched_expectText ho).andThen fun _ h₁ _ => (matched_selfText (hs.later h₁)).andThen
    fun _ _ _ => matched_answer _

/-- A text repeated is refused memory on both machines or on neither, as they have one host. -/
theorem matched_repeated (hs : Kin.value w self self') (ho : Kin.value w other other') :
    Matched w Kin.value (repeated self other) (repeated self' other') := by
  refine (matched_expectInteger ho).andThen fun w₁ h₁ count => .ite Iff.rfl (.fault _) ?_
  refine (matched_selfText (hs.later h₁)).andThen fun w₂ _ text => ?_
  refine (Matched.view fun _ _ _ hmn => congrArg Host.memory hmn.host).andThen fun _ _ memory => ?_
  exact (Matched.worked _).andThen fun _ _ _ => .newString _

theorem matched_run (op : StringOp) (hs : Kin.value w self self') (ha : Kin.values w args args') :
    Matched w Kin.value (op.run self args) (op.run self' args') := by
  have ho := alike_arg ha 0
  cases op with
  | concat =>
      exact (matched_expectText ho).andThen fun _ h₁ _ =>
        (matched_selfText (hs.later h₁)).andThen fun _ _ _ => .newString _
  | append =>
      refine (matched_expectText ho).andThen fun w₁ h₁ right =>
        (matched_receiver (hs.later h₁)).andThen fun w₂ h₂ id => ?_
      refine (Matched.updateHeap fun _ _ _ _ _ hk => Heap.Alike.append hk id right).andThen
        fun w₃ h₃ _ => ?_
      exact .pure (hs.later (h₁.trans (h₂.trans h₃)))
  | times => exact matched_repeated hs ho
  | equals =>
      refine (matched_selfText hs).andThen fun w₁ h₁ left => ?_
      refine (Matched.view fun m n hw hmn => ?_).andThen fun _ _ _ => matched_answer _
      exact hmn.heap.text?_eq (ho.later (h₁.trans hw))
  | size => exact (matched_selfText hs).andThen fun _ _ _ => .pure (.int _)
  | isEmpty => exact (matched_selfText hs).andThen fun _ _ _ => matched_answer _
  | includes | startsWith => exact matched_tested _ hs ho
  | upcase | downcase | reverse | inspect => exact matched_mapped _ hs
  | toS => exact .pure hs
  | toSym =>
      exact (matched_selfText hs).andThen fun _ _ text =>
        (Matched.intern text).map fun _ _ _ _ h => .sym h
  | toI => exact (matched_selfText hs).andThen fun _ _ _ => IntegerOp.matched_ofExcept _

end StringOp

theorem SymbolOp.matched_run (op : SymbolOp) (hs : Kin.value w self self') :
    Matched w Kin.value (op.run self) (op.run self') := by
  have named : Matched w Kin.same (selfName self) (selfName self') := by
    cases hs with
    | sym h => exact .nameText h
    | _ => exact .fault _
  cases op with
  | toS => exact named.andThen fun _ _ _ => .newString _
  | toSym => exact .pure hs
  | inspect => exact named.andThen fun _ _ _ => .newString _

theorem TruthOp.matched_run (op : TruthOp) (ha : Kin.values w args args') :
    Matched w Kin.value (op.run args) (op.run args') := by
  cases op with
  | always b => exact matched_answer b
  | argument =>
      rw [run, run, (alike_arg ha 0).truthy_eq]
      exact matched_answer _
  | noElements => exact .newArray .nil
  | text s => exact .newString s

/-! ### Arrays -/

omit [Comparison] in
/-- Elements at one index correspond, and there is `nil` past the end. -/
theorem alike_elementAt {as bs : Array Value} (h : Kin.value.array w as bs) (i : Int) :
    Kin.value w (elementAt as i) (elementAt bs i) := by
  simp only [elementAt, Kin.array_size h]
  split
  · exact .nil
  · exact Kin.option_getD (Kin.array_getElem? h _) .nil

omit [Comparison] in
/-- Elements still correspond after values that correspond are placed at one position. -/
theorem alike_place {as bs : Array Value} (h : Kin.value.array w as bs) (p : Nat)
    (hv : Kin.value w v v') : Kin.value.array w (place as p v) (place bs p v') := by
  simp only [place, Kin.array_size h]
  split
  · exact Kin.array_set h p hv
  · exact Kin.array_push (Kin.array_append h (Kin.array_replicate _ .nil)) hv

namespace ArrayOp

theorem matched_receiver (hs : Kin.value w self self') :
    Matched w Kin.same (receiver self) (receiver self') := by
  cases hs with
  | arr id => exact .pure rfl
  | _ => exact .fault _

/-- The elements of one array correspond on the two machines. -/
theorem matched_elements (id : ArrayId) :
    Matched w Kin.value.array (Action.view fun m : Machine => m.heap.elements id)
      (Action.view fun m : Machine => m.heap.elements id) :=
  .view fun _ _ _ hmn => hmn.heap.elements id

theorem matched_selfElements (hs : Kin.value w self self') :
    Matched w Kin.value.array (selfElements self) (selfElements self') :=
  (matched_receiver hs).andThen fun _ _ id => matched_elements id

/-- Elements that are changed alike correspond again. -/
theorem matched_modifyElements (id : ArrayId) {f g : Array Value → Array Value}
    (h : ∀ w', w ≤ w' → ∀ as bs, Kin.value.array w' as bs → Kin.value.array w' (f as) (g bs)) :
    Matched w Kin.same (Run.updateHeap fun h => h.modifyElements id f)
      (Run.updateHeap fun h => h.modifyElements id g) :=
  .updateHeap fun w' hw _ _ _ hk => Heap.Alike.modifyElements hk id (h w' hw)

/-- **A value is stored** on both machines or is refused on both. -/
theorem matched_store (hs : Kin.value w self self') (ho : Kin.value w other other')
    (hv : Kin.value w v v') :
    Matched w Kin.value (store self other v) (store self' other' v') := by
  refine (matched_expectInteger ho).andThen fun w₁ h₁ i =>
    (matched_receiver (hs.later h₁)).andThen fun w₂ h₂ id => ?_
  refine (Matched.view fun _ _ _ hmn => Kin.array_size (hmn.heap.elements id)).andThen
    fun w₃ h₃ size => ?_
  refine (Matched.view fun _ _ _ hmn => congrArg Host.memory hmn.host).andThen
    fun w₄ h₄ memory => ?_
  refine (Matched.worked _).andThen fun w₅ h₅ p => ?_
  have hv := hv.later (h₁.trans (h₂.trans (h₃.trans (h₄.trans h₅))))
  refine (matched_modifyElements id fun w₆ h₆ as bs h => ?_).andThen fun w₆ h₆ _ => ?_
  · exact alike_place h p (hv.later h₆)
  · exact .pure (hv.later h₆)

/-- Equality of elements is a call of `==`. -/
theorem matched_equal (hI : I.Matched J) (hv : Kin.value w v v') (ho : Kin.value w other other') :
    Matched w Kin.same (equal I v other) (equal J v' other') :=
  (matched_sendFirst hI hv (by decide) (.cons ho .nil)).bind fun _ _ _ _ h => .pure h.truthy_eq

/-- Arrays are equal on both machines or on neither. -/
theorem matched_equalElements (hI : I.Matched J) (hs : Kin.value w self self')
    (ho : Kin.value w other other') :
    Matched w Kin.value (equalElements I self other) (equalElements J self' other') := by
  cases ho with
  | arr id =>
      refine (matched_elements id).bind fun w₁ h₁ right right' hright =>
        (matched_selfElements (hs.later h₁)).bind fun w₂ h₂ left left' hleft => ?_
      have hright := Kin.value.array.mono h₂ hright
      refine .ite ?_ ?_ (matched_answer _)
      · rw [Kin.array_size hleft, Kin.array_size hright]
      · refine (Matched.any (R := Kin.value.prod Kin.value) (fun w₃ _ p q hp => ?_)
          (Kin.list_zip hleft hright)).andThen fun _ _ _ => matched_answer _
        exact (matched_equal hI hp.1 hp.2).map fun _ _ _ _ h => congrArg Bool.not h
  | _ => exact matched_answer _

/-- **Joining** asks each element for its text by a call. -/
theorem matched_joined (hI : I.Matched J) (hs : Kin.value w self self')
    (ha : Kin.values w args args') :
    Matched w Kin.value (joined I self args) (joined J self' args') := by
  have rest : ∀ w', w ≤ w' → ∀ separator : String, Matched w' Kin.value
      (do
        let elements ← selfElements self
        let parts ← Action.each (Run.toText I) elements.toList
        Run.newString (separator.intercalate parts))
      (do
        let elements ← selfElements self'
        let parts ← Action.each (Run.toText J) elements.toList
        Run.newString (separator.intercalate parts)) := by
    intro w' hw separator
    refine (matched_selfElements (hs.later hw)).bind fun w₁ h₁ as bs h => ?_
    refine (Matched.each (S := Kin.same) (fun _ _ _ _ hv => matched_toText hI hv) h).bind
      fun w₂ _ parts parts' hp => ?_
    obtain rfl := List.forall₂_eq_eq_eq ▸ hp.flip
    exact .newString _
  cases ha with
  | nil => exact rest w le_rfl ""
  | cons hv _ => exact (matched_expectText hv).andThen rest

/-- An array is shown as its elements, each of which is asked by a call. -/
theorem matched_inspectElements (hI : I.Matched J) (hs : Kin.value w self self') :
    Matched w Kin.value (inspectElements I self) (inspectElements J self') := by
  refine (matched_selfElements hs).bind fun w₁ h₁ as bs h => ?_
  refine (Matched.each (S := Kin.same) (fun w₂ h₂ a b hab => .under fun w₃ h₃ valid => ?_) h).bind
    fun _ _ parts parts' hp => ?_
  · have same := (hab.later h₃).identical_eq valid (hs.later (h₁.trans (h₂.trans h₃)))
    exact .ite (by rw [same]) (.pure rfl) (matched_inspect hI (hab.later h₃))
  · obtain rfl := List.forall₂_eq_eq_eq ▸ hp.flip
    exact .newString _

theorem matched_run (hI : I.Matched J) (op : ArrayOp) (hs : Kin.value w self self')
    (ha : Kin.values w args args') :
    Matched w Kin.value (op.run I self args) (op.run J self' args') := by
  have ho := alike_arg ha 0
  cases op with
  | get =>
      exact (matched_expectInteger ho).andThen fun _ h₁ i =>
        (matched_selfElements (hs.later h₁)).bind fun _ _ _ _ h =>
          .pure (alike_elementAt h i.toInt)
  | set => exact matched_store hs ho (alike_arg ha 1)
  | push =>
      refine (matched_receiver hs).andThen fun w₁ h₁ id => ?_
      refine (matched_modifyElements id fun w₂ h₂ as bs h => ?_).andThen fun w₂ h₂ _ => ?_
      · exact Kin.array_appendList h (Kin.values.mono (h₁.trans h₂) ha)
      · exact .pure (hs.later (h₁.trans h₂))
  | pop =>
      refine (matched_receiver hs).andThen fun w₁ h₁ id => ?_
      refine (Matched.view (R := Kin.value.option) fun _ _ _ hmn =>
        Kin.array_back? (hmn.heap.elements id)).bind fun w₂ _ v v' hv => ?_
      refine (matched_modifyElements id fun _ _ _ _ => Kin.array_pop).andThen fun w₃ h₃ _ => ?_
      exact .pure (Kin.option_getD (Kin.value.option.mono h₃ hv) .nil)
  | first =>
      exact (matched_selfElements hs).bind fun _ _ _ _ h =>
        .pure (Kin.option_getD (Kin.array_getElem? h 0) .nil)
  | last =>
      exact (matched_selfElements hs).bind fun _ _ _ _ h =>
        .pure (Kin.option_getD (Kin.array_back? h) .nil)
  | size =>
      refine (matched_selfElements hs).bind fun _ _ _ _ h => ?_
      rw [Kin.array_size h]
      exact .pure (.int _)
  | isEmpty =>
      refine (matched_selfElements hs).bind fun _ _ _ _ h => ?_
      rw [Array.isEmpty, Array.isEmpty, Kin.array_size h]
      exact matched_answer _
  | includes =>
      refine (matched_selfElements hs).bind fun w₁ h₁ as bs h => ?_
      have anyOf := Matched.any
        (fun _ h₂ _ _ hv => matched_equal hI hv (ho.later (h₁.trans h₂))) h
      exact anyOf.andThen fun _ _ _ => matched_answer _
  | concat =>
      exact (matched_expectElements ho).bind fun _ h₁ _ _ hr =>
        (matched_selfElements (hs.later h₁)).bind fun _ h₂ _ _ hl =>
          .newArray (Kin.array_appendList hl (Kin.values.mono h₂ hr))
  | equals => exact matched_equalElements hI hs ho
  | join => exact matched_joined hI hs ha
  | reverse =>
      exact (matched_selfElements hs).bind fun _ _ _ _ h => .newArray (Kin.array_reverse h)
  | inspect => exact matched_inspectElements hI hs

end ArrayOp

/-! ### Objects -/

/-- The instance variables of an object in alphabetical order are alike. -/
theorem Machine.Alike.variablesByName {m n : Machine} (h : m.Alike n) (id : ObjectId) :
    (Kin.same.prod (Kin.name.prod Kin.value)).list (m.both n) (m.variablesByName id)
      (n.variablesByName id) := by
  refine Kin.list_mergeSort ?_ fun a b a' b' hab hab' => by rw [hab.1, hab'.1]
  change List.Forall₂ _ _ _
  rw [List.forall₂_map_left_iff, List.forall₂_map_right_iff]
  exact (h.heap.object id).ivars.imp fun e e' he => ⟨he.1.2.2, he.1, he.2⟩

namespace ObjectOp

/-- The name of a variable is taken from a text or from a symbol with the same text. -/
theorem matched_variableName (hI : I.Matched J) (hv : Kin.value w v v') :
    Matched w Kin.name (variableName I v) (variableName J v') := by
  refine (matched_expectName hI hv).bind fun w₁ _ x y hn => ?_
  refine (Matched.nameText hn).andThen fun w₂ h₂ text => ?_
  exact .ite Iff.rfl (.pure (hn.mono h₂)) (.fault _)

theorem matched_plainText (hs : Kin.value w self self') :
    Matched w Kin.value (plainText self) (plainText self') :=
  (Matched.view fun _ _ hw hmn => hmn.plainText_eq (hs.later hw)).andThen fun _ _ _ => .newString _

/-- The variables of an object sorted by the text of the names, which a renaming leaves alone. -/
theorem matched_variablesByName (id : ObjectId) :
    Matched w (Kin.same.prod (Kin.name.prod Kin.value)).list
      (Action.view fun m : Machine => m.variablesByName id)
      (Action.view fun m : Machine => m.variablesByName id) :=
  .view fun _ _ _ hmn => hmn.variablesByName id

/-- **An object is shown** with its variables in the order of their texts, so the same on both
machines. -/
theorem matched_inspectObject (hI : I.Matched J) (hs : Kin.value w self self') :
    Matched w Kin.value (inspectObject I self) (inspectObject J self') := by
  have plain := matched_plainText hs
  cases hs with
  | obj id =>
      refine .ite Iff.rfl plain ((matched_variablesByName id).bind fun w₁ h₁ es es' he => ?_)
      refine (Matched.each (S := Kin.same) (fun w₂ _ e e' he => ?_) he).bind
        fun w₂ h₂ parts parts' hp => ?_
      · obtain ⟨text, x, v⟩ := e
        obtain ⟨text', y, v'⟩ := e'
        obtain ⟨rfl, -, hv⟩ := he
        exact (matched_inspect hI hv).andThen fun _ _ _ => .pure rfl
      · obtain rfl := List.forall₂_eq_eq_eq ▸ hp.flip
        exact (matched_className (.obj id)).andThen fun _ _ _ => .newString _
  | _ => exact plain

/-- The names of the variables are listed in the same order. -/
theorem matched_namesOfVariables (hs : Kin.value w self self') :
    Matched w Kin.value (namesOfVariables self) (namesOfVariables self') := by
  cases hs with
  | obj id =>
      refine (matched_variablesByName id).bind fun w₁ _ es es' he => .newArray ?_
      change List.Forall₂ _ _ _
      rw [List.forall₂_map_left_iff, List.forall₂_map_right_iff]
      exact he.imp fun e e' he => .sym he.2.1
  | _ => exact .newArray .nil

/-- The class of values that correspond is the same class. -/
theorem matched_classOf (hs : Kin.value w self self') :
    Matched w Kin.same (Action.view (fun m : Machine => m.classOf self) >>= Run.ofExcept)
      (Action.view (fun m : Machine => m.classOf self') >>= Run.ofExcept) :=
  (Matched.view fun _ _ hw hmn => hmn.classOf_eq (hs.later hw)).andThen fun _ _ r => .worked r

/-- Values that correspond belong to the same classes. -/
theorem matched_isA (hs : Kin.value w self self') (c : ClassId) :
    Matched w Kin.same (Action.view (fun m : Machine => m.isA self c) >>= Run.ofExcept)
      (Action.view (fun m : Machine => m.isA self' c) >>= Run.ofExcept) :=
  (Matched.view fun _ _ hw hmn => hmn.isA_eq (hs.later hw) c).andThen fun _ _ r => .worked r

/-- Values that are alike have the same number on one table of names. -/
theorem matched_objectId (same : Comparison.sameTable) (hs : Kin.value w self self') :
    Matched w Kin.value (Pure.pure (.int self.objectId.toInt64))
      (Pure.pure (.int self'.objectId.toInt64)) :=
  .under fun _ hw valid => by
    rw [(Kin.Tight.value valid.left).eq valid same (hs.later hw)]
    exact .pure (.int _)

/-- **Objects** answer the same, except that `object_id` tells two tables of names apart. -/
theorem matched_run (hI : I.Matched J) (op : ObjectOp) (ho : op = .objectId → Comparison.sameTable)
    (hs : Kin.value w self self') (ha : Kin.values w args args') :
    Matched w Kin.value (op.run I self args) (op.run J self' args') := by
  have hv := alike_arg ha 0
  cases op with
  | same =>
      refine .under fun w₁ h₁ valid => ?_
      have same := (hs.later h₁).identical_eq valid (hv.later h₁)
      exact .pure (same ▸ .bool _)
  | differs =>
      refine (matched_sendFirst hI hs (by decide) ha).bind fun _ _ _ _ h => ?_
      exact .pure (h.truthy_eq ▸ .bool _)
  | negate => exact .pure (hs.truthy_eq ▸ .bool _)
  | setup => exact .pure .nil
  | classOf => exact (matched_classOf hs).andThen fun _ _ c => .pure (.cls c)
  | inspect => exact matched_inspectObject hI hs
  | toS => exact matched_plainText hs
  | isNil => exact matched_answer _
  | isA =>
      refine (matched_expectClass hv).andThen fun w₁ h₁ c => ?_
      exact (matched_isA (hs.later h₁) c).andThen fun _ _ b => .pure (.bool b)
  | instanceOf =>
      refine (matched_expectClass hv).andThen fun w₁ h₁ c => ?_
      exact (matched_classOf (hs.later h₁)).andThen fun _ _ own => matched_answer _
  | respondTo =>
      refine (matched_expectName hI hv).bind fun w₁ h₁ x y hn => ?_
      refine (matched_findMethod (hs.later h₁) hn).bind fun w₂ _ f f' hf => ?_
      exact .pure (Kin.option_isSome hf ▸ .bool _)
  | objectId => exact matched_objectId (ho rfl) hs
  | send =>
      refine (matched_expectName hI hv).bind fun w₁ h₁ x y hn => ?_
      refine matched_send hI (hs.later h₁) hn ?_
      cases ha with
      | nil => exact .nil
      | cons _ rest => exact Kin.values.mono h₁ rest
  | bind =>
      exact (matched_expectName hI hv).bind fun _ h₁ _ _ hn => matched_bindMethod (hs.later h₁) hn
  | variableGet =>
      exact (matched_variableName hI hv).bind fun _ h₁ _ _ hn => .getVariable (hs.later h₁) hn
  | variableSet =>
      exact (matched_variableName hI hv).bind fun _ h₁ _ _ hn =>
        .setVariable (hs.later h₁) hn ((alike_arg ha 1).later h₁)
  | variableNames => exact matched_namesOfVariables hs

end ObjectOp

/-! ### Output and exceptions -/

namespace KernelOp

/-- What `puts` writes for a value, with the arrays on the current path left out. -/
theorem matched_putsValue (hI : I.Matched J) (fuel : Nat) (path : List ArrayId)
    (hv : Kin.value w v v') :
    Matched w Kin.same (putsValue I fuel path v) (putsValue J fuel path v') := by
  induction fuel generalizing w path v v' with
  | zero => exact .exhaust
  | succ fuel ih =>
      have line := (matched_toText hI hv).andThen (f := fun text => Run.write (asLine text))
        fun _ _ _ => .write _
      cases hv with
      | arr id =>
          refine .ite Iff.rfl (.write _) ((ArrayOp.matched_elements id).bind fun w₁ _ as bs h => ?_)
          refine .ite (by rw [Array.isEmpty, Array.isEmpty, Kin.array_size h]) (.write _) ?_
          exact (Matched.each (S := Kin.same) (fun _ _ _ _ hv => ih (id :: path) hv) h).bind
            fun _ _ _ _ _ => .pure rfl
      | _ => exact line

/-- `puts` writes the same lines. -/
theorem matched_putLines (hI : I.Matched J) (fuel : Nat) (ha : Kin.values w args args') :
    Matched w Kin.value (putLines fuel I args) (putLines fuel J args') := by
  have lines : ∀ w', w ≤ w' → Matched w' Kin.value
      (Action.each (putsValue I fuel []) args >>= fun _ => pure Value.nil)
      (Action.each (putsValue J fuel []) args' >>= fun _ => pure Value.nil) := fun w' hw =>
    (Matched.each (S := Kin.same) (fun _ _ _ _ hv => matched_putsValue hI fuel [] hv)
      (Kin.values.mono hw ha)).bind fun _ _ _ _ _ => .pure .nil
  have empty : args'.isEmpty = args.isEmpty := by
    cases ha <;> rfl
  refine .ite (by rw [empty]) ?_ (lines w le_rfl)
  exact (Matched.write _).andThen fun w' hw _ => lines w' hw

/-- `print` writes the same texts. -/
theorem matched_printTexts (hI : I.Matched J) (ha : Kin.values w args args') :
    Matched w Kin.value (printTexts I args) (printTexts J args') := by
  refine (Matched.each (S := Kin.same) (fun _ _ v v' hv => ?_) ha).bind fun _ _ _ _ _ => .pure .nil
  exact (matched_toText hI hv).andThen fun _ _ text => .write text

/-- `p` writes what `inspect` answers. -/
theorem matched_showValues (hI : I.Matched J) (ha : Kin.values w args args') :
    Matched w Kin.value (showValues I args) (showValues J args') := by
  refine (Matched.each (S := Kin.same) (fun _ _ v v' hv => ?_) ha).bind fun w₁ h₁ _ _ _ => ?_
  · exact (matched_inspect hI hv).andThen fun _ _ text => .write (text ++ "\n")
  · have all := Kin.values.mono h₁ ha
    rcases ha with _ | ⟨hv, _ | ⟨hu, rest⟩⟩
    · exact .pure .nil
    · exact .pure (hv.later h₁)
    · exact .newArray all

/-- The exception that `raise` is given, or makes from a class or a text. -/
theorem matched_exceptionFor (hI : I.Matched J) (ha : Kin.values w args args') :
    Matched w Kin.value (exceptionFor I args) (exceptionFor J args') := by
  rcases ha with _ | ⟨hv, _ | ⟨hu, _ | ⟨ht, rest⟩⟩⟩
  · exact matched_newException hI _ _
  · cases hv with
    | str id => exact (matched_text id).andThen fun _ _ message => matched_newException hI _ message
    | cls c => exact matched_sendFirst hI (.cls c) (by decide) .nil
    | sym h => exact .pure (.sym h)
    | _ => exact .pure (by constructor)
  · cases hv with
    | cls c => exact matched_sendFirst hI (.cls c) (by decide) (.cons hu .nil)
    | _ => exact .fault _
  · cases hv <;> exact .fault _

/-- Exceptions that correspond are raised. -/
theorem matched_raiseException (hI : I.Matched J) (ha : Kin.values w args args') :
    Matched w Kin.value (raiseException I args) (raiseException J args') := by
  refine (matched_exceptionFor hI ha).bind fun w₁ _ e e' he => ?_
  refine (Matched.view fun _ _ hw hmn => hmn.isA_eq (he.later hw) .exception).andThen
    fun w₂ h₂ r => (Matched.worked r).andThen fun w₃ h₃ b => ?_
  exact .ite Iff.rfl (.fail ⟨.raised (he.later (h₂.trans h₃)), rfl⟩) (.fault _)

/-- A check that fails says what the two values are. -/
theorem matched_checkEqual (hI : I.Matched J) (ha : Kin.values w args args') :
    Matched w Kin.value (checkEqual I args) (checkEqual J args') := by
  have h₀ := alike_arg ha 0
  have h₁ := alike_arg ha 1
  refine (matched_sendFirst hI h₀ (by decide) (.cons h₁ .nil)).bind fun w₁ hw₁ v v' hv => ?_
  refine .ite (by rw [hv.truthy_eq]) (.pure .nil) ?_
  refine (matched_inspect hI (h₀.later hw₁)).andThen fun w₂ hw₂ left => ?_
  exact (matched_inspect hI (h₁.later (hw₁.trans hw₂))).andThen fun _ _ right => .fault _

theorem matched_run (hI : I.Matched J) (fuel : Nat) (op : KernelOp)
    (ha : Kin.values w args args') :
    Matched w Kin.value (op.run fuel I args) (op.run fuel J args') := by
  cases op with
  | puts => exact matched_putLines hI fuel ha
  | print => exact matched_printTexts hI ha
  | p => exact matched_showValues hI ha
  | raise => exact matched_raiseException hI ha
  | assert => exact matched_checkEqual hI ha

end KernelOp

namespace ExceptionOp

/-- An exception keeps its message in a variable whose name both machines have. -/
theorem matched_keepMessage (hs : Kin.value w self self') (ha : Kin.values w args args') :
    Matched w Kin.value (keepMessage self args) (keepMessage self' args') := by
  cases hs with
  | obj id =>
      cases ha with
      | nil => exact .pure .nil
      | cons hv _ =>
          refine .ite (by rw [hv.isNil_eq]) (.pure .nil) ?_
          refine (Matched.updateHeap fun w' hw valid h k hk => ?_).andThen fun _ _ _ => .pure .nil
          exact Heap.Alike.setVariable hk valid id (valid.first (by decide)) (hv.later hw)
  | _ => cases ha <;> exact .pure .nil

theorem matched_run (op : ExceptionOp) (hs : Kin.value w self self')
    (ha : Kin.values w args args') :
    Matched w Kin.value (op.run self args) (op.run self' args') := by
  cases op with
  | setup => exact matched_keepMessage hs ha
  | message =>
      exact (Matched.view fun _ _ hw hmn => hmn.exceptionMessage_eq (hs.later hw)).andThen
        fun _ _ _ => .newString _
  | inspect =>
      refine (Matched.view (R := Kin.same) fun _ _ hw hmn => ?_).andThen fun _ _ _ => .newString _
      have hs := hs.later hw
      change shown _ _ = shown _ _
      rw [hmn.className_eq hs, hmn.exceptionMessage_eq hs]

end ExceptionOp

/-! ### Classes and bound methods -/

/-- A value in a heap. -/
abbrev Kin.made : Kin (Value × Heap) := Kin.value.prod Kin.heap

/-- Instances of the same class are made, with arguments that are alike. -/
theorem Machine.Alike.instantiate {m n : Machine} (h : m.Alike n) (c : ClassId)
    (ha : Kin.values (m.both n) args args') (memory : Memory) :
    Kin.made.except Kin.same (m.both n) (m.classes.instantiate m.heap c args memory)
      (n.classes.instantiate n.heap c args' memory) := by
  have sized : ∀ (size : Except Fault Nat) {v v' : Value}, Kin.value (m.both n) v v' →
      Kin.made.except Kin.same (m.both n)
        (size >>= fun k => if memory.holdsElements 0 k then
          .ok (m.heap.newArray c (Array.replicate k v)) else .error .tooBig)
        (size >>= fun k => if memory.holdsElements 0 k then
          .ok (n.heap.newArray c (Array.replicate k v')) else .error .tooBig) := by
    intro size v v' hv
    cases size with
    | error cause => exact rfl
    | ok k =>
        change Kin.made.except Kin.same _ (ite _ _ _) (ite _ _ _)
        split
        · exact h.heap.newArray c (Kin.array_replicate k hv)
        · exact rfl
  have size : ∀ {v v' : Value}, Kin.value (m.both n) v v' →
      n.classes.sizeOfNew n.heap v' = m.classes.sizeOfNew m.heap v := by
    intro v v' hv
    have name : n.classes.nameOf n.heap v' = m.classes.nameOf m.heap v := h.className_eq hv
    cases hv with
    | int i => rfl
    | _ => exact congrArg (fun text => Except.error (Fault.noConversion text "Integer")) name
  unfold ClassTable.instantiate
  rw [h.classes.payload_eq]
  cases m.classes.payload c with
  | ivars => exact h.heap.newObject c
  | withheld => exact congrArg Fault.noAllocator (h.classes.name_eq c)
  | text =>
      rcases ha with _ | ⟨hv, _ | ⟨hu, rest⟩⟩
      · exact h.heap.newString c ""
      · have name := congrArg (fun text => Fault.noConversion text "String") (h.className_eq hv)
        cases hv with
        | str id =>
            dsimp only
            rw [h.heap.text_eq]
            exact h.heap.newString c _
        | _ => exact name
      · have length := List.Forall₂.length_eq rest
        cases hv <;> exact congrArg (fun k => Fault.wrongCount (k + 2) _) length.symm
  | elements =>
      rcases ha with _ | ⟨hv, _ | ⟨hu, _ | ⟨ht, rest⟩⟩⟩
      · exact sized (.ok 0) .nil
      · dsimp only
        rw [size hv]
        exact sized _ .nil
      · dsimp only
        rw [size hv]
        exact sized _ hu
      · have length := List.Forall₂.length_eq rest
        exact congrArg (fun k => Fault.wrongCount (k + 3) _) length.symm

namespace ClassOp

variable (c : ClassId)

/-- What is made of a class corresponds if both machines make it alike. -/
theorem matched_instantiate (ha : Kin.values w args args') {x y : Run Value}
    (hx : ∀ m, x m = match m.classes.instantiate m.heap c args m.host.memory with
      | .ok (v, heap) => .done v { m with heap := heap }
      | .error cause => .failed (.ofFault cause) m)
    (hy : ∀ m, y m = match m.classes.instantiate m.heap c args' m.host.memory with
      | .ok (v, heap) => .done v { m with heap := heap }
      | .error cause => .failed (.ofFault cause) m) : Matched w Kin.value x y := by
  intro m n hw hmn
  have made := hmn.instantiate c (Kin.values.mono hw ha) m.host.memory
  have memory : n.host.memory = m.host.memory := congrArg Host.memory hmn.host
  rw [hx, hy, memory]
  generalize m.classes.instantiate m.heap c args m.host.memory = r at made ⊢
  generalize n.classes.instantiate n.heap c args' m.host.memory = r' at made ⊢
  match r, r' with
  | .ok (v, h), .ok (v', k) => exact .done le_rfl { hmn with heap := made.2 } made.1
  | .error cause, .error cause' =>
      obtain rfl : cause' = cause := made
      exact .failed le_rfl hmn (.ofFault _)
  | .ok _, .error _ => exact made.elim
  | .error _, .ok _ => exact made.elim

/-- **An instance is made** and told to initialise itself, on both machines. -/
theorem matched_makeInstance (hI : I.Matched J) (ha : Kin.values w args args') :
    Matched w Kin.value (makeInstance I c args) (makeInstance J c args') := by
  refine (Matched.view fun _ _ _ hmn => hmn.classes.payload_eq c).andThen fun w₁ h₁ payload => ?_
  have ha := Kin.values.mono h₁ ha
  cases payload with
  | ivars =>
      refine (matched_instantiate c .nil (fun _ => rfl) fun _ => rfl).bind fun w₂ h₂ v v' hv => ?_
      refine (matched_sendFirst hI hv (by decide) (Kin.values.mono h₂ ha)).bind
        fun w₃ h₃ _ _ _ => ?_
      exact .pure (hv.later h₃)
  | _ => exact matched_instantiate c ha (fun _ => rfl) fun _ => rfl

/-- Methods are removed under names that correspond. -/
theorem matched_removeMethods (hI : I.Matched J) (ha : Kin.values w args args') :
    Matched w Kin.same (removeMethods I c args) (removeMethods J c args') := by
  refine (Matched.each (S := Kin.same) (fun w₁ _ v v' hv => ?_) ha).bind fun _ _ _ _ _ => .pure rfl
  refine (matched_expectName hI hv).bind fun w₂ _ x y hn => ?_
  refine (Matched.view (R := Kin.method.option) fun _ _ hw hmn =>
    Kin.bindings_get? (hmn.classes.get c).methods hmn.valid (hn.mono hw)).bind
      fun w₃ h₃ f f' hf => ?_
  have hn := hn.mono h₃
  refine .ite (by rw [Kin.option_isSome hf]) ?_ ?_
  · exact .updateClasses fun _ hw valid _ _ h => h.removeMethod valid c (hn.mono hw)
  · refine (Matched.view (R := Kin.same) fun m n hw hmn => ?_).andThen fun _ _ _ => .fault _
    have text : n.names.text y = m.names.text x := (hn.mono hw).2.2
    change Fault.notDefinedIn _ _ = Fault.notDefinedIn _ _
    rw [text, hmn.classes.name_eq]

/-- Methods that correspond are added to one class. -/
theorem matched_addMethod {f f' : Method} (hf : Kin.method w f f') :
    Matched w Kin.same (Run.updateClasses fun t => t.addMethod c f)
      (Run.updateClasses fun t => t.addMethod c f') :=
  .updateClasses fun _ hw valid _ _ h => h.addMethod valid c (hf.later hw)

/-- Readers and writers are defined under names that correspond. -/
theorem matched_defineAccessors (hI : I.Matched J) (reads writes : Bool)
    (ha : Kin.values w args args') :
    Matched w Kin.value (defineAccessors I reads writes c args)
      (defineAccessors J reads writes c args') := by
  refine (Matched.each (S := Kin.values) (fun w₁ _ v v' hv => ?_) ha).bind
    fun w₁ _ rows rows' hrows => .newArray (List.rel_flatten hrows)
  refine (matched_expectName hI hv).bind fun w₂ _ x y hn => ?_
  refine (Matched.nameText hn).andThen fun w₃ h₃ text => ?_
  refine (Matched.intern ("@" ++ text)).bind fun w₄ h₄ i j hi => ?_
  have hn := hn.mono (h₃.trans h₄)
  have rest : ∀ w₅, w₄ ≤ w₅ → Matched w₅ Kin.values
      (if writes then do
          let setter ← Run.intern (text ++ "=")
          Run.updateClasses fun t => t.addMethod c (.native setter (.exact 1) (.writer i))
          pure (if reads then [Value.sym x, .sym setter] else [.sym setter])
        else pure (if reads then [Value.sym x] else []))
      (if writes then do
          let setter ← Run.intern (text ++ "=")
          Run.updateClasses fun t => t.addMethod c (.native setter (.exact 1) (.writer j))
          pure (if reads then [Value.sym y, .sym setter] else [.sym setter])
        else pure (if reads then [Value.sym y] else [])) := by
    intro w₅ h₅
    refine .ite Iff.rfl ((Matched.intern _).bind fun w₆ h₆ s t hs => ?_) (.pure ?_)
    · refine (matched_addMethod c (.native hs _ (.writer (hi.mono (h₅.trans h₆))))).andThen
        fun w₇ h₇ _ => .pure ?_
      have hs := hs.mono h₇
      cases reads with
      | true => exact .cons (.sym (hn.mono (h₅.trans (h₆.trans h₇)))) (.cons (.sym hs) .nil)
      | false => exact .cons (.sym hs) .nil
    · cases reads with
      | true => exact .cons (.sym (hn.mono h₅)) .nil
      | false => exact .nil
  cases reads with
  | true =>
      exact (matched_addMethod c (.native hn _ (.reader hi))).andThen fun w₅ h₅ _ => rest w₅ h₅
  | false => exact rest w₄ le_rfl

/-- On one table of names the same methods are listed in the same order. -/
theorem matched_methodNames (same : Comparison.sameTable) (classes : ClassTable → List ClassId) :
    Matched w Kin.name.list
      (Action.view fun m : Machine => methodNames m.classes (classes m.classes))
      (Action.view fun m : Machine => methodNames m.classes (classes m.classes)) :=
  .view fun m n _ hmn => by
    obtain rfl : n = m := hmn.eq (hmn.valid.same same)
    refine List.forall₂_same.mpr fun x hx => ?_
    rw [methodNames, List.mem_eraseDups] at hx
    obtain ⟨c, -, hx⟩ := List.mem_flatMap.mp hx
    exact hmn.classes.spelled_of_mem hx

theorem matched_run (hI : I.Matched J) (op : ClassOp) (ho : op = .methods → Comparison.sameTable)
    (hs : Kin.value w self self') (ha : Kin.values w args args') :
    Matched w Kin.value (op.run I self args) (op.run J self' args') := by
  refine (matched_expectClass hs).andThen fun w₁ h₁ c => ?_
  have hs := hs.later h₁
  have ha := Kin.values.mono h₁ ha
  have hv := alike_arg ha 0
  cases op with
  | new => exact matched_makeInstance c hI ha
  | name =>
      exact (Matched.view fun _ _ _ hmn => hmn.classes.name_eq c).andThen fun _ _ _ => .newString _
  | parent =>
      refine .view fun m n _ hmn => ?_
      rw [hmn.classes.parent?_eq]
      cases m.classes.parent? c with
      | none => exact .nil
      | some above => exact .cls above
  | ancestors =>
      refine (Matched.view (R := Kin.values) fun m n _ hmn => ?_).bind fun _ _ _ _ h => .newArray h
      rw [hmn.classes.ancestors_eq]
      change List.Forall₂ _ _ _
      rw [List.forall₂_map_left_iff, List.forall₂_map_right_iff, List.forall₂_same]
      exact fun a _ => .cls a
  | methods =>
      have listed (b : Bool) : Matched w₁ Kin.value
          (Action.view (fun m : Machine => methodNames m.classes
            (if b then m.classes.ancestors c else [c])) >>= fun names =>
              Run.newArray (names.map Value.sym).toArray)
          (Action.view (fun m : Machine => methodNames m.classes
            (if b then m.classes.ancestors c else [c])) >>= fun names =>
              Run.newArray (names.map Value.sym).toArray) := by
        refine (matched_methodNames (ho rfl) fun t => if b then t.ancestors c else [c]).bind
          fun _ _ xs ys h => .newArray ?_
        change List.Forall₂ _ _ _
        rw [List.forall₂_map_left_iff, List.forall₂_map_right_iff]
        exact h.imp fun _ _ hn => .sym hn
      rcases ha with _ | ⟨given, _⟩
      · exact listed true
      · dsimp only
        rw [given.truthy_eq]
        exact listed _
  | definesMethod =>
      refine (matched_expectName hI hv).bind fun w₂ _ x y hn => ?_
      refine (Matched.view (R := Kin.found.option) fun _ _ hw hmn =>
        hmn.classes.findMethod? hmn.valid (hn.mono hw) c).bind fun _ _ f f' hf => ?_
      exact .pure (Kin.option_isSome hf ▸ .bool _)
  | removeMethod =>
      exact (matched_removeMethods c hI ha).andThen fun _ hw _ => .pure (hs.later hw)
  | covers => exact (ObjectOp.matched_isA hv c).andThen fun _ _ b => .pure (.bool b)
  | readers | writers | accessors => exact matched_defineAccessors c hI _ _ ha

end ClassOp

/-- **Bound methods** answer the same on both machines. -/
theorem BoundOp.matched_run (hI : I.Matched J) (op : BoundOp) (hs : Kin.value w self self')
    (ha : Kin.values w args args') :
    Matched w Kin.value (op.run I self args) (op.run J self' args') := by
  have receiver : Matched w Kin.same (boundId self) (boundId self') := by
    cases hs with
    | bound id => exact .pure rfl
    | _ => exact .fault _
  refine receiver.andThen fun w₁ h₁ id => (matched_boundCell id).bind fun w₂ h₂ a b hc => ?_
  cases op with
  | call => exact matched_callBound hI id (Kin.values.mono (h₁.trans h₂) ha)
  | arity =>
      rw [hc.method.arity_eq]
      exact .pure (.int _)
  | name => exact .pure (.sym hc.name)
  | owner =>
      rw [hc.owner]
      exact .pure (.cls _)
  | receiver => exact .pure hc.receiver
  | inspect =>
      refine (Matched.view (R := Kin.same) fun m n hw hmn => ?_).andThen fun _ _ _ => .newString _
      have text : n.names.text b.name = m.names.text a.name := (hc.name.mono hw).2.2
      change _ ++ _ ++ _ ++ _ ++ _ = _ ++ _ ++ _ ++ _ ++ _
      rw [text, hc.owner, hmn.classes.name_eq]

/-! ### All native methods -/

/-- The native methods whose answers tell the positions of names. -/
def Native.TellsPositions (op : Native) : Prop := op = .object .objectId ∨ op = .cls .methods

instance : DecidablePred Native.TellsPositions := fun _ => inferInstanceAs (Decidable (_ ∨ _))

/-- **Native methods do not look at positions of names**, but for the ones that tell them. -/
theorem Native.matched_run (hI : I.Matched J) (fuel : Nat) {op op' : Native}
    (ho : op.Alike w op') (quiet : op.TellsPositions → Comparison.sameTable)
    (hs : Kin.value w self self') (ha : Kin.values w args args') :
    Matched w Kin.value (op.run fuel I self args) (op'.run fuel J self' args') := by
  cases ho with
  | reader h => exact .getVariable hs h
  | writer h => exact .setVariable hs h (alike_arg ha 0)
  | same op hr hw =>
      cases op with
      | object op => exact op.matched_run hI (fun e => quiet (.inl (congrArg _ e))) hs ha
      | kernel op => exact op.matched_run hI fuel ha
      | cls op => exact op.matched_run hI (fun e => quiet (.inr (congrArg _ e))) hs ha
      | truth op => exact op.matched_run ha
      | order op => exact op.matched_run hI hs ha
      | integer op => exact op.matched_run hs ha
      | float op => exact op.matched_run hs ha
      | string op => exact op.matched_run hs ha
      | symbol op => exact op.matched_run hs
      | array op => exact op.matched_run hI hs ha
      | bound op => exact op.matched_run hI hs ha
      | exception op => exact op.matched_run hs ha
      | reader x => exact absurd rfl (hr x)
      | writer x => exact absurd rfl (hw x)
      | gather => exact .newArray (.cons hs ha)

end MiniRuby
