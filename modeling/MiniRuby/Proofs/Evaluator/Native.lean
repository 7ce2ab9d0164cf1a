import MiniRuby.Proofs.Evaluator.Script

/-!
# Native methods only call

Whatever a native method does, it does quietly, except that it calls methods (`Native.calls_run`)
and that the one that writes lines runs out of fuel when arrays are nested too deeply for it.  So a
native method neither binds local variables nor jumps, and it catches no failure: what it calls
fails, and with it the native method.
-/

namespace MiniRuby

variable {endless : Prop}

/-! ### Sending messages -/

namespace Run

/-- A method is looked up without a change to the machine. -/
theorem findMethod_of_ok {receiver : Value} {name : NameId} {m : Machine}
    {found? : Option (Method × ClassId)} (h : m.findMethod? receiver name = .ok found?) :
    findMethod receiver name m = .done found? m := by
  rw [findMethod, Action.bind_view, h]
  rfl

/-- Looking up a method is quiet, as it reads the tables only. -/
@[simp] theorem Quiet.findMethod (receiver : Value) (name : NameId) :
    Quiet (Run.findMethod receiver name) :=
  (Quiet.view fun _ _ => rfl).bind fun r => Quiet.ofExcept r

@[simp] theorem Quiet.textOr (v answer : Value) : Quiet (Run.textOr v answer) :=
  .view fun _ _ => rfl

@[simp] theorem Quiet.className (v : Value) : Quiet (Run.className v) := .view fun _ _ => rfl

/-- Naming a value in an error is quiet, as the class of the value is asked for without a call. -/
@[simp] theorem Quiet.faultOn {α : Type} (v : Value) (cause : String → Fault) :
    Quiet (Run.faultOn v cause : Run α) :=
  (Quiet.className v).bind fun _ => .fault _

@[simp] theorem Quiet.answer (b : Bool) : Quiet (Run.answer b) := .pure _

/-- Reading an instance variable is quiet. -/
@[simp] theorem Quiet.getVariable (self : Value) (name : NameId) :
    Quiet (Run.getVariable self name) := by
  cases self with
  | obj id => exact .view fun _ _ => rfl
  | _ => exact .pure _

/-- So is setting one. -/
@[simp] theorem Quiet.setVariable (self : Value) (name : NameId) (v : Value) :
    Quiet (Run.setVariable self name v) := by
  cases self with
  | obj id => exact (Quiet.updateHeap fun h => .setVariable h id name v).bind fun _ => .pure v
  | _ => exact (Quiet.view fun _ _ => rfl).bind fun _ => .fault _

/-- A message that no method answers is passed on by a call. -/
theorem calls_sendMissing (receiver : Value) (name : NameId) (args : List Value) :
    Calls endless fun invoke => sendMissing invoke receiver name args := by
  refine (Calls.quiet (Quiet.findMethod receiver .methodMissing)).bind fun r => ?_
  rcases r with _ | ⟨method, owner⟩
  · exact (Calls.view fun _ _ => rfl).bind fun cause => .quiet (.fault cause)
  · exact .call method receiver (.sym name :: args)

/-- **Sending a message** is a call of the method that answers it, and nothing else. -/
theorem calls_send (receiver : Value) (name : NameId) (args : List Value) :
    Calls endless fun invoke => send invoke receiver name args := by
  refine (Calls.quiet (Quiet.findMethod receiver name)).bind fun r => ?_
  rcases r with _ | ⟨method, owner⟩
  · exact calls_sendMissing receiver name args
  · exact .call method receiver args

/-- A bound method is called without being looked up. -/
theorem calls_callBound (id : BoundId) (args : List Value) :
    Calls endless fun invoke => callBound invoke id args :=
  (Calls.view fun _ _ => rfl).bind fun cell => .call cell.method cell.receiver args

/-- A method is bound without being called. -/
theorem quiet_bindMethod (receiver : Value) (name : NameId) : Quiet (bindMethod receiver name) := by
  refine (Quiet.findMethod receiver name).bind fun r => ?_
  rcases r with _ | ⟨method, owner⟩
  · exact (Quiet.view fun _ _ => rfl).bind fun cause => .fault cause
  · exact .allocate fun h => .newBound h _

/-- Inspecting a value is a call. -/
theorem calls_inspect (v : Value) : Calls endless fun invoke => inspect invoke v :=
  (calls_send v .inspect []).bind fun answer => .quiet (.textOr v answer)

/-- Making a text of a value is a call. -/
theorem calls_toText (v : Value) : Calls endless fun invoke => toText invoke v := by
  cases v with
  | str id => exact .quiet (.view fun _ _ => rfl)
  | _ => exact (calls_send _ .toS []).bind fun answer => .quiet (.textOr _ answer)

/-- A class is looked up without a call. -/
theorem quiet_classNamed (name : String) : Quiet (classNamed name) := by
  refine (Quiet.view fun _ _ => rfl).bind fun r => ?_
  cases r with
  | none => exact .fault _
  | some c => exact .pure c

/-- A new exception is initialized by a call. -/
theorem calls_newException (className message : String) :
    Calls endless fun invoke => newException invoke className message :=
  (Calls.quiet (quiet_classNamed className)).bind fun c =>
    (Calls.quiet (.newString message)).bind fun text => calls_send (.cls c) .new [text]

/-! ### Arguments -/

/-- Checking what kind of value has been given is quiet. -/
@[simp] theorem Quiet.expectInteger (v : Value) : Quiet (Run.expectInteger v) := by
  cases v <;> simp [Run.expectInteger]

@[simp] theorem Quiet.expectText (v : Value) : Quiet (Run.expectText v) := by
  cases v with
  | str id => exact .view fun _ _ => rfl
  | _ => exact .faultOn _ _

@[simp] theorem Quiet.expectClass (v : Value) : Quiet (Run.expectClass v) := by
  cases v <;> simp [Run.expectClass]

/-- The elements of an array are read without a call. -/
@[simp] theorem Quiet.expectElements (v : Value) : Quiet (Run.expectElements v) := by
  cases v with
  | arr id => exact .view fun _ _ => rfl
  | _ => exact .faultOn _ _

/-- A name that is neither a symbol nor a string is refused with its inspection, which is a call. -/
theorem calls_expectName (v : Value) : Calls endless fun invoke => expectName invoke v := by
  cases v with
  | sym name => exact .quiet (.pure name)
  | str id => exact (Calls.view fun _ _ => rfl).bind fun text => .quiet (.intern text)
  | _ => exact (calls_inspect _).bind fun text => .quiet (.fault (.notAName text))

end Run

open Run (Quiet)

/-! ### Numbers -/

/-- Numbers are compared without a call, but what is no number is inspected for the error. -/
theorem calls_inOrder (test : Ordering → Bool) (self other : Value) :
    Calls endless fun invoke => inOrder invoke test self other := by
  unfold inOrder
  cases compareNumbers? self other with
  | some o => exact .quiet (.answer _)
  | none =>
      refine Calls.ite (.quiet (.answer _)) ((Calls.quiet (.className self)).bind fun left => ?_)
      exact (Run.calls_inspect other).bind fun right => .quiet (.fault (.incomparable left right))

/-- The comparisons call only to tell what they could not compare. -/
theorem OrderOp.calls_run (op : OrderOp) (self : Value) (args : List Value) :
    Calls endless fun invoke => op.run invoke self args := by
  cases op with
  | equals => exact .quiet (.answer _)
  | compare =>
      unfold OrderOp.run
      dsimp only
      split
      · exact .quiet (.pure _)
      · exact .quiet (.pure _)
  | _ => exact calls_inOrder _ self _

namespace IntegerOp

/-- A receiver is checked without a call. -/
@[simp] theorem quiet_receiver (self : Value) : Quiet (receiver self) := by
  cases self <;> simp [receiver]

/-- Arithmetic is quiet, whatever it answers. -/
theorem quiet_arithmetic (f : Int64 → Int64 → Except Fault Int64) (g : Float → Float → Float)
    (self other : Value) : Quiet (arithmetic f g self other) := by
  refine (quiet_receiver self).bind fun a => ?_
  cases other with
  | int b => exact (Quiet.ofExcept _).map _
  | float y => exact .pure _
  | _ => exact .faultOn _ _

/-- Powers are quiet, also where they are refused. -/
theorem quiet_power (self other : Value) : Quiet (power self other) := by
  refine (quiet_receiver self).bind fun a => ?_
  cases other with
  | int b =>
      dsimp only
      split
      · exact .pure _
      · exact (Quiet.ofExcept _).map _
  | float y => exact .pure _
  | _ => exact .faultOn _ _

theorem quiet_unary (f : Int64 → Except Fault Int64) (self : Value) : Quiet (unary f self) :=
  (quiet_receiver self).bind fun _ => (Quiet.ofExcept _).map _

/-- The methods of integers call nothing. -/
theorem quiet_run (op : IntegerOp) (self : Value) (args : List Value) :
    Quiet (op.run self args) := by
  cases op with
  | add | sub | mul => exact quiet_arithmetic _ _ self _
  | div | mod => exact (Quiet.view fun _ _ => rfl).bind fun _ => quiet_arithmetic _ _ self _
  | pow => exact quiet_power self _
  | neg | abs | succ => exact quiet_unary _ self
  | toS => exact (quiet_receiver self).bind fun _ => .newString _
  | toI => exact .pure self
  | toF => exact (quiet_receiver self).bind fun _ => .pure _
  | isZero => exact .answer _
  | isEven | isOdd => exact (quiet_receiver self).bind fun _ => .answer _

end IntegerOp

namespace FloatOp

/-- A decimal that is a receiver is checked without a call. -/
@[simp] theorem quiet_receiver (self : Value) : Quiet (receiver self) := by
  cases self <;> simp [receiver]

@[simp] theorem quiet_operand (v : Value) : Quiet (operand v) := by
  cases v <;> simp [operand]

theorem quiet_arithmetic (f : Float → Float → Float) (self other : Value) :
    Quiet (arithmetic f self other) :=
  (quiet_receiver self).bind fun _ => (quiet_operand other).bind fun _ => .pure _

theorem quiet_rounded (f : Float → Float) (self : Value) : Quiet (rounded f self) :=
  (quiet_receiver self).bind fun _ => (Quiet.ofExcept _).map _

/-- The methods of decimals call nothing. -/
theorem quiet_run (op : FloatOp) (self : Value) (args : List Value) : Quiet (op.run self args) := by
  cases op with
  | add | sub | mul | div | mod | pow => exact quiet_arithmetic _ self _
  | neg | abs => exact (quiet_receiver self).bind fun _ => .pure _
  | toS => exact (quiet_receiver self).bind fun _ => .newString _
  | toI | floor | ceil | round => exact quiet_rounded _ self
  | toF => exact .pure self
  | isNaN => exact (quiet_receiver self).bind fun _ => .answer _

end FloatOp

/-! ### Texts -/

namespace StringOp

@[simp] theorem quiet_receiver (self : Value) : Quiet (receiver self) := by
  cases self <;> simp [receiver]

/-- The text of a string is read without a call. -/
@[simp] theorem quiet_selfText (self : Value) : Quiet (selfText self) :=
  (quiet_receiver self).bind fun _ => .view fun _ _ => rfl

theorem quiet_mapped (f : String → String) (self : Value) : Quiet (mapped f self) :=
  (quiet_selfText self).bind fun _ => .newString _

theorem quiet_tested (test : List Char → List Char → Bool) (self other : Value) :
    Quiet (tested test self other) :=
  (Quiet.expectText other).bind fun _ => (quiet_selfText self).bind fun _ => .answer _

/-- A text is repeated without a call, and refused so if it grows too long. -/
theorem quiet_repeated (self other : Value) : Quiet (repeated self other) := by
  refine (Quiet.expectInteger other).bind fun count => ?_
  split
  · exact .fault _
  · exact (quiet_selfText self).bind fun _ => (Quiet.view fun _ _ => rfl).bind fun _ =>
      (Quiet.ofExcept _).bind fun _ => .newString _

/-- The methods of strings call nothing. -/
theorem quiet_run (op : StringOp) (self : Value) (args : List Value) :
    Quiet (op.run self args) := by
  cases op with
  | concat =>
      exact (Quiet.expectText _).bind fun _ => (quiet_selfText self).bind fun _ => .newString _
  | append =>
      exact (Quiet.expectText _).bind fun more => (quiet_receiver self).bind fun id =>
        (Quiet.updateHeap fun h => .append h id more).bind fun _ => .pure self
  | times => exact quiet_repeated self _
  | equals =>
      exact (quiet_selfText self).bind fun _ => (Quiet.view fun _ _ => rfl).bind fun _ => .answer _
  | size => exact (quiet_selfText self).bind fun _ => .pure _
  | isEmpty => exact (quiet_selfText self).bind fun _ => .answer _
  | includes | startsWith => exact quiet_tested _ self _
  | upcase | downcase | reverse | inspect => exact quiet_mapped _ self
  | toS => exact .pure self
  | toSym => exact (quiet_selfText self).bind fun _ => (Quiet.intern _).map _
  | toI => exact (quiet_selfText self).bind fun _ => (Quiet.ofExcept _).map _

end StringOp

namespace SymbolOp

/-- The name of a symbol is read without a call. -/
@[simp] theorem quiet_selfName (self : Value) : Quiet (selfName self) := by
  cases self with
  | sym name => exact .view fun _ _ => rfl
  | _ => exact .fault _

/-- The methods of symbols call nothing. -/
theorem quiet_run (op : SymbolOp) (self : Value) : Quiet (op.run self) := by
  cases op with
  | toS | inspect => exact (quiet_selfName self).bind fun _ => .newString _
  | toSym => exact .pure self

end SymbolOp

/-- Neither do those of `nil`, `true` and `false`. -/
theorem TruthOp.quiet_run (op : TruthOp) (args : List Value) : Quiet (op.run args) := by
  cases op with
  | always b => exact .answer b
  | argument => exact .answer _
  | noElements => exact .newArray _
  | text s => exact .newString s

/-! ### Arrays -/

namespace ArrayOp

@[simp] theorem quiet_receiver (self : Value) : Quiet (receiver self) := by
  cases self <;> simp [receiver]

/-- The elements of an array that is a receiver are read without a call. -/
@[simp] theorem quiet_selfElements (self : Value) : Quiet (selfElements self) :=
  (quiet_receiver self).bind fun _ => .view fun _ _ => rfl

/-- An element is stored without a call. -/
theorem quiet_store (self index v : Value) : Quiet (store self index v) :=
  (Quiet.expectInteger index).bind fun _ => (quiet_receiver self).bind fun id =>
    (Quiet.view fun _ _ => rfl).bind fun _ => (Quiet.view fun _ _ => rfl).bind fun _ =>
      (Quiet.ofExcept _).bind fun _ =>
        (Quiet.updateHeap fun h => .modifyElements h id _).bind fun _ => .pure v

/-- Whether two values are equal is asked of the first of them. -/
theorem calls_equal (v w : Value) : Calls endless fun invoke => equal invoke v w :=
  (Run.calls_send v .equals [w]).bind fun _ => .quiet (.pure _)

/-- Arrays are compared element by element, each time with a call. -/
theorem calls_equalElements (self other : Value) :
    Calls endless fun invoke => equalElements invoke self other := by
  cases other with
  | arr id =>
      refine (Calls.view fun _ _ => rfl).bind fun right =>
        (Calls.quiet (quiet_selfElements self)).bind fun left => Calls.ite ?_ (.quiet (.answer _))
      exact (Calls.any (fun p : Value × Value => (calls_equal p.1 p.2).map Bool.not) _).bind
        fun _ => .quiet (.answer _)
  | _ => exact .quiet (.answer _)

/-- Elements are joined as the texts that they answer. -/
theorem calls_joined (self : Value) (args : List Value) :
    Calls endless fun invoke => joined invoke self args := by
  have parts : ∀ separator : String, Calls endless fun invoke => (do
      let elements ← selfElements self
      let parts ← Action.each (Run.toText invoke) elements.toList
      Run.newString (separator.intercalate parts)) := fun separator =>
    (Calls.quiet (quiet_selfElements self)).bind fun _ =>
      (Calls.each Run.calls_toText _).bind fun _ => .quiet (.newString _)
  cases args with
  | nil => exact (Calls.quiet (.pure "")).bind parts
  | cons v args => exact (Calls.quiet (.expectText v)).bind parts

/-- Elements are inspected one after the other. -/
theorem calls_inspectElements (self : Value) :
    Calls endless fun invoke => inspectElements invoke self := by
  refine (Calls.quiet (quiet_selfElements self)).bind fun elements => ?_
  exact (Calls.each (fun v => Calls.ite (.quiet (.pure _)) (Run.calls_inspect v)) _).bind fun _ =>
    .quiet (.newString _)

/-- **The methods of arrays** call when they compare, join or show elements. -/
theorem calls_run (op : ArrayOp) (self : Value) (args : List Value) :
    Calls endless fun invoke => op.run invoke self args := by
  cases op with
  | get =>
      exact .quiet ((Quiet.expectInteger _).bind fun _ => (quiet_selfElements self).bind fun _ =>
        .pure _)
  | set => exact .quiet (quiet_store self _ _)
  | push =>
      exact .quiet ((quiet_receiver self).bind fun id =>
        (Quiet.updateHeap fun h => .modifyElements h id _).bind fun _ => .pure self)
  | pop =>
      exact .quiet ((quiet_receiver self).bind fun id => (Quiet.view fun _ _ => rfl).bind fun _ =>
        (Quiet.updateHeap fun h => .modifyElements h id _).bind fun _ => .pure _)
  | first | last | size => exact .quiet ((quiet_selfElements self).bind fun _ => .pure _)
  | isEmpty => exact .quiet ((quiet_selfElements self).bind fun _ => .answer _)
  | includes =>
      exact (Calls.quiet (quiet_selfElements self)).bind fun _ =>
        (Calls.any (fun v => calls_equal v _) _).bind fun _ => .quiet (.answer _)
  | concat =>
      exact .quiet ((Quiet.expectElements _).bind fun _ => (quiet_selfElements self).bind fun _ =>
        .newArray _)
  | equals => exact calls_equalElements self _
  | join => exact calls_joined self args
  | reverse => exact .quiet ((quiet_selfElements self).bind fun _ => .newArray _)
  | inspect => exact calls_inspectElements self

end ArrayOp

/-! ### Objects -/

namespace ObjectOp

/-- What is no name of a variable is told in an error. -/
theorem calls_variableName (v : Value) : Calls endless fun invoke => variableName invoke v := by
  refine (Run.calls_expectName v).bind fun name => (Calls.view fun _ _ => rfl).bind fun text => ?_
  exact Calls.ite (.quiet (.pure name)) (.quiet (.fault _))

theorem quiet_plainText (self : Value) : Quiet (plainText self) :=
  (Quiet.view fun _ _ => rfl).bind fun _ => .newString _

/-- An object is shown with its variables, each of which is inspected. -/
theorem calls_inspectObject (self : Value) :
    Calls endless fun invoke => inspectObject invoke self := by
  cases self with
  | obj id =>
      refine Calls.ite (.quiet (quiet_plainText _))
        ((Calls.view fun _ _ => rfl).bind fun entries => ?_)
      refine (Calls.each (fun e => ?_) entries).bind fun _ =>
        (Calls.quiet (.className _)).bind fun _ => .quiet (.newString _)
      obtain ⟨text, name, v⟩ := e
      exact (Run.calls_inspect v).bind fun _ => .quiet (.pure _)
  | _ => exact .quiet (quiet_plainText _)

/-- The names of the variables are listed without a call. -/
theorem quiet_namesOfVariables (self : Value) : Quiet (namesOfVariables self) := by
  cases self with
  | obj id => exact (Quiet.view fun _ _ => rfl).bind fun _ => .newArray _
  | _ => exact .newArray _

/-- **The methods of all objects** call to compare, to show and to pass messages on. -/
theorem calls_run (op : ObjectOp) (self : Value) (args : List Value) :
    Calls endless fun invoke => op.run invoke self args := by
  cases op with
  | same | negate | isNil => exact .quiet (.answer _)
  | differs => exact (Run.calls_send self .equals args).bind fun _ => .quiet (.answer _)
  | setup => exact .quiet (.pure _)
  | classOf => exact (Calls.view fun _ _ => rfl).bind fun r => .quiet ((Quiet.ofExcept r).map _)
  | inspect => exact calls_inspectObject self
  | toS => exact .quiet (quiet_plainText self)
  | isA =>
      exact .quiet ((Quiet.expectClass _).bind fun _ => (Quiet.view fun _ _ => rfl).bind fun _ =>
        (Quiet.ofExcept _).map _)
  | instanceOf =>
      exact .quiet ((Quiet.expectClass _).bind fun _ => (Quiet.view fun _ _ => rfl).bind fun _ =>
        (Quiet.ofExcept _).bind fun _ => .answer _)
  | respondTo =>
      exact (Run.calls_expectName _).bind fun name =>
        (Calls.quiet (.findMethod self name)).bind fun _ => .quiet (.answer _)
  | objectId => exact .quiet (.pure _)
  | send => exact (Run.calls_expectName _).bind fun name => Run.calls_send self name args.tail
  | bind => exact (Run.calls_expectName _).bind fun name => .quiet (Run.quiet_bindMethod self name)
  | variableGet => exact (calls_variableName _).bind fun name => .quiet (.getVariable self name)
  | variableSet => exact (calls_variableName _).bind fun name => .quiet (.setVariable self name _)
  | variableNames => exact .quiet (quiet_namesOfVariables self)

end ObjectOp

/-! ### Output and exceptions -/

namespace KernelOp

/-- What is put is asked for its text, and arrays are put element by element. -/
theorem calls_putsValue (h : endless) (fuel : Nat) (path : List ArrayId) (v : Value) :
    Calls endless fun invoke => putsValue invoke fuel path v := by
  induction fuel generalizing path v with
  | zero => exact .exhaust h
  | succ fuel ih =>
      cases v with
      | arr id =>
          refine Calls.ite (.quiet (.write _)) ((Calls.view fun _ _ => rfl).bind fun elements => ?_)
          exact Calls.ite (.quiet (.write _)) ((Calls.each (ih (id :: path)) _).bind fun _ =>
            .quiet (.pure _))
      | _ => exact (Run.calls_toText _).bind fun _ => .quiet (.write _)

/-- Several values are put one after the other. -/
theorem calls_putLines (h : endless) (fuel : Nat) (args : List Value) :
    Calls endless fun invoke => putLines fuel invoke args := by
  have lines : Calls endless fun invoke => (do
      let _ ← Action.each (putsValue invoke fuel []) args
      pure Value.nil) :=
    (Calls.each (calls_putsValue h fuel []) args).bind fun _ => .quiet (.pure _)
  unfold putLines
  exact Calls.ite ((Calls.quiet (.write _)).bind fun _ => lines) lines

theorem calls_printTexts (args : List Value) : Calls endless fun invoke => printTexts invoke args :=
  (Calls.each (fun v => (Run.calls_toText v).bind fun _ => .quiet (.write _)) args).bind fun _ =>
    .quiet (.pure _)

theorem calls_showValues (args : List Value) :
    Calls endless fun invoke => showValues invoke args := by
  refine (Calls.each (fun v => (Run.calls_inspect v).bind fun _ => .quiet (.write _)) args).bind
    fun _ => ?_
  rcases args with _ | ⟨v, _ | ⟨w, args⟩⟩
  · exact .quiet (.pure _)
  · exact .quiet (.pure _)
  · exact .quiet (.newArray _)

/-- What is raised is made by a call, unless it is an exception already. -/
theorem calls_exceptionFor (args : List Value) :
    Calls endless fun invoke => exceptionFor invoke args := by
  rcases args with _ | ⟨v, _ | ⟨w, _ | ⟨u, args⟩⟩⟩
  · exact Run.calls_newException _ _
  · cases v with
    | str id =>
        exact (Calls.view fun _ _ => rfl).bind fun message => Run.calls_newException _ message
    | cls c => exact Run.calls_send (.cls c) .new []
    | _ => exact .quiet (.pure _)
  · cases v with
    | cls c => exact Run.calls_send (.cls c) .new [w]
    | _ => exact .quiet (.fault _)
  · cases v <;> exact .quiet (.fault _)

/-- Raising an exception fails with it, after the calls that make it. -/
theorem calls_raiseException (args : List Value) :
    Calls endless fun invoke => raiseException invoke args := by
  refine (calls_exceptionFor args).bind fun e => (Calls.view fun _ _ => rfl).bind fun r =>
    (Calls.quiet (.ofExcept r)).bind fun _ => ?_
  exact Calls.ite (.quiet (.raised e)) (.quiet (.fault _))

/-- Values that differ are shown in the error. -/
theorem calls_checkEqual (args : List Value) :
    Calls endless fun invoke => checkEqual invoke args := by
  refine (Run.calls_send _ .equals _).bind fun v => Calls.ite (.quiet (.pure _)) ?_
  exact (Run.calls_inspect _).bind fun _ => (Run.calls_inspect _).bind fun _ => .quiet (.fault _)

/-- **The methods of the kernel** call, and the one that puts lines may run out of fuel. -/
theorem calls_run (fuel : Nat) (op : KernelOp) (h : op = .puts → endless) (args : List Value) :
    Calls endless fun invoke => op.run fuel invoke args := by
  cases op with
  | puts => exact calls_putLines (h rfl) fuel args
  | print => exact calls_printTexts args
  | p => exact calls_showValues args
  | raise => exact calls_raiseException args
  | assert => exact calls_checkEqual args

end KernelOp

/-- The methods of exceptions call nothing. -/
theorem ExceptionOp.quiet_run (op : ExceptionOp) (self : Value) (args : List Value) :
    Quiet (op.run self args) := by
  cases op with
  | setup =>
      unfold ExceptionOp.run
      dsimp only
      unfold keepMessage
      split
      · split
        · exact .pure _
        · exact (Quiet.updateHeap fun h => .setVariable h _ _ _).bind fun _ => .pure _
      · exact .pure _
  | message | inspect => exact (Quiet.view fun _ _ => rfl).bind fun _ => .newString _

/-! ### Classes and bound methods -/

namespace ClassOp

/-- The part of making an instance that gives it its place in the heap. -/
theorem quiet_instantiate (c : ClassId) (args : List Value) : Quiet (α := Value) fun m =>
    match m.classes.instantiate m.heap c args m.host.memory with
    | .ok (v, heap) => .done v { m with heap := heap }
    | .error cause => .failed (.ofFault cause) m := by
  refine .of_cases (fun k m => ?_) fun m => ?_
  · simp only [Machine.deeper]
    split <;> rfl
  rcases h : m.classes.instantiate m.heap c args m.host.memory with cause | ⟨v, heap⟩
  · exact .inr ⟨cause, by simp⟩
  · exact .inl ⟨v, { m with heap := heap }, by simp, rfl, rfl,
      .withHeap (ClassTable.extends_instantiate h)⟩

/-- A new object is initialized by a call. -/
theorem calls_makeInstance (c : ClassId) (args : List Value) :
    Calls endless fun invoke => makeInstance invoke c args := by
  refine (Calls.view fun _ _ => rfl).bind fun payload => ?_
  cases payload with
  | ivars =>
      exact (Calls.quiet (quiet_instantiate c [])).bind fun v =>
        (Run.calls_send v .setup args).bind fun _ => .quiet (.pure v)
  | _ => exact .quiet (quiet_instantiate c args)

/-- Methods are removed by name, and names are asked for by a call. -/
theorem calls_removeMethods (c : ClassId) (args : List Value) :
    Calls endless fun invoke => removeMethods invoke c args := by
  refine (Calls.each (fun v => ?_) args).bind fun _ => .quiet (.pure _)
  refine (Run.calls_expectName v).bind fun name => (Calls.view fun _ _ => rfl).bind fun r => ?_
  exact Calls.ite (.quiet (.updateClasses fun t => .removeMethod t c name))
    ((Calls.view fun _ _ => rfl).bind fun cause => .quiet (.fault cause))

/-- Accessors are defined by name. -/
theorem calls_defineAccessors (reads writes : Bool) (c : ClassId) (args : List Value) :
    Calls endless fun invoke => defineAccessors invoke reads writes c args := by
  refine (Calls.each (fun v => ?_) args).bind fun _ => .quiet (.newArray _)
  refine (Run.calls_expectName v).bind fun name => (Calls.view fun _ _ => rfl).bind fun text =>
    (Calls.quiet (.intern _)).bind fun variableName => ?_
  have writer : ∀ names : NameId → List Value, Quiet (do
      let setter ← Run.intern (text ++ "=")
      Run.updateClasses fun t => t.addMethod c (.native setter (.exact 1) (.writer variableName))
      pure (names setter)) := fun names =>
    (Quiet.intern _).bind fun _ => (Quiet.updateClasses fun t => .addMethod t c _).bind fun _ =>
      .pure _
  cases reads <;> cases writes
  · exact .quiet (.pure [])
  · exact .quiet (writer fun setter => [.sym setter])
  · exact (Calls.quiet (.updateClasses fun t => .addMethod t c _)).bind fun _ =>
      .quiet (.pure [Value.sym name])
  · exact (Calls.quiet (.updateClasses fun t => .addMethod t c _)).bind fun _ =>
      .quiet (writer fun setter => [.sym name, .sym setter])

/-- **The methods of classes** call to initialize objects and to ask for names. -/
theorem calls_run (op : ClassOp) (self : Value) (args : List Value) :
    Calls endless fun invoke => op.run invoke self args := by
  refine (Calls.quiet (.expectClass self)).bind fun c => ?_
  cases op with
  | new => exact calls_makeInstance c args
  | name => exact .quiet ((Quiet.view fun _ _ => rfl).bind fun _ => .newString _)
  | parent => exact .quiet (.view fun _ _ => rfl)
  | ancestors | methods => exact .quiet ((Quiet.view fun _ _ => rfl).bind fun _ => .newArray _)
  | definesMethod =>
      exact (Run.calls_expectName _).bind fun _ => (Calls.view fun _ _ => rfl).bind fun _ =>
        .quiet (.answer _)
  | removeMethod => exact (calls_removeMethods c args).bind fun _ => .quiet (.pure self)
  | covers => exact (Calls.view fun _ _ => rfl).bind fun r => .quiet ((Quiet.ofExcept r).map _)
  | readers | writers | accessors => exact calls_defineAccessors _ _ c args

end ClassOp

namespace BoundOp

@[simp] theorem quiet_boundId (self : Value) : Quiet (boundId self) := by
  cases self <;> simp [boundId]

/-- **The methods of bound methods** call what is bound. -/
theorem calls_run (op : BoundOp) (self : Value) (args : List Value) :
    Calls endless fun invoke => op.run invoke self args := by
  refine (Calls.quiet (quiet_boundId self)).bind fun id =>
    (Calls.view fun _ _ => rfl).bind fun cell => ?_
  cases op with
  | call => exact Run.calls_callBound id args
  | arity | name | owner | receiver => exact .quiet (.pure _)
  | inspect => exact (Calls.view fun _ _ => rfl).bind fun _ => .quiet (.newString _)

end BoundOp

/-- **A native method only calls.**  All that it does besides is quiet, and only the one that
writes lines can run out of fuel. -/
theorem Native.calls_run (fuel : Nat) (native : Native) (h : native = .kernel .puts → endless)
    (self : Value) (args : List Value) :
    Calls endless fun invoke => native.run fuel invoke self args := by
  cases native with
  | object op => exact op.calls_run self args
  | kernel op => exact op.calls_run fuel (fun e => h (congrArg Native.kernel e)) args
  | cls op => exact op.calls_run self args
  | truth op => exact .quiet (op.quiet_run args)
  | order op => exact op.calls_run self args
  | integer op => exact .quiet (op.quiet_run self args)
  | float op => exact .quiet (op.quiet_run self args)
  | string op => exact .quiet (op.quiet_run self args)
  | symbol op => exact .quiet (op.quiet_run self)
  | array op => exact op.calls_run self args
  | bound op => exact op.calls_run self args
  | exception op => exact .quiet (op.quiet_run self args)
  | reader name => exact .quiet (.getVariable self name)
  | writer name => exact .quiet (.setVariable self name _)
  | gather => exact .quiet (.newArray _)

end MiniRuby
