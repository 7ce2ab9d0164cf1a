import MiniRuby.Library
import MiniRuby.Proofs.Typing.Dispatch

/-!
# The library is safe

A native method is safe when it is called on a value that it is meant for, with arguments that
live, as long as the methods that it calls are (`Native.yields_run`).  There is one statement for
the methods of each kind of values, which asks for a receiver of that kind where they do.
-/

namespace MiniRuby

open Machine (Leads)
open Run (Safe Yields)

variable {ok : Node → Prop} {m : Machine}

/-! ### Numbers -/

section Numbers

open Run (yields_answer yields_newString safe_faultOn)

/-- Comparing numbers is safe, and what is no number is inspected if it lives. -/
theorem yields_inOrder {invoke : Invoke} (hI : invoke.IsSafe ok) (hm : m.Sound ok)
    (test : Ordering → Bool) (self : Value) {other : Value} (ho : other.Lives m) :
    Yields ok m (inOrder invoke test self other) := by
  unfold inOrder
  split
  · exact yields_answer hm _
  · refine .ite (fun _ => yields_answer hm _) fun _ => .view_bind ?_
    exact (Run.safe_inspect hI hm ho).bind fun _ _ hl _ => .fault hl.sound nofun

/-- The comparisons are safe on any receiver. -/
theorem OrderOp.yields_run {invoke : Invoke} (hI : invoke.IsSafe ok) (hm : m.Sound ok)
    (op : OrderOp) (self : Value) {args : List Value} (ha : Value.AllLive m args) :
    Yields ok m (op.run invoke self args) := by
  have ho := Run.lives_arg ha 0
  cases op with
  | equals => exact yields_answer hm _
  | compare =>
      simp only [run]
      split <;> exact .pure hm trivial
  | _ => exact yields_inOrder hI hm _ self ho

namespace Integer

/-- A number out of range is an error of the program. -/
theorem mild_ofInt (i : Int) : Mild (ofInt i) := .ite (.ok _) (.error nofun)

/-- So is a division by zero. -/
theorem mild_div (d : Division) (a b : Int64) : Mild (div d a b) :=
  .ite (.error nofun) (.ite (.error nofun) (.ok _))

/-- And a remainder of it. -/
theorem mild_mod (d : Division) (a b : Int64) : Mild (mod d a b) :=
  .ite (.error nofun) (.ite (.ok _) (.ok _))

/-- A power that leaves the range on the way is an error of the program. -/
theorem mild_powerFrom (acc base : Int64) (n : Nat) : Mild (powerFrom acc base n) := by
  induction n using Nat.strongRecOn generalizing acc base with
  | ind n ih =>
      rw [powerFrom]
      split
      · exact .ok acc
      · split
        · exact mild_ofInt _
        · exact .bind (.ite (mild_ofInt _) (.ok acc)) fun _ => .bind (mild_ofInt _) fun _ =>
            ih (n / 2) (by omega) _ _

/-- Powers are refused by no internal error. -/
theorem mild_pow (a : Int64) (n : Nat) : Mild (pow a n) :=
  .ite (.error nofun) (mild_powerFrom 1 a n)

/-- Digits whose number is out of range are an error of the program. -/
theorem mild_readDigits (n : Int64) (cs : List Char) : Mild (readDigits n cs) := by
  induction cs generalizing n with
  | nil => exact .ok n
  | cons c cs ih =>
      exact .ite (ih n) (.ite (.bind (mild_ofInt _) fun _ => .bind (mild_ofInt _) ih) (.ok n))

/-- A text is read as a number without an internal error. -/
theorem mild_read (cs : List Char) : Mild (read cs) :=
  .bind (mild_readDigits 0 _) fun _ => .ok _

end Integer

namespace IntegerOp

variable {self : Value}

/-- A method of integers is safe when it asks for its receiver, which is an integer. -/
theorem safe_receiver (hm : m.Sound ok) (hs : ∃ i, self = .int i) :
    Safe ok m (receiver self) fun _ _ => True := by
  obtain ⟨i, rfl⟩ := hs
  exact .pure hm trivial

/-- Arithmetic is safe if the operation on two integers is no internal error. -/
theorem yields_arithmetic (hm : m.Sound ok) (hs : ∃ i, self = .int i)
    {f : Int64 → Int64 → Except Fault Int64} (hf : ∀ a b, Mild (f a b))
    (g : Float → Float → Float) (other : Value) : Yields ok m (arithmetic f g self other) := by
  refine (safe_receiver hm hs).bind fun a s hl _ => ?_
  cases other with
  | int b => exact .map (.ofExcept hl.sound (hf a b) fun _ _ => trivial)
  | float y => exact .pure hl.sound trivial
  | _ => exact safe_faultOn hl.sound _ fun _ => nofun

/-- Powers are safe for every exponent. -/
theorem yields_power (hm : m.Sound ok) (hs : ∃ i, self = .int i) (other : Value) :
    Yields ok m (power self other) := by
  refine (safe_receiver hm hs).bind fun a s hl _ => ?_
  cases other with
  | int b =>
      refine .ite (fun _ => .pure hl.sound trivial) fun _ => ?_
      exact .map (.ofExcept hl.sound (Integer.mild_pow a _) fun _ _ => trivial)
  | float y => exact .pure hl.sound trivial
  | _ => exact safe_faultOn hl.sound _ fun _ => nofun

/-- An operation on the receiver alone is safe if it is no internal error. -/
theorem yields_unary (hm : m.Sound ok) (hs : ∃ i, self = .int i)
    {f : Int64 → Except Fault Int64} (hf : ∀ a, Mild (f a)) : Yields ok m (unary f self) :=
  (safe_receiver hm hs).bind fun a _ hl _ => .map (.ofExcept hl.sound (hf a) fun _ _ => trivial)

/-- **The methods of integers** are safe on integers, whatever the arguments are. -/
theorem yields_run (hm : m.Sound ok) (op : IntegerOp) (hs : ∃ i, self = .int i)
    (args : List Value) : Yields ok m (op.run self args) := by
  have number : self.Lives m := by
    obtain ⟨i, rfl⟩ := hs
    trivial
  cases op with
  | add | sub | mul => exact yields_arithmetic hm hs (fun _ _ => Integer.mild_ofInt _) _ _
  | div => exact .view_bind (yields_arithmetic hm hs (Integer.mild_div _) _ _)
  | mod => exact .view_bind (yields_arithmetic hm hs (Integer.mild_mod _) _ _)
  | pow => exact yields_power hm hs _
  | neg | abs | succ => exact yields_unary hm hs fun _ => Integer.mild_ofInt _
  | toS => exact (safe_receiver hm hs).bind fun _ _ hl _ => yields_newString hl.sound _
  | toI => exact .pure hm number
  | isZero => exact yields_answer hm _
  | toF | isEven | isOdd => exact (safe_receiver hm hs).bind fun _ _ hl _ => .pure hl.sound trivial

end IntegerOp

namespace FloatOp

variable {self : Value}

/-- A method of decimals is safe when it asks for its receiver. -/
theorem safe_receiver (hm : m.Sound ok) (hs : ∃ x, self = .float x) :
    Safe ok m (receiver self) fun _ _ => True := by
  obtain ⟨x, rfl⟩ := hs
  exact .pure hm trivial

/-- What is no number is refused as an operand. -/
theorem safe_operand (hm : m.Sound ok) (v : Value) : Safe ok m (operand v) fun _ _ => True := by
  cases v with
  | int i => exact .pure hm trivial
  | float x => exact .pure hm trivial
  | _ => exact safe_faultOn hm _ fun _ => nofun

theorem yields_arithmetic (hm : m.Sound ok) (hs : ∃ x, self = .float x)
    (f : Float → Float → Float) (other : Value) : Yields ok m (arithmetic f self other) :=
  (safe_receiver hm hs).bind fun _ _ hl _ => (safe_operand hl.sound other).bind fun _ _ hl _ =>
    .pure hl.sound trivial

/-- A decimal that is too large for an integer is an error of the program. -/
theorem mild_toInteger (x : Float) : Mild (toInteger x) :=
  .ite (.error nofun) (.ite (.error nofun) (.ok _))

theorem yields_rounded (hm : m.Sound ok) (hs : ∃ x, self = .float x) (f : Float → Float) :
    Yields ok m (rounded f self) :=
  (safe_receiver hm hs).bind fun _ _ hl _ =>
    .map (.ofExcept hl.sound (mild_toInteger _) fun _ _ => trivial)

/-- **The methods of decimals** are safe on decimals. -/
theorem yields_run (hm : m.Sound ok) (op : FloatOp) (hs : ∃ x, self = .float x)
    (args : List Value) : Yields ok m (op.run self args) := by
  have number : self.Lives m := by
    obtain ⟨x, rfl⟩ := hs
    trivial
  cases op with
  | add | sub | mul | div | mod | pow => exact yields_arithmetic hm hs _ _
  | toI | floor | ceil | round => exact yields_rounded hm hs _
  | toS => exact (safe_receiver hm hs).bind fun _ _ hl _ => yields_newString hl.sound _
  | toF => exact .pure hm number
  | neg | abs | isNaN => exact (safe_receiver hm hs).bind fun _ _ hl _ => .pure hl.sound trivial

end FloatOp

end Numbers

/-! ### Texts -/

section Texts

open Run (yields_answer yields_newString safe_expectText safe_expectInteger)

namespace StringOp

variable {self : Value}

/-- A method of strings is safe when it asks for its receiver. -/
theorem safe_receiver (hm : m.Sound ok) (hs : ∃ id, self = .str id) :
    Safe ok m (receiver self) fun _ _ => True := by
  obtain ⟨id, rfl⟩ := hs
  exact .pure hm trivial

/-- The text of a string that lives is there. -/
theorem safe_selfText (hm : m.Sound ok) (hs : ∃ id, self = .str id) :
    Safe ok m (selfText self) fun _ _ => True :=
  (safe_receiver hm hs).bind fun _ _ hl _ => .view hl.sound trivial

theorem yields_mapped (hm : m.Sound ok) (hs : ∃ id, self = .str id) (f : String → String) :
    Yields ok m (mapped f self) :=
  (safe_selfText hm hs).bind fun _ _ hl _ => yields_newString hl.sound _

theorem yields_tested (hm : m.Sound ok) (hs : ∃ id, self = .str id)
    (test : List Char → List Char → Bool) (other : Value) :
    Yields ok m (tested test self other) :=
  (safe_expectText hm other).bind fun _ _ hl _ => (safe_selfText hl.sound hs).bind
    fun _ _ hl _ => yields_answer hl.sound _

/-- A text that cannot be held is an error of the program. -/
theorem mild_repeatText (memory : Memory) (s : String) (n : Nat) : Mild (repeatText memory s n) :=
  .ite (.ok _) (.ite (.ok _) (.error nofun))

/-- Repeating a text is safe for every number of times. -/
theorem yields_repeated (hm : m.Sound ok) (hs : ∃ id, self = .str id) (other : Value) :
    Yields ok m (repeated self other) := by
  refine (safe_expectInteger hm other).bind fun count s hl _ => .ite (fun _ => ?_) fun _ => ?_
  · exact .fault hl.sound nofun
  · refine (safe_selfText hl.sound hs).bind fun text s hl _ => .view_bind ?_
    exact (Safe.ofExcept (Q := fun _ _ => True) hl.sound (mild_repeatText _ text _)
      fun _ _ => trivial).bind fun _ _ hl _ => yields_newString hl.sound _

/-- **The methods of strings** are safe on strings that live. -/
theorem yields_run (hm : m.Sound ok) (op : StringOp) (hs : ∃ id, self = .str id)
    (hv : self.Lives m) (args : List Value) : Yields ok m (op.run self args) := by
  cases op with
  | concat =>
      exact (safe_expectText hm _).bind fun _ _ hl _ => (safe_selfText hl.sound hs).bind
        fun _ _ hl _ => yields_newString hl.sound _
  | append =>
      refine (safe_expectText hm _).bind fun right s₁ hl₁ _ =>
        (safe_receiver hl₁.sound hs).bind fun id s₂ hl₂ _ => ?_
      have hl₃ := hl₂.sound.leads_append id right
      exact (Safe.update (Q := fun _ _ => True) hl₃ trivial).bind fun _ _ hl _ =>
        .pure hl.sound (hv.grow ((hl₁.trans hl₂).trans hl).grows)
  | times => exact yields_repeated hm hs _
  | equals =>
      exact (safe_selfText hm hs).bind fun _ _ hl _ => .view_bind (yields_answer hl.sound _)
  | size => exact (safe_selfText hm hs).bind fun _ _ hl _ => .pure hl.sound trivial
  | isEmpty => exact (safe_selfText hm hs).bind fun _ _ hl _ => yields_answer hl.sound _
  | includes | startsWith => exact yields_tested hm hs _ _
  | upcase | downcase | reverse | inspect => exact yields_mapped hm hs _
  | toS => exact .pure hm hv
  | toSym =>
      exact (safe_selfText hm hs).bind fun text _ hl _ =>
        .map ((Run.safe_intern hl.sound text).imp fun _ _ _ _ => trivial)
  | toI =>
      exact (safe_selfText hm hs).bind fun _ _ hl _ =>
        .map (.ofExcept hl.sound (Integer.mild_read _) fun _ _ => trivial)

end StringOp

/-- **The methods of symbols** are safe on symbols. -/
theorem SymbolOp.yields_run (hm : m.Sound ok) (op : SymbolOp) {self : Value}
    (hs : ∃ name, self = .sym name) : Yields ok m (op.run self) := by
  obtain ⟨name, rfl⟩ := hs
  have named : Safe ok m (selfName (.sym name)) fun _ _ => True := .view hm trivial
  cases op with
  | toS => exact named.bind fun _ _ hl _ => yields_newString hl.sound _
  | toSym => exact .pure hm trivial
  | inspect => exact named.bind fun _ _ hl _ => yields_newString hl.sound _

/-- **The methods of truth values and of `nil`** are safe on every value. -/
theorem TruthOp.yields_run (hm : m.Sound ok) (op : TruthOp) (args : List Value) :
    Yields ok m (op.run args) := by
  cases op with
  | always b => exact yields_answer hm b
  | argument => exact yields_answer hm _
  | noElements => exact Run.yields_newArray hm fun v hv => absurd hv (Array.not_mem_empty v)
  | text t => exact yields_newString hm t

end Texts

/-! ### Arrays -/

/-- An element of an array with a list added to it is one of the array or of the list. -/
theorem mem_of_mem_appendList {α : Type} {as : Array α} {bs : List α} {a : α} (h : a ∈ as ++ bs) :
    a ∈ as ∨ a ∈ bs := by
  rw [← Array.mem_toList_iff, Array.toList_appendList, List.mem_append] at h
  exact h.imp_left Array.mem_toList_iff.mp

/-- An element that is left when the last one is dropped has been there before. -/
theorem mem_of_mem_pop {α : Type} {as : Array α} {a : α} (h : a ∈ as.pop) : a ∈ as := by
  rw [← Array.mem_toList_iff, Array.toList_pop] at h
  exact Array.mem_toList_iff.mp ((List.dropLast_sublist _).mem h)

/-- An element that is read lives, also at a position where there is none. -/
theorem lives_elementAt {elements : Array Value} (he : ∀ v ∈ elements, v.Lives m) (i : Int) :
    (elementAt elements i).Lives m := by
  unfold elementAt
  simp only []
  split
  · trivial
  · cases h : elements[(position i elements.size).toNat]? with
    | none => trivial
    | some v => exact he v (Array.mem_of_getElem? h)

/-- When an element is stored, all elements live, those that fill a gap as well. -/
theorem lives_place {elements : Array Value} (he : ∀ v ∈ elements, v.Lives m) (p : Nat) {v : Value}
    (hv : v.Lives m) : ∀ w ∈ place elements p v, w.Lives m := by
  intro w hw
  unfold place at hw
  split at hw
  · rcases Array.mem_or_eq_of_mem_setIfInBounds hw with h | rfl
    · exact he w h
    · exact hv
  · rcases Array.mem_push.mp hw with h | rfl
    · rcases Array.mem_append.mp h with h | h
      · exact he w h
      · obtain rfl := Array.eq_of_mem_replicate h
        trivial
    · exact hv

namespace ArrayOp

open Run (yields_answer yields_newString yields_newArray)

variable {self : Value} {invoke : Invoke}

/-- A method of arrays is safe when it asks for its receiver. -/
theorem safe_receiver (hm : m.Sound ok) (hs : ∃ id, self = .arr id) :
    Safe ok m (receiver self) fun _ _ => True := by
  obtain ⟨id, rfl⟩ := hs
  exact .pure hm trivial

/-- The elements of an array that lives do so, too. -/
theorem safe_selfElements (hm : m.Sound ok) (hs : ∃ id, self = .arr id) :
    Safe ok m (selfElements self) fun elements s => ∀ v ∈ elements, v.Lives s :=
  (safe_receiver hm hs).bind fun id _ hl _ => .view hl.sound (hl.sound.elements id)

/-- A position that cannot be stored at is an error of the program. -/
theorem mild_storePosition (memory : Memory) (i : Int) (size : Nat) :
    Mild (storePosition memory i size) := by
  unfold storePosition
  exact .ite (.error nofun) (.ite (.ok _) (.error nofun))

/-- Storing a value that lives is safe at every index. -/
theorem yields_store (hm : m.Sound ok) (hs : ∃ id, self = .arr id) (index : Value) {v : Value}
    (hv : v.Lives m) : Yields ok m (store self index v) := by
  refine (Run.safe_expectInteger hm index).bind fun i s₁ hl₁ _ =>
    (safe_receiver hl₁.sound hs).bind fun id s₂ hl₂ _ => .view_bind (.view_bind ?_)
  refine (Safe.ofExcept (Q := fun _ _ => True) hl₂.sound (mild_storePosition _ _ _)
    fun _ _ => trivial).bind fun p s₃ hl₃ _ => ?_
  have hl₁₃ := (hl₁.trans hl₂).trans hl₃
  have hl₄ := hl₃.sound.leads_modifyElements id fun elements he =>
    lives_place he p (hv.grow hl₁₃.grows)
  exact (Safe.update (Q := fun _ _ => True) hl₄ trivial).bind fun _ _ hl _ =>
    .pure hl.sound (hv.grow (hl₁₃.trans hl).grows)

/-- Comparing values that live is safe, whatever the comparison answers. -/
theorem safe_equal (hI : invoke.IsSafe ok) (hm : m.Sound ok) {v w : Value} (hv : v.Lives m)
    (hw : w.Lives m) : Safe ok m (equal invoke v w) fun _ _ => True :=
  (Run.yields_send hI hm hv .equals (.cons hw .nil)).bind fun _ _ hl _ => .pure hl.sound trivial

/-- Comparing arrays is safe, also while the comparisons change them. -/
theorem yields_equalElements (hI : invoke.IsSafe ok) (hm : m.Sound ok) (hs : ∃ id, self = .arr id)
    (other : Value) : Yields ok m (equalElements invoke self other) := by
  cases other with
  | arr id =>
      refine .view_bind ((safe_selfElements hm hs).bind fun left s hl hleft => ?_)
      refine .ite (fun _ => ?_) fun _ => yields_answer hl.sound _
      refine Safe.bind (.any hl.sound fun p hp s' hl' => ?_) fun _ _ hl _ =>
        yields_answer hl.sound _
      obtain ⟨h₁, h₂⟩ := List.of_mem_zip hp
      have lives₁ := hleft p.1 (Array.mem_toList_iff.mp h₁)
      have lives₂ := (hm.elements id p.2 (Array.mem_toList_iff.mp h₂)).grow hl.grows
      exact .map (safe_equal hI hl'.sound (lives₁.grow hl'.grows) (lives₂.grow hl'.grows))
  | _ => exact yields_answer hm _

/-- Joining elements is safe, whatever texts they answer. -/
theorem yields_joined (hI : invoke.IsSafe ok) (hm : m.Sound ok) (hs : ∃ id, self = .arr id)
    (args : List Value) : Yields ok m (joined invoke self args) := by
  have rest : ∀ (separator : String) (s : Machine), s.Sound ok → Yields ok s (do
      let elements ← selfElements self
      let parts ← Action.each (Run.toText invoke) elements.toList
      Run.newString (separator.intercalate parts)) := by
    intro separator s hsound
    refine (safe_selfElements hsound hs).bind fun elements s₁ hl₁ he => ?_
    refine Safe.bind (.each (R := fun _ _ => True) hl₁.sound (fun _ _ _ _ _ => trivial)
      fun v hv s₂ hl₂ => ?_) fun _ _ hl _ => yields_newString hl.sound _
    exact Run.safe_toText hI hl₂.sound ((he v (Array.mem_toList_iff.mp hv)).grow hl₂.grows)
  cases args with
  | nil =>
      exact (Safe.pure (Q := fun _ _ => True) hm trivial).bind fun t s hl _ => rest t s hl.sound
  | cons v args => exact (Run.safe_expectText hm v).bind fun t s hl _ => rest t s hl.sound

/-- Inspecting elements is safe. -/
theorem yields_inspectElements (hI : invoke.IsSafe ok) (hm : m.Sound ok)
    (hs : ∃ id, self = .arr id) : Yields ok m (inspectElements invoke self) := by
  refine (safe_selfElements hm hs).bind fun elements s₁ hl₁ he => ?_
  refine Safe.bind (.each (R := fun _ _ => True) hl₁.sound (fun _ _ _ _ _ => trivial)
    fun v hv s₂ hl₂ => ?_) fun _ _ hl _ => yields_newString hl.sound _
  refine .ite (fun _ => .pure hl₂.sound trivial) fun _ => ?_
  exact Run.safe_inspect hI hl₂.sound ((he v (Array.mem_toList_iff.mp hv)).grow hl₂.grows)

/-- **The methods of arrays** are safe on arrays that live. -/
theorem yields_run (hI : invoke.IsSafe ok) (hm : m.Sound ok) (op : ArrayOp)
    (hs : ∃ id, self = .arr id) (hv : self.Lives m) {args : List Value}
    (ha : Value.AllLive m args) : Yields ok m (op.run invoke self args) := by
  have ho := Run.lives_arg ha 0
  cases op with
  | get =>
      exact (Run.safe_expectInteger hm _).bind fun i _ hl _ =>
        (safe_selfElements hl.sound hs).bind fun _ _ hl he =>
          .pure hl.sound (lives_elementAt he i.toInt)
  | set => exact yields_store hm hs _ (Run.lives_arg ha 1)
  | push =>
      refine (safe_receiver hm hs).bind fun id s₁ hl₁ _ => ?_
      have hl₂ := hl₁.sound.leads_modifyElements (f := fun elements => elements ++ args) id
        fun elements he w hw => by
          rcases mem_of_mem_appendList hw with h | h
          · exact he w h
          · exact (ha w h).grow hl₁.grows
      exact (Safe.update (Q := fun _ _ => True) hl₂ trivial).bind fun _ _ hl _ =>
        .pure hl.sound (hv.grow (hl₁.trans hl).grows)
  | pop =>
      refine (safe_receiver hm hs).bind fun id s₁ hl₁ _ => .view_bind ?_
      have hl₂ := hl₁.sound.leads_modifyElements (f := Array.pop) id fun elements he w hw =>
        he w (mem_of_mem_pop hw)
      refine (Safe.update (Q := fun _ _ => True) hl₂ trivial).bind fun _ _ hl _ =>
        .pure hl.sound ?_
      cases hb : (s₁.heap.elements id).back? with
      | none => trivial
      | some w => exact (hl₁.sound.elements id w (Array.mem_of_back? hb)).grow hl.grows
  | first =>
      refine (safe_selfElements hm hs).bind fun elements s hl he => .pure hl.sound ?_
      cases h : elements[0]? with
      | none => trivial
      | some w => exact he w (Array.mem_of_getElem? h)
  | last =>
      refine (safe_selfElements hm hs).bind fun elements s hl he => .pure hl.sound ?_
      cases h : elements.back? with
      | none => trivial
      | some w => exact he w (Array.mem_of_back? h)
  | size => exact (safe_selfElements hm hs).bind fun _ _ hl _ => .pure hl.sound trivial
  | isEmpty => exact (safe_selfElements hm hs).bind fun _ _ hl _ => yields_answer hl.sound _
  | includes =>
      refine (safe_selfElements hm hs).bind fun elements s₁ hl₁ he => ?_
      refine Safe.bind (.any hl₁.sound fun v hv' s₂ hl₂ => ?_) fun _ _ hl _ =>
        yields_answer hl.sound _
      have lives := he v (Array.mem_toList_iff.mp hv')
      exact safe_equal hI hl₂.sound (lives.grow hl₂.grows) (ho.grow (hl₁.trans hl₂).grows)
  | concat =>
      refine (Run.safe_expectElements hm _).bind fun right s₁ hl₁ hr =>
        (safe_selfElements hl₁.sound hs).bind fun left s₂ hl₂ hleft => ?_
      refine yields_newArray hl₂.sound fun w hw => ?_
      rcases mem_of_mem_appendList hw with h | h
      · exact hleft w h
      · exact (hr w h).grow hl₂.grows
  | equals => exact yields_equalElements hI hm hs _
  | join => exact yields_joined hI hm hs args
  | reverse =>
      exact (safe_selfElements hm hs).bind fun _ _ hl he =>
        yields_newArray hl.sound fun w hw => he w (Array.mem_reverse.mp hw)
  | inspect => exact yields_inspectElements hI hm hs

end ArrayOp

/-! ### Objects -/

namespace ObjectOp

open Run (yields_answer yields_newString yields_newArray)

variable {self : Value} {invoke : Invoke}

/-- What is no name of a variable is refused. -/
theorem safe_variableName (hI : invoke.IsSafe ok) (hm : m.Sound ok) {v : Value} (hv : v.Lives m) :
    Safe ok m (variableName invoke v) fun _ _ => True := by
  refine (Run.safe_expectName hI hm hv).bind fun name s hl _ => .view_bind ?_
  exact .ite (fun _ => .pure hl.sound trivial) fun _ => .fault hl.sound nofun

theorem yields_plainText (hm : m.Sound ok) (self : Value) : Yields ok m (plainText self) :=
  .view_bind (yields_newString hm _)

/-- What the variables of an object hold lives. -/
theorem lives_of_variablesByName (hm : m.Sound ok) (id : ObjectId) :
    ∀ e ∈ m.variablesByName id, e.2.2.Lives m := by
  intro e he
  rw [Machine.variablesByName, List.mem_mergeSort] at he
  obtain ⟨e', he', rfl⟩ := List.mem_map.mp he
  exact hm.ivars id e' he'

/-- An object is shown safely, with all of its variables. -/
theorem yields_inspectObject (hI : invoke.IsSafe ok) (hm : m.Sound ok) (self : Value) :
    Yields ok m (inspectObject invoke self) := by
  cases self with
  | obj id =>
      refine .ite (fun _ => yields_plainText hm _) fun _ => .view_bind ?_
      refine Safe.bind (.each (R := fun _ _ => True) hm (fun _ _ _ _ _ => trivial)
        fun e he s hl => ?_) fun _ _ hl _ => .view_bind (yields_newString hl.sound _)
      have lives := (lives_of_variablesByName hm id e he).grow hl.grows
      exact (Run.safe_inspect hI hl.sound lives).bind fun _ _ hl _ => .pure hl.sound trivial
  | _ => exact yields_plainText hm _

/-- The names of variables are symbols, which live. -/
theorem yields_namesOfVariables (hm : m.Sound ok) (self : Value) :
    Yields ok m (namesOfVariables self) := by
  cases self with
  | obj id =>
      refine .view_bind (yields_newArray hm fun v hv => ?_)
      obtain ⟨e, -, rfl⟩ := List.mem_map.mp (List.mem_toArray.mp hv)
      trivial
  | _ => exact yields_newArray hm fun v hv => absurd hv (Array.not_mem_empty v)

/-- **The methods of all objects** are safe on every value that lives. -/
theorem yields_run (hI : invoke.IsSafe ok) (hm : m.Sound ok) (op : ObjectOp) (hv : self.Lives m)
    {args : List Value} (ha : Value.AllLive m args) : Yields ok m (op.run invoke self args) := by
  have ho := Run.lives_arg ha 0
  cases op with
  | same | negate | isNil => exact yields_answer hm _
  | differs =>
      exact (Run.yields_send hI hm hv .equals ha).bind fun _ _ hl _ => yields_answer hl.sound _
  | setup => exact .pure hm trivial
  | classOf =>
      refine .view_bind (.map (.ofExcept hm (m.mild_classOf self) fun c hc => ?_))
      exact hm.classOf_lt hv hc
  | inspect => exact yields_inspectObject hI hm self
  | toS => exact yields_plainText hm self
  | isA =>
      exact (Run.safe_expectClass hm ho).bind fun c s hl _ =>
        .view_bind (.map (.ofExcept hl.sound (s.mild_isA self c) fun _ _ => trivial))
  | instanceOf =>
      refine (Run.safe_expectClass hm ho).bind fun c s hl _ => .view_bind ?_
      exact (Safe.ofExcept (Q := fun _ _ => True) hl.sound (s.mild_classOf self)
        fun _ _ => trivial).bind fun _ _ hl _ => yields_answer hl.sound _
  | respondTo =>
      exact (Run.safe_expectName hI hm ho).bind fun name _ hl _ =>
        (Run.safe_findMethod hl.sound (hv.grow hl.grows) name).bind fun _ _ hl _ =>
          yields_answer hl.sound _
  | objectId => exact .pure hm trivial
  | send =>
      refine (Run.safe_expectName hI hm ho).bind fun name s hl _ => ?_
      exact Run.yields_send hI hl.sound (hv.grow hl.grows) name fun v hv' =>
        (ha v (List.mem_of_mem_tail hv')).grow hl.grows
  | bind =>
      exact (Run.safe_expectName hI hm ho).bind fun name _ hl _ =>
        Run.yields_bindMethod hl.sound (hv.grow hl.grows) name
  | variableGet =>
      exact (safe_variableName hI hm ho).bind fun name _ hl _ =>
        Run.yields_getVariable hl.sound self name
  | variableSet =>
      exact (safe_variableName hI hm ho).bind fun name _ hl _ =>
        Run.yields_setVariable hl.sound self name ((Run.lives_arg ha 1).grow hl.grows)
  | variableNames => exact yields_namesOfVariables hm self

end ObjectOp

/-! ### Output and exceptions -/

namespace KernelOp

variable {invoke : Invoke}

/-- A value that lives is put safely, whatever arrays it holds. -/
theorem safe_putsValue (hI : invoke.IsSafe ok) (hm : m.Sound ok) (fuel : Nat) (path : List ArrayId)
    {v : Value} (hv : v.Lives m) : Safe ok m (putsValue invoke fuel path v) fun _ _ => True := by
  induction fuel generalizing m path v with
  | zero => exact .exhaust hm
  | succ fuel ih =>
      cases v with
      | arr id =>
          refine .ite (fun _ => Run.safe_write hm _) fun _ => .view_bind ?_
          refine .ite (fun _ => Run.safe_write hm _) fun _ => ?_
          refine Safe.bind (.each (R := fun _ _ => True) hm (fun _ _ _ _ _ => trivial)
            fun w hw s hl => ?_) fun _ _ hl _ => .pure hl.sound trivial
          have lives := hm.elements id w (Array.mem_toList_iff.mp hw)
          exact ih hl.sound (id :: path) (lives.grow hl.grows)
      | _ => exact (Run.safe_toText hI hm hv).bind fun _ _ hl _ => Run.safe_write hl.sound _

/-- So are several of them. -/
theorem yields_putLines (hI : invoke.IsSafe ok) (hm : m.Sound ok) (fuel : Nat) {args : List Value}
    (ha : Value.AllLive m args) : Yields ok m (putLines fuel invoke args) := by
  have rest : ∀ s, m.Leads ok s → Yields ok s (do
      let _ ← Action.each (putsValue invoke fuel []) args
      pure Value.nil) := fun s hl =>
    Safe.bind (.each (R := fun _ _ => True) hl.sound (fun _ _ _ _ _ => trivial)
      fun v hv s' hl' => safe_putsValue hI hl'.sound fuel []
        ((ha v hv).grow (hl.trans hl').grows)) fun _ _ hl _ => .pure hl.sound trivial
  unfold putLines
  split
  · exact (Run.safe_write hm _).bind fun _ s hl _ => rest s hl
  · exact rest m (.refl hm)

theorem yields_printTexts (hI : invoke.IsSafe ok) (hm : m.Sound ok) {args : List Value}
    (ha : Value.AllLive m args) : Yields ok m (printTexts invoke args) := by
  refine Safe.bind (.each (R := fun _ _ => True) hm (fun _ _ _ _ _ => trivial)
    fun v hv s hl => ?_) fun _ _ hl _ => .pure hl.sound trivial
  exact (Run.safe_toText hI hl.sound ((ha v hv).grow hl.grows)).bind fun _ _ hl _ =>
    Run.safe_write hl.sound _

theorem yields_showValues (hI : invoke.IsSafe ok) (hm : m.Sound ok) {args : List Value}
    (ha : Value.AllLive m args) : Yields ok m (showValues invoke args) := by
  refine Safe.bind (.each (R := fun _ _ => True) hm (fun _ _ _ _ _ => trivial)
    fun v hv s hl => ?_) fun _ s hl _ => ?_
  · exact (Run.safe_inspect hI hl.sound ((ha v hv).grow hl.grows)).bind fun _ _ hl _ =>
      Run.safe_write hl.sound _
  · have ha := ha.grow hl.grows
    match args, ha with
    | [], _ => exact .pure hl.sound trivial
    | [v], ha => exact .pure hl.sound (ha v (.head _))
    | v :: w :: args, ha =>
        exact Run.yields_newArray hl.sound fun x hx => ha x (List.mem_toArray.mp hx)

/-- What is raised is an exception that lives, or it is refused. -/
theorem yields_exceptionFor (hI : invoke.IsSafe ok) (hm : m.Sound ok) {args : List Value}
    (ha : Value.AllLive m args) : Yields ok m (exceptionFor invoke args) := by
  unfold exceptionFor
  split
  · exact Run.yields_newException hI hm _ _
  · exact .view_bind (Run.yields_newException hI hm _ _)
  · exact Run.yields_send hI hm (ha _ (.head _)) .new .nil
  · exact Run.yields_send hI hm (ha _ (.head _)) .new (.cons (ha _ (.tail _ (.head _))) .nil)
  · exact .pure hm (ha _ (.head _))
  · exact .fault hm nofun

/-- Only exceptions are raised. -/
theorem yields_raiseException (hI : invoke.IsSafe ok) (hm : m.Sound ok) {args : List Value}
    (ha : Value.AllLive m args) : Yields ok m (raiseException invoke args) := by
  refine (yields_exceptionFor hI hm ha).bind fun e s hl he => .view_bind ?_
  refine (Safe.ofExcept (Q := fun b s' => b = true → e.IsException s') hl.sound
    (s.mild_isA e .exception) fun b hb ht => ?_).bind fun b s' hl' hb => ?_
  · exact hl.sound.isException_of_isA he (hb.trans (by rw [ht]))
  · exact .ite (fun ht => .fail hl'.sound (hb ht)) fun _ => .fault hl'.sound nofun

/-- Values that live are compared safely, and shown if they differ. -/
theorem yields_checkEqual (hI : invoke.IsSafe ok) (hm : m.Sound ok) {args : List Value}
    (ha : Value.AllLive m args) : Yields ok m (checkEqual invoke args) := by
  have h₀ := Run.lives_arg ha 0
  have h₁ := Run.lives_arg ha 1
  refine (Run.yields_send hI hm h₀ .equals (.cons h₁ .nil)).bind fun v s hl _ => ?_
  refine .ite (fun _ => .pure hl.sound trivial) fun _ => ?_
  refine (Run.safe_inspect hI hl.sound (h₀.grow hl.grows)).bind fun left s' hl' _ => ?_
  exact (Run.safe_inspect hI hl'.sound (h₁.grow (hl.trans hl').grows)).bind fun _ _ hl _ =>
    .fault hl.sound nofun

/-- **The methods of the kernel** are safe for arguments that live. -/
theorem yields_run (hI : invoke.IsSafe ok) (hm : m.Sound ok) (fuel : Nat) (op : KernelOp)
    {args : List Value} (ha : Value.AllLive m args) : Yields ok m (op.run fuel invoke args) := by
  cases op with
  | puts => exact yields_putLines hI hm fuel ha
  | print => exact yields_printTexts hI hm ha
  | p => exact yields_showValues hI hm ha
  | raise => exact yields_raiseException hI hm ha
  | assert => exact yields_checkEqual hI hm ha

end KernelOp

namespace ExceptionOp

/-- The message of an exception lives, as it has been given as an argument. -/
theorem yields_keepMessage (hm : m.Sound ok) (self : Value) {args : List Value}
    (ha : Value.AllLive m args) : Yields ok m (keepMessage self args) := by
  unfold keepMessage
  split
  · rename_i id v rest
    refine .ite (fun _ => .pure hm trivial) fun _ => ?_
    have hl := hm.leads_setVariable id .message (ha v (.head _))
    exact (Safe.update (Q := fun _ _ => True) hl trivial).bind fun _ _ hl _ =>
      .pure hl.sound trivial
  · exact .pure hm trivial

/-- **The methods of exceptions** are safe for arguments that live. -/
theorem yields_run (hm : m.Sound ok) (op : ExceptionOp) (self : Value) {args : List Value}
    (ha : Value.AllLive m args) : Yields ok m (op.run self args) := by
  cases op with
  | setup => exact yields_keepMessage hm self ha
  | message | inspect => exact .view_bind (Run.yields_newString hm _)

end ExceptionOp

/-! ### Classes and bound methods -/

/-- A value that cannot be a class to make objects of is told without an internal error. -/
theorem ClassTable.mild_sizeOfNew (t : ClassTable) (h : Heap) (v : Value) :
    Mild (t.sizeOfNew h v) := by
  cases v with
  | int i => exact .ite (.error nofun) (.ok _)
  | _ => exact .error nofun

/-- Failing to make an instance is no fault of the interpreter itself. -/
theorem ClassTable.mild_instantiate (t : ClassTable) (h : Heap) (c : ClassId) (args : List Value)
    (memory : Memory) : Mild (t.instantiate h c args memory) := by
  have sized : ∀ (n : Nat) (v : Value), Mild (if memory.holdsElements 0 n then
      (.ok (h.newArray c (Array.replicate n v)) : Except Fault (Value × Heap))
      else .error .tooBig) := fun _ _ => .ite (.ok _) (.error nofun)
  unfold instantiate
  split
  · exact .ok _
  · split
    · exact .ok _
    · exact .ok _
    · exact .error nofun
    · exact .error nofun
  · split
    · exact sized 0 .nil
    · exact (t.mild_sizeOfNew h _).bind fun n => sized n .nil
    · exact (t.mild_sizeOfNew h _).bind fun n => sized n _
    · exact .error nofun
  · exact .error nofun

/-- **What is made is of the kind that its class asks for**, so the heap stays in order. -/
theorem Machine.Sound.leads_instantiate (hm : m.Sound ok) {c : ClassId}
    (hc : c.index < m.classes.classes.size) {args : List Value} (ha : Value.AllLive m args)
    {memory : Memory} {v : Value} {h : Heap}
    (e : m.classes.instantiate m.heap c args memory = .ok (v, h)) :
    m.Leads ok { m with heap := h } ∧ v.Lives { m with heap := h } := by
  obtain ⟨payload, ⟨⟩⟩ | ⟨payload, s, ⟨⟩⟩ | ⟨payload, size, w, given, ⟨⟩⟩ :=
    ClassTable.instantiate_cases e
  · exact ⟨hm.leads_newObject ⟨hc, payload⟩, by simp [Value.Lives]⟩
  · exact ⟨hm.leads_newString ⟨hc, payload⟩ s, by simp [Value.Lives]⟩
  · have live : w.Lives m := by
      rcases given with rfl | mem
      · trivial
      · exact ha w mem
    refine ⟨hm.leads_newArray ⟨hc, payload⟩ fun x hx => ?_, by simp [Value.Lives]⟩
    exact Array.eq_of_mem_replicate hx ▸ live

namespace ClassOp

open Run (yields_answer yields_newString yields_newArray)

variable {invoke : Invoke} {c : ClassId}

/-- An action that makes an instance is safe: it puts the new cell on the heap, or fails with what
keeps the class from having one. -/
theorem yields_of_instantiate (hm : m.Sound ok) (hc : c.index < m.classes.classes.size)
    {args : List Value} (ha : Value.AllLive m args) {run : Run Value}
    (made : ∀ v heap, m.classes.instantiate m.heap c args m.host.memory = .ok (v, heap) →
      run m = .done v { m with heap := heap })
    (kept : ∀ cause, m.classes.instantiate m.heap c args m.host.memory = .error cause →
      run m = .failed (.ofFault cause) m) : Yields ok m run := by
  cases e : m.classes.instantiate m.heap c args m.host.memory with
  | ok r =>
      obtain ⟨hl, hv⟩ := hm.leads_instantiate hc ha e
      exact .of_done (made r.1 r.2 e) hl hv
  | error cause =>
      refine .of_failed (kept cause e) (.refl hm) fun hk => ?_
      exact absurd hk (m.classes.mild_instantiate m.heap c args m.host.memory cause e)

/-- A new object lives, and it is initialized with arguments that live. -/
theorem yields_makeInstance (hI : invoke.IsSafe ok) (hm : m.Sound ok)
    (hc : c.index < m.classes.classes.size) {args : List Value} (ha : Value.AllLive m args) :
    Yields ok m (makeInstance invoke c args) := by
  refine .view_bind ?_
  cases m.classes.payload c with
  | ivars =>
      refine (yields_of_instantiate hm hc .nil (fun v heap e => by simp only [e])
        fun cause e => by simp only [e]).bind fun v s hl hv => ?_
      exact (Run.yields_send hI hl.sound hv .setup (ha.grow hl.grows)).bind fun _ _ hl _ =>
        .pure hl.sound (hv.grow hl.grows)
  | _ =>
      exact yields_of_instantiate hm hc ha (fun v heap e => by simp only [e])
        fun cause e => by simp only [e]

/-- Methods are removed from classes of the table only. -/
theorem safe_removeMethods (hI : invoke.IsSafe ok) (hm : m.Sound ok) {args : List Value}
    (ha : Value.AllLive m args) : Safe ok m (removeMethods invoke c args) fun _ _ => True := by
  refine Safe.bind (.each (R := fun _ _ => True) hm (fun _ _ _ _ _ => trivial)
    fun v hv s hl => ?_) fun _ _ hl _ => .pure hl.sound trivial
  refine (Run.safe_expectName hI hl.sound ((ha v hv).grow hl.grows)).bind fun name s' hl' _ =>
    .view_bind (.ite (fun _ => ?_) fun _ => .view_bind (.fault hl'.sound nofun))
  have removed := s'.classes.extends_removeMethod c name
  exact .update (hl'.sound.leads_classes removed (hl'.sound.classes.removeMethod name)) trivial

/-- A method that is added to a class has a body that is in order. -/
theorem safe_addMethod (hm : m.Sound ok) {method : Method} (h : method.BelongsIn ok c) :
    Safe ok m (Run.updateClasses fun t => t.addMethod c method) fun _ _ => True :=
  .update (hm.leads_classes (m.classes.extends_addMethod c method) (hm.classes.addMethod h))
    trivial

/-- Accessors are methods without a body, so they are in order. -/
theorem yields_defineAccessors (hI : invoke.IsSafe ok) (hm : m.Sound ok) (reads writes : Bool)
    {args : List Value} (ha : Value.AllLive m args) :
    Yields ok m (defineAccessors invoke reads writes c args) := by
  refine Safe.bind (.each (R := fun vs s => Value.AllLive s vs) hm (fun _ _ _ h hg => h.grow hg)
    fun v hv s hl => ?_) fun vs s hl hvs => ?_
  · refine (Run.safe_expectName hI hl.sound ((ha v hv).grow hl.grows)).bind fun name s₁ hl₁ _ =>
      .view_bind ((Run.safe_intern hl₁.sound _).bind fun variableName s₂ hl₂ _ => ?_)
    have symbols : ∀ {vs : List Value} {s' : Machine}, (∀ v ∈ vs, ∃ name, v = .sym name) →
        Value.AllLive s' vs := by
      intro vs s' h v hv
      obtain ⟨name, rfl⟩ := h v hv
      trivial
    have rest : ∀ s₃, s₂.Leads ok s₃ → Safe ok s₃ (if writes then do
          let setter ← Run.intern (s₁.names.text name ++ "=")
          Run.updateClasses fun t =>
            t.addMethod c (.native setter (.exact 1) (.writer variableName))
          pure (if reads then [Value.sym name, .sym setter] else [.sym setter])
        else pure (if reads then [Value.sym name] else [])) fun vs s => Value.AllLive s vs := by
      intro s₃ hl₃
      refine .ite (fun _ => ?_) fun _ => .pure hl₃.sound (symbols ?_)
      · refine (Run.safe_intern hl₃.sound _).bind fun setter s₄ hl₄ _ => ?_
        have writer : (Method.native setter (.exact 1) (.writer variableName)).BelongsIn ok c :=
          ⟨.inl rfl, fun _ => rfl⟩
        refine (safe_addMethod hl₄.sound writer).bind fun _ s₅ hl₅ _ =>
          .pure hl₅.sound (symbols ?_)
        cases reads <;> simp
      · cases reads <;> simp
    cases reads with
    | true =>
        have reader : (Method.native name (.exact 0) (.reader variableName)).BelongsIn ok c :=
          ⟨.inl rfl, fun _ => rfl⟩
        exact (safe_addMethod hl₂.sound reader).bind fun _ s₃ hl₃ _ => rest s₃ hl₃
    | false => exact rest s₂ (.refl hl₂.sound)
  · refine yields_newArray hl.sound fun v hv => ?_
    obtain ⟨row, hrow, hv⟩ := List.mem_flatten.mp (List.mem_toArray.mp hv)
    exact hvs row hrow v hv

/-- Only classes come to the methods of classes, and a class that is there has classes above it
that are there. -/
theorem yields_run (hI : invoke.IsSafe ok) (hm : m.Sound ok) (op : ClassOp)
    {self : Value} (hv : self.Lives m) {args : List Value} (ha : Value.AllLive m args) :
    Yields ok m (op.run invoke self args) := by
  refine (Run.safe_expectClass hm hv).bind fun c s hl hc => ?_
  have ha := ha.grow hl.grows
  have ho := Run.lives_arg ha 0
  cases op with
  | new => exact yields_makeInstance hI hl.sound hc ha
  | name => exact .view_bind (yields_newString hl.sound _)
  | parent =>
      refine .view hl.sound ?_
      cases hp : s.classes.parent? c with
      | none => trivial
      | some above =>
          exact hl.sound.classes.ancestors_lt hc above (.tail _ (List.mem_of_head? hp))
  | ancestors =>
      refine .view_bind (yields_newArray hl.sound fun v hv => ?_)
      obtain ⟨a, ha, rfl⟩ := List.mem_map.mp (List.mem_toArray.mp hv)
      exact hl.sound.classes.ancestors_lt hc a ha
  | methods =>
      refine .view_bind (yields_newArray hl.sound fun v hv => ?_)
      obtain ⟨name, -, rfl⟩ := List.mem_map.mp (List.mem_toArray.mp hv)
      trivial
  | definesMethod =>
      exact (Run.safe_expectName hI hl.sound ho).bind fun _ _ hl _ =>
        .view_bind (yields_answer hl.sound _)
  | removeMethod =>
      exact (safe_removeMethods hI hl.sound ha).bind fun _ _ hl' _ =>
        .pure hl'.sound (hv.grow (hl.trans hl').grows)
  | covers =>
      exact .view_bind (.map (.ofExcept hl.sound (s.mild_isA _ c) fun _ _ => trivial))
  | readers | writers | accessors => exact yields_defineAccessors hI hl.sound _ _ ha

end ClassOp

/-- **The methods of bound methods** are safe on bound methods that live. -/
theorem BoundOp.yields_run {invoke : Invoke} (hI : invoke.IsSafe ok) (hm : m.Sound ok)
    (op : BoundOp) {self : Value} (hs : ∃ id, self = .bound id) (hv : self.Lives m)
    {args : List Value} (ha : Value.AllLive m args) : Yields ok m (op.run invoke self args) := by
  obtain ⟨id, rfl⟩ := hs
  have hc := hm.bounds _ (Heap.bound_mem hv)
  cases op with
  | call => exact Run.yields_callBound hI hm hv ha
  | arity | name => exact .view hm trivial
  | owner => exact .view hm hc.owner
  | receiver => exact .view hm hc.receiver
  | inspect => exact .view_bind (.view_bind (.view_bind (Run.yields_newString hm _)))

/-! ### All native methods -/

/-- The kind of values that the methods of a class are for. -/
theorem Value.eq_of_sort (v : Value) :
    (v.sort = .integer → ∃ i, v = .int i) ∧ (v.sort = .float → ∃ x, v = .float x) ∧
    (v.sort = .string → ∃ id, v = .str id) ∧ (v.sort = .symbol → ∃ name, v = .sym name) ∧
    (v.sort = .array → ∃ id, v = .arr id) ∧ (v.sort = .method → ∃ id, v = .bound id) := by
  cases v with
  | bool b => cases b <;> simp [sort] <;> decide
  | _ =>
      simp [sort]
      decide

/-- **Native methods are safe on what they are meant for**, if the methods are that they call. -/
theorem Native.yields_run {invoke : Invoke} (hI : invoke.IsSafe ok) (hm : m.Sound ok) (fuel : Nat)
    (op : Native) {self : Value} (hs : op.Suits self) (hv : self.Lives m) {args : List Value}
    (ha : Value.AllLive m args) : Yields ok m (op.run fuel invoke self args) := by
  obtain ⟨integer, float, string, symbol, array, method⟩ := self.eq_of_sort
  have only : ∀ {c : ClassId}, op.home = [c] → self.sort = c := by
    intro c hc
    rcases hs with h | h
    · rw [hc] at h
      cases h
    · rw [hc] at h
      exact List.mem_singleton.mp h
  cases op with
  | object op => exact op.yields_run hI hm hv ha
  | kernel op => exact op.yields_run hI hm fuel ha
  | cls op => exact op.yields_run hI hm hv ha
  | truth op => exact op.yields_run hm args
  | order op => exact op.yields_run hI hm self ha
  | integer op => exact op.yields_run hm (integer (only rfl)) args
  | float op => exact op.yields_run hm (float (only rfl)) args
  | string op => exact op.yields_run hm (string (only rfl)) hv args
  | symbol op => exact op.yields_run hm (symbol (only rfl))
  | array op => exact op.yields_run hI hm (array (only rfl)) hv ha
  | bound op => exact op.yields_run hI hm (method (only rfl)) hv ha
  | exception op => exact op.yields_run hm self ha
  | reader name => exact Run.yields_getVariable hm self name
  | writer name => exact Run.yields_setVariable hm self name (Run.lives_arg ha 0)
  | gather =>
      refine Run.yields_newArray hm fun v hv' => ?_
      exact Value.AllLive.cons hv ha v (List.mem_toArray.mp hv')

end MiniRuby
