import MiniRuby.Library
import MiniRuby.Proofs.Typing.Machine

/-!
# Arrays are indexed sequences

An index at or above zero is a position, and one below zero counts from the end.  Reading and
storing go from an index to a position each in its own way: outside of the array there is `nil` to
be read, while a store makes the array longer, if memory can be reserved for the size that it then
has.  Which sizes those are is up to the machine's host; a position before the beginning can neither
be stored at nor grown to on any host.

* `isRead_elementAt`: what an index reads.
* `storePosition_of_refused`, `storePosition_of_not_refused`: when an index is refused, and where it
  stores otherwise.
* `isStored_place`: what an array holds after a store, so that the index reads what was stored
  (`IsStored.read`).
* `position_fits`: positions are worked out without leaving the words, whatever the index is.
* `store_then_read`: what storing does and when it is refused, and what is read afterwards.
-/

namespace MiniRuby

/-- An array after a value was stored at a position: it is long enough for it, holds `nil` from its
old end up to there, and is otherwise as before. -/
structure IsStored (before : Array Value) (p : Nat) (v : Value) (after : Array Value) : Prop where
  size : after.size = max before.size (p + 1)
  here : after[p]? = some v
  kept : ∀ k < before.size, k ≠ p → after[k]? = before[k]?
  gap : ∀ k, before.size ≤ k → k < p → after[k]? = some .nil

/-- What an index reads in an array: an index at or above zero counts from the beginning, one below
zero from the end, and outside there is `nil`. -/
structure IsRead (xs : Array Value) (i : Int) (v : Value) : Prop where
  forward : 0 ≤ i → i < xs.size → xs[i.toNat]? = some v
  backward : i < 0 → -(xs.size : Int) ≤ i → xs[(i + xs.size).toNat]? = some v
  outside : i < -(xs.size : Int) ∨ xs.size ≤ i → v = .nil

/-- Whether nothing can be stored at an index: it lies before the beginning, or past the end where
memory is not given for the elements up to it. -/
def StoreRefused (memory : Memory) (i : Int) (size : Nat) : Prop :=
  i < -(size : Int) ∨ size ≤ i ∧ memory.elements (i.toNat + 1) = false

instance (memory : Memory) (i : Int) (size : Nat) : Decidable (StoreRefused memory i size) :=
  inferInstanceAs (Decidable (_ ∨ _))

/-- Where memory is refused for impossible sizes only, an index is refused only if it lies before
the beginning or asks for such a size. -/
theorem StoreRefused.impossible {memory : Memory} {impossible : Nat → Prop}
    (honest : memory.RefusesOnly impossible) {i : Int} {size : Nat}
    (h : StoreRefused memory i size) :
    i < -(size : Int) ∨ size ≤ i ∧ impossible (i.toNat + 1) :=
  h.imp_right fun far => ⟨far.1, honest _ far.2⟩

/-! ### Positions -/

theorem position_of_nonneg {i : Int} {l : Nat} (h : 0 ≤ i) : position i l = i := if_neg (by omega)

theorem position_of_neg {i : Int} {l : Nat} (h : i < 0) : position i l = i + l := if_pos h

/-- **A position is worked out on words**, and the position after it is the size of an array at
most, if the array's own size is a word. -/
theorem position_fits {l : Nat} (hl : Integer.Fits l) (i : Int64) :
    (if i < 0 then i + Int64.ofNat l else i).toInt = position i.toInt l ∧
      position i.toInt l + 1 ≤ 9223372036854775808 := by
  have low : -9223372036854775808 ≤ i.toInt := i.le_toInt
  have high : i.toInt < 9223372036854775808 := i.toInt_lt
  unfold Integer.Fits at hl
  have word : (Int64.ofNat l).toInt = l := Int64.toInt_ofNat_of_lt (by omega)
  by_cases negative : i < 0
  · have below : i.toInt < 0 := Int64.lt_iff_toInt_lt.mp negative
    rw [if_pos negative, position_of_neg below, Int64.toInt_add, word,
      Int.bmod_eq_of_le (by omega) (by omega)]
    exact ⟨rfl, by omega⟩
  · have above : ¬ i.toInt < 0 := fun h => negative (Int64.lt_iff_toInt_lt.mpr h)
    rw [if_neg negative, position_of_nonneg (by omega)]
    exact ⟨rfl, by omega⟩

/-- An index reads the element at its position. -/
theorem elementAt_of_position {xs : Array Value} {i : Int} {k : Nat}
    (hk : position i xs.size = k) : elementAt xs i = xs[k]?.getD .nil := by
  unfold elementAt
  rw [hk]
  exact if_neg (by omega)

/-- **Reading.** -/
theorem isRead_elementAt (xs : Array Value) (i : Int) : IsRead xs i (elementAt xs i) where
  forward low high := by
    rw [elementAt_of_position (k := i.toNat) (by rw [position_of_nonneg low]; omega),
      Array.getElem?_eq_getElem (by omega), Option.getD_some]
  backward high low := by
    rw [elementAt_of_position (k := (i + xs.size).toNat) (by rw [position_of_neg high]; omega),
      Array.getElem?_eq_getElem (by omega), Option.getD_some]
  outside
  | .inl before => if_pos (by rw [position_of_neg (by omega)]; omega)
  | .inr after => by
      rw [elementAt_of_position (k := i.toNat) (by rw [position_of_nonneg (by omega)]; omega),
        Array.getElem?_eq_none (by omega), Option.getD_none]

/-- An array that is there has room for the positions in it, and for those past its end where
memory is given for the elements up to them. -/
theorem Memory.holdsElements_succ (memory : Memory) (size p : Nat) :
    memory.holdsElements size (p + 1) = true ↔ p < size ∨ memory.elements (p + 1) = true := by
  unfold holdsElements
  rw [Bool.or_eq_true, decide_eq_true_eq, Nat.succ_le_iff]

/-- A store that is refused is so for its index. -/
theorem storePosition_of_refused {memory : Memory} {i : Int} {l : Nat}
    (h : StoreRefused memory i l) :
    ∃ cause, storePosition memory i l = .error cause ∧ cause.kind = .index := by
  unfold storePosition
  rcases h with before | ⟨after, far⟩
  · exact ⟨_, if_pos (by rw [position_of_neg (by omega)]; omega), rfl⟩
  · have outside : ¬ memory.holdsElements l (i.toNat + 1) = true := by
      rw [Memory.holdsElements_succ, far]
      rintro (inside | given)
      · omega
      · cases given
    rw [position_of_nonneg (by omega)]
    dsimp only
    rw [if_neg (by omega), if_neg outside]
    exact ⟨_, rfl, rfl⟩

/-- Every other one goes to the position of its index. -/
theorem storePosition_of_not_refused {memory : Memory} {i : Int} {l : Nat}
    (h : ¬ StoreRefused memory i l) :
    ∃ p : Nat, storePosition memory i l = .ok p ∧ position i l = p := by
  obtain ⟨low, high⟩ := not_or.mp h
  have inside : 0 ≤ position i l := by
    unfold position
    split <;> omega
  have held : memory.holdsElements l ((position i l).toNat + 1) = true := by
    rw [Memory.holdsElements_succ]
    by_cases within : (position i l).toNat < l
    · exact .inl within
    · have here : position i l = i := by
        unfold position at within ⊢
        split at within <;> omega
      rw [here] at within inside ⊢
      exact .inr (Bool.of_not_eq_false fun far => high ⟨by omega, far⟩)
  refine ⟨(position i l).toNat, ?_, by omega⟩
  unfold storePosition
  dsimp only
  rw [if_neg (by omega), if_pos held]

/-! ### Elements -/

/-- **Storing.** -/
theorem isStored_place (xs : Array Value) (p : Nat) (v : Value) :
    IsStored xs p v (place xs p v) := by
  unfold place
  split
  · rename_i inside
    exact {
      size := by rw [Array.size_setIfInBounds]; omega
      here := by rw [Array.getElem?_setIfInBounds_self_of_lt inside]
      kept := fun k _ ne => Array.getElem?_setIfInBounds_ne ne.symm
      gap := fun k _ _ => by omega }
  · rename_i outside
    have size : (xs ++ Array.replicate (p - xs.size) Value.nil).size = p := by
      rw [Array.size_append, Array.size_replicate]
      omega
    exact {
      size := by rw [Array.size_push, size]; omega
      here := by rw [Array.getElem?_push, if_pos size.symm]
      kept := fun k inside _ => by
        rw [Array.getElem?_push, if_neg (by omega), Array.getElem?_append_left inside]
      gap := fun k _ _ => by
        rw [Array.getElem?_push, if_neg (by omega), Array.getElem?_append_right (by omega),
          Array.getElem?_replicate, if_pos (by omega)] }

/-- What was stored at the position of an index is read there.  The array may have grown, but an
index below zero only reaches positions that were there, so it still means the same one. -/
theorem IsStored.read {xs ys : Array Value} {p : Nat} {v : Value} (h : IsStored xs p v ys) {i : Int}
    (hp : position i xs.size = p) : elementAt ys i = v := by
  have same : position i ys.size = p := by
    have size := h.size
    unfold position at hp ⊢
    split at hp <;> omega
  rw [elementAt_of_position same, h.here, Option.getD_some]

/-- The elements of an array that is there are what they are changed to. -/
theorem Heap.elements_modifyElements {h : Heap} {id : ArrayId} (hid : id.index < h.arrays.size)
    (f : Array Value → Array Value) :
    (h.modifyElements id f).elements id = f (h.elements id) := by
  simp only [elements, array, modifyElements, Array.getElem?_modify, if_pos,
    Array.getElem?_eq_getElem hid, Option.map_some, Option.getD_some]

/-- Changing the elements of an array is giving it the changed ones. -/
theorem Heap.modifyElements_eq (h : Heap) (id : ArrayId) (f : Array Value → Array Value) :
    h.modifyElements id f = h.modifyElements id fun _ => f (h.elements id) := by
  unfold modifyElements elements array
  congr 1
  refine Array.ext_getElem? fun k => ?_
  simp only [Array.getElem?_modify]
  split
  · rename_i here
    subst here
    cases h.arrays[id.index]? <;> rfl
  · rfl

/-! ### Calls -/

theorem ArrayOp.run_get (invoke : Invoke) (id : ArrayId) (j : Int64) (m : Machine) :
    ArrayOp.run invoke .get (.arr id) [.int j] m =
      .done (elementAt (m.heap.elements id) j.toInt) m := rfl

theorem ArrayOp.run_set_of_ok {m : Machine} {id : ArrayId} {i : Int64} {p : Nat}
    (hp : storePosition m.host.memory i.toInt (m.heap.elements id).size = .ok p) (invoke : Invoke)
    (v : Value) :
    ArrayOp.run invoke .set (.arr id) [.int i, v] m = .done v
      { m with heap := m.heap.modifyElements id fun _ => place (m.heap.elements id) p v } := by
  rw [← Heap.modifyElements_eq m.heap id fun xs => place xs p v]
  show Action.bind
    (Run.ofExcept (storePosition m.host.memory i.toInt (m.heap.elements id).size)) _ m = _
  rw [hp]
  rfl

theorem ArrayOp.run_set_of_error {m : Machine} {id : ArrayId} {i : Int64} {cause : Fault}
    (hp : storePosition m.host.memory i.toInt (m.heap.elements id).size = .error cause)
    (invoke : Invoke) (v : Value) :
    ArrayOp.run invoke .set (.arr id) [.int i, v] m = .failed (.ofFault cause) m := by
  show Action.bind
    (Run.ofExcept (storePosition m.host.memory i.toInt (m.heap.elements id).size)) _ m = _
  rw [hp]
  rfl

/-- **Storing and then reading.**  On an array that is there, whatever the index and the host, a
store either fails for the index and leaves everything as it is, or changes the elements of the
array to those with the value in its place, answers the value, and has it read by the index next.
If memory is refused for impossible sizes only, then a store that fails lies before the beginning
or asks for such a size.  Reading changes nothing and never fails.  Positions are worked out on
words if the size of the array is one. -/
theorem store_then_read {m : Machine} {id : ArrayId} (live : (Value.arr id).Lives m)
    {impossible : Nat → Prop} (honest : m.host.memory.RefusesOnly impossible) (i : Int64)
    (v : Value) (fuel : Nat) (invoke : Invoke) :
    let xs := m.heap.elements id
    let store := (Native.array .set).run fuel invoke (.arr id) [.int i, v]
    let read (j : Int64) := (Native.array .get).run fuel invoke (.arr id) [.int j]
    (StoreRefused m.host.memory i.toInt xs.size →
      (i.toInt < -(xs.size : Int) ∨ xs.size ≤ i.toInt ∧ impossible (i.toInt.toNat + 1)) ∧
      ∃ cause, store m = .failed (.ofFault cause) m ∧ cause.kind = .index) ∧
    (¬ StoreRefused m.host.memory i.toInt xs.size → ∃ (p : Nat) (ys : Array Value),
      let m' := { m with heap := m.heap.modifyElements id fun _ => ys }
      p = (if i.toInt < 0 then i.toInt + xs.size else i.toInt) ∧ IsStored xs p v ys ∧
      store m = .done v m' ∧ m'.heap.elements id = ys ∧ read i m' = .done v m') ∧
    (∀ j : Int64, ∃ w, read j m = .done w m ∧ IsRead xs j.toInt w) ∧
    (Integer.Fits xs.size → ∀ j : Int64,
      (if j < 0 then j + Int64.ofNat xs.size else j).toInt = position j.toInt xs.size ∧
      position j.toInt xs.size + 1 ≤ 9223372036854775808) := by
  intro xs store read
  refine ⟨fun refused => ?_, fun accepted => ?_, fun j => ?_, fun size => position_fits size⟩
  · obtain ⟨cause, fails, kind⟩ := storePosition_of_refused refused
    exact ⟨refused.impossible honest, cause, ArrayOp.run_set_of_error fails invoke v, kind⟩
  · obtain ⟨p, stores, here⟩ := storePosition_of_not_refused accepted
    have elements := Heap.elements_modifyElements live fun _ => place xs p v
    have stored := isStored_place xs p v
    refine ⟨p, place xs p v, here.symm, stored, ArrayOp.run_set_of_ok stores invoke v, elements, ?_⟩
    refine (ArrayOp.run_get invoke id i _).trans ?_
    rw [elements, stored.read here]
  · exact ⟨_, ArrayOp.run_get invoke id j m, isRead_elementAt xs j.toInt⟩

/-- In an array with two elements, -1 is the last position, 4 leaves a gap, and -3 is refused.  On a
host that has room for eight elements, so is 9. -/
theorem store_then_read_gap :
    let host := { Host.standard with memory := .bounded 8 }
    let m := { Machine.bare (.collecting "") host with
      heap := { Heap.empty with arrays := #[⟨.array, #[.int 7, .int 8]⟩] } }
    let set (i : Int64) := (Native.array .set).run 0 (fun _ _ _ => Action.exhaust) (.arr ⟨0⟩)
      [.int i, .bool true] m
    (Value.arr ⟨0⟩).Lives m ∧
    m.host.memory.RefusesOnly (8 < ·) ∧
    (∃ ys, IsStored #[.int 7, .int 8] 1 (.bool true) ys ∧
      set (-1) = .done (.bool true) { m with heap := m.heap.modifyElements ⟨0⟩ fun _ => ys }) ∧
    (∃ ys, IsStored #[.int 7, .int 8] 4 (.bool true) ys ∧
      set 4 = .done (.bool true) { m with heap := m.heap.modifyElements ⟨0⟩ fun _ => ys }) ∧
    (∃ cause, set (-3) = .failed (.ofFault cause) m ∧ cause.kind = .index) ∧
    ∃ cause, set 9 = .failed (.ofFault cause) m ∧ cause.kind = .index := by
  intro host m set
  have live : (Value.arr ⟨0⟩).Lives m := Nat.zero_lt_one
  have honest : m.host.memory.RefusesOnly (8 < ·) := fun size refused =>
    Nat.lt_of_not_le (of_decide_eq_false refused)
  have stores (i : Int64) (k : Nat) (accepted : ¬ StoreRefused m.host.memory i.toInt 2)
      (here : (k : Int) = if i.toInt < 0 then i.toInt + 2 else i.toInt) :
      ∃ ys, IsStored #[.int 7, .int 8] k (.bool true) ys ∧
        set i = .done (.bool true) { m with heap := m.heap.modifyElements ⟨0⟩ fun _ => ys } := by
    obtain ⟨p, ys, hp, stored, done, -⟩ :=
      (store_then_read live honest i (.bool true) 0 fun _ _ _ => Action.exhaust).2.1 accepted
    obtain rfl : p = k := Int.ofNat.inj (hp.trans here.symm)
    exact ⟨ys, stored, done⟩
  have fails (i : Int64) (refused : StoreRefused m.host.memory i.toInt 2) :
      ∃ cause, set i = .failed (.ofFault cause) m ∧ cause.kind = .index :=
    ((store_then_read live honest i (.bool true) 0 fun _ _ _ => Action.exhaust).1 refused).2
  exact ⟨live, honest, stores (-1) 1 (by decide) (by decide), stores 4 4 (by decide) (by decide),
    fails (-3) (by decide), fails 9 (by decide)⟩

end MiniRuby
