import MiniRuby.Machine
import MiniRuby.Token.Lexer
import Mathlib.Data.List.Forall2

/-!
# Data

What a program can write down without any name of its own: the three constants, integers, symbols,
strings, and arrays of such data, nested as deeply as one likes.  A datum is the same on all
machines, while a value refers to the names and the heap of one of them (`Machine.Holds`).

* `Machine.Holds.unique`: a value holds one datum at most, so an array that holds a datum does not
  hold itself.
* `Machine.Holds.retain`: it holds this datum as long as its names and cells are kept.
-/

namespace MiniRuby

/-- Whether a symbol of a program text can have this name. -/
def Lexer.IsSymbolName (name : String) : Prop := ∃ rest, symbolName? rest = some name.toList

/-- Whether all control characters of a text are of the kind that is written by a letter or a
digit. -/
def Text.IsPlain (text : String) : Prop :=
  ∀ c ∈ text.toList, isControl c = true → c ∈ ['\n', '\t', '\r', '\x1b', '\x00']

-- Characters are finitely many, so without being told which way to decide this, all are tried.
instance (text : String) : Decidable (Text.IsPlain text) := List.decidableBAll _ _

/-- What can be written down. -/
inductive Datum where
  | nil
  | bool (b : Bool)
  | int (i : Int64)
  | sym (name : String) (h : Lexer.IsSymbolName name)
  | str (text : String) (h : Text.IsPlain text)
  | arr (elements : List Datum)

namespace Datum

/-- Induction on data: what holds of the elements of an array may be used for the array. -/
@[elab_as_elim, induction_eliminator]
theorem induct {motive : Datum → Prop} (nil : motive nil) (bool : ∀ b, motive (bool b))
    (int : ∀ i, motive (int i)) (sym : ∀ name h, motive (sym name h))
    (str : ∀ text h, motive (str text h))
    (arr : ∀ ds, (∀ d ∈ ds, motive d) → motive (arr ds)) : ∀ d, motive d
  | .nil => nil
  | .bool b => bool b
  | .int i => int i
  | .sym name h => sym name h
  | .str text h => str text h
  | .arr ds => arr ds fun d _ => induct nil bool int sym str arr d

/-- Whether a datum has at most so many levels, of which each array adds one. -/
def Within : Nat → Datum → Prop
  | 0, _ => False
  | n + 1, .arr ds => ∀ d ∈ ds, d.Within n
  | _ + 1, _ => True

theorem Within.mono {d : Datum} {n k : Nat} (h : d.Within n) (hk : n ≤ k) : d.Within k := by
  induction n generalizing d k with
  | zero => exact h.elim
  | succ n ih =>
      obtain ⟨k, rfl⟩ : ∃ k', k = k' + 1 := ⟨k - 1, by omega⟩
      cases d with
      | arr ds => exact fun d hd => ih (h d hd) (by omega)
      | nil | bool | int | sym | str => trivial

end Datum

/-! ### Pairs of lists -/

section Pairs

variable {α β : Type} {R : α → β → Prop} {as : List α} {bs cs : List β}

/-- What is known of each element of the right list may be used for the pairs. -/
theorem forall₂_and_right {p : β → Prop} (h : List.Forall₂ R as bs) (hp : ∀ b ∈ bs, p b) :
    List.Forall₂ (fun a b => R a b ∧ p b) as bs := by
  induction h with
  | nil => exact .nil
  | cons hr _ ih =>
      exact .cons ⟨hr, hp _ (.head _)⟩ (ih fun b hb => hp b (.tail _ hb))

theorem forall₂_right_unique (h : List.Forall₂ R as bs) (h' : List.Forall₂ R as cs)
    (hu : ∀ b ∈ bs, ∀ a c, R a b → R a c → b = c) : bs = cs := by
  induction h generalizing cs with
  | nil =>
      cases h'
      rfl
  | cons hr _ ih =>
      cases h' with
      | cons hr' ht =>
        rw [hu _ (.head _) _ _ hr hr', ih ht fun b hb => hu b (.tail _ hb)]

theorem exists_of_forall₂ (h : List.Forall₂ R as bs) {a : α} (ha : a ∈ as) :
    ∃ b ∈ bs, R a b := by
  induction h with
  | nil => cases ha
  | cons hr _ ih =>
      rcases List.mem_cons.mp ha with rfl | ha
      · exact ⟨_, .head _, hr⟩
      · obtain ⟨b, hb, h⟩ := ih ha
        exact ⟨b, .tail _ hb, h⟩

end Pairs

/-! ### Values that hold data -/

namespace Machine

variable {m m' : Machine} {v : Value} {d d' : Datum}

/-- Whether a value holds a datum: it is the datum itself, the name of a symbol says so, or the
cell of a string or an array does.  The class of a cell does not matter. -/
inductive Holds (m : Machine) : Value → Datum → Prop where
  | nil : m.Holds .nil .nil
  | bool (b : Bool) : m.Holds (.bool b) (.bool b)
  | int (i : Int64) : m.Holds (.int i) (.int i)
  | sym {id : NameId} {name : String} (hn : m.names.text id = name)
      (h : Lexer.IsSymbolName name) : m.Holds (.sym id) (.sym name h)
  | str {id : StringId} {cell : StringCell} {text : String}
      (hc : m.heap.strings[id.index]? = some cell) (ht : cell.text = text)
      (h : Text.IsPlain text) : m.Holds (.str id) (.str text h)
  | arr {id : ArrayId} {cell : ArrayCell} {ds : List Datum}
      (hc : m.heap.arrays[id.index]? = some cell)
      (hs : List.Forall₂ m.Holds cell.elements.toList ds) : m.Holds (.arr id) (.arr ds)

/-- A value holds one datum at most. -/
theorem Holds.unique (h : m.Holds v d) (h' : m.Holds v d') : d = d' := by
  induction d generalizing v d' with
  | nil | bool | int =>
      cases h
      cases h'
      rfl
  | sym name hn =>
      cases h with
      | sym hi =>
        cases h' with
        | sym hi' =>
          cases hi.symm.trans hi'
          rfl
  | str text hp =>
      cases h with
      | str hc ht =>
        cases h' with
        | str hc' ht' =>
          cases Option.some.inj (hc.symm.trans hc')
          cases ht.symm.trans ht'
          rfl
  | arr ds ih =>
      cases h with
      | arr hc hs =>
        cases h' with
        | arr hc' hs' =>
          cases Option.some.inj (hc.symm.trans hc')
          rw [forall₂_right_unique hs hs' fun d hd v d' h h' => ih d hd h h']

/-- So an array that holds a datum is not an element of itself. -/
theorem Holds.ne_of_mem {id : ArrayId} {ds : List Datum} (h : m.Holds (.arr id) (.arr ds))
    (hd : d ∈ ds) (hv : m.Holds v d) : v ≠ .arr id := by
  rintro rfl
  have := List.sizeOf_lt_of_mem hd
  rw [← h.unique hv, Datum.arr.sizeOf_spec] at this
  omega

/-- Whether the names and the cells of one machine are those of another one, which may have
further cells. -/
structure Retains (m m' : Machine) : Prop where
  names : m'.names = m.names
  strings : ∀ (i : Nat) (cell : StringCell), m.heap.strings[i]? = some cell →
    m'.heap.strings[i]? = some cell
  arrays : ∀ (i : Nat) (cell : ArrayCell), m.heap.arrays[i]? = some cell →
    m'.heap.arrays[i]? = some cell

theorem Retains.refl (m : Machine) : m.Retains m := ⟨rfl, fun _ _ h => h, fun _ _ h => h⟩

theorem Retains.trans {m'' : Machine} (h : m.Retains m') (h' : m'.Retains m'') : m.Retains m'' :=
  ⟨h'.names.trans h.names, fun i cell hc => h'.strings i cell (h.strings i cell hc),
    fun i cell hc => h'.arrays i cell (h.arrays i cell hc)⟩

/-- A value holds its datum as long as names and cells are kept. -/
theorem Holds.retain (h : m.Holds v d) (hm : m.Retains m') : m'.Holds v d := by
  induction d generalizing v with
  | nil | bool | int =>
      cases h
      constructor
  | sym name hn =>
      cases h with
      | sym hi => exact .sym (hm.names ▸ hi) hn
  | str text hp =>
      cases h with
      | str hc ht => exact .str (hm.strings _ _ hc) ht hp
  | arr ds ih =>
      cases h with
      | arr hc hs =>
        exact .arr (hm.arrays _ _ hc) ((forall₂_and_right hs ih).imp fun v d h => h.2 h.1)

end Machine

end MiniRuby
