import MiniRuby.Name

/-!
# Bindings

A finite map from names to things: local variables, instance variables, constants, and the
methods of a class.  Binding a name anew replaces what it was bound to.
-/

namespace MiniRuby

/-- Names with what they are bound to.  Each name occurs once. -/
structure Bindings (α : Type) where
  entries : List (NameId × α)
  distinct : (entries.map (·.1)).Nodup

namespace Bindings

variable {α : Type}

def empty : Bindings α := ⟨[], List.nodup_nil⟩

instance : Inhabited (Bindings α) := ⟨empty⟩

/-- The first thing that a list of entries binds a name to. -/
def find (name : NameId) : List (NameId × α) → Option α
  | [] => none
  | e :: es => if e.1 = name then some e.2 else find name es

/-- What a name is bound to. -/
def get? (b : Bindings α) (name : NameId) : Option α := find name b.entries

/-- Replace the entry of a name, or add one at the end. -/
def insertEntry (name : NameId) (a : α) : List (NameId × α) → List (NameId × α)
  | [] => [(name, a)]
  | e :: es => if e.1 = name then (name, a) :: es else e :: insertEntry name a es

/-- The names after an entry was set: its own, and those that were there. -/
theorem mem_keys_insertEntry {name x : NameId} {a : α} {es : List (NameId × α)} :
    x ∈ (insertEntry name a es).map (·.1) ↔ name = x ∨ x ∈ es.map (·.1) := by
  induction es with
  | nil => simp [insertEntry, eq_comm]
  | cons e es ih =>
    rw [insertEntry]
    split
    · rename_i here
      simp [here, eq_comm]
    · rw [List.map_cons, List.mem_cons, ih, List.map_cons, List.mem_cons, or_left_comm]

/-- Setting an entry does not make a name occur twice. -/
theorem nodup_keys_insertEntry (name : NameId) (a : α) {es : List (NameId × α)}
    (h : (es.map (·.1)).Nodup) : ((insertEntry name a es).map (·.1)).Nodup := by
  induction es with
  | nil => simp [insertEntry]
  | cons e es ih =>
    rw [List.map_cons, List.nodup_cons] at h
    rw [insertEntry]
    split
    · rename_i here
      exact List.nodup_cons.mpr (here ▸ h)
    · rename_i other
      refine List.nodup_cons.mpr ⟨fun mem => ?_, ih h.2⟩
      rcases mem_keys_insertEntry.mp mem with here | mem
      · exact other here.symm
      · exact h.1 mem

/-- Bind a name. -/
def insert (b : Bindings α) (name : NameId) (a : α) : Bindings α :=
  ⟨insertEntry name a b.entries, nodup_keys_insertEntry name a b.distinct⟩

/-- Forget a name. -/
def erase (b : Bindings α) (name : NameId) : Bindings α :=
  ⟨b.entries.filter (·.1 ≠ name), b.distinct.sublist (List.filter_sublist.map _)⟩

/-- The bound names, in the order in which they were first bound. -/
def names (b : Bindings α) : List NameId := b.entries.map (·.1)

theorem nodup_names (b : Bindings α) : b.names.Nodup := b.distinct

theorem mem_names_insert {b : Bindings α} {name x : NameId} {a : α} :
    x ∈ (b.insert name a).names ↔ name = x ∨ x ∈ b.names := mem_keys_insertEntry

theorem find_insertEntry (name x : NameId) (a : α) (es : List (NameId × α)) :
    find x (insertEntry name a es) = if name = x then some a else find x es := by
  induction es with
  | nil => rfl
  | cons e es ih =>
    by_cases he : e.1 = name
    · by_cases hx : name = x <;> simp [insertEntry, find, he, hx]
    · by_cases hx : e.1 = x
      · have hn : name ≠ x := fun h => he (hx.trans h.symm)
        rw [insertEntry, if_neg he, find, if_pos hx, if_neg hn, find, if_pos hx]
      · simp [insertEntry, find, he, hx, ih]

/-- Binding a name answers for that name and for no other. -/
theorem get?_insert (b : Bindings α) (name x : NameId) (a : α) :
    (b.insert name a).get? x = if name = x then some a else b.get? x :=
  find_insertEntry name x a b.entries

@[simp] theorem get?_insert_self (b : Bindings α) (name : NameId) (a : α) :
    (b.insert name a).get? name = some a := by
  simp [get?_insert]

theorem get?_insert_of_ne (b : Bindings α) {name x : NameId} (a : α) (h : name ≠ x) :
    (b.insert name a).get? x = b.get? x := by
  simp [get?_insert, h]

@[simp] theorem get?_empty (x : NameId) : (empty : Bindings α).get? x = none := rfl

end Bindings

end MiniRuby
