import Mathlib.Data.List.Induction
import MiniRuby.Boot
import MiniRuby.Proofs.Growth

/-!
# The names of the first machine

Names enter a table one after the other, as the native methods are installed, and a method is
entered under the position that its name has by then.  That position is the one that the name has
in the end.  So the first machine can be told without its history: its names are those that the
interpreter refers to and those of the catalogue, each where it comes first (`Catalogue.names`),
and each method is entered under the place of its name among them.

* `NameTable.internAll_empty`: the names of a table are those that were looked up, each once.
* `Machine.foldl_install`: installing methods enters each under the position that its name has in
  the end.
* `Machine.boot_eq`: the first machine, without its history.
-/

namespace MiniRuby

namespace NameTable

theorem internAll_append (t : NameTable) (names later : List String) :
    t.internAll (names ++ later) = (t.internAll names).internAll later :=
  List.foldl_append

/-- **The names that were looked up**, each once, where it was looked up first. -/
theorem internAll_empty (names : List String) :
    internAll ⟨#[]⟩ names = ⟨names.eraseDups.toArray⟩ := by
  induction names using List.reverseRecOn with
  | nil => rfl
  | append_singleton names name ih =>
      have known : (find? ⟨names.eraseDups.toArray⟩ name).isSome ↔ name ∈ names := by
        rw [← List.mem_eraseDups]
        simp [find?]
      rw [internAll_append, ih, List.eraseDups_append]
      change (NameTable.intern ⟨names.eraseDups.toArray⟩ name).2 = _
      cases found : find? ⟨names.eraseDups.toArray⟩ name with
      | some id =>
          have old : name ∈ names := known.mp (by rw [found]; rfl)
          simp [intern_of_find? found, List.removeAll, old]
      | none =>
          have new : name ∉ names := fun old => by simpa [found] using known.mpr old
          simp [intern_of_find?_eq_none found, List.removeAll, new, List.eraseDups_cons]

/-- A name is found where it comes first. -/
theorem find?_of_mem {names : List String} {name : String} (h : name ∈ names) :
    find? ⟨names.toArray⟩ name = some ⟨names.idxOf name⟩ := by
  have found : names.idxOf? name = some (names.idxOf name) :=
    List.findIdx?_eq_some_of_exists ⟨name, h, beq_self_eq_true name⟩
  rw [find?, List.idxOf?_toArray, found]
  rfl

end NameTable

/-- The names of the first machine, in the order of their positions. -/
def Catalogue.names : List String :=
  (NameTable.predefined.toList ++ entries.map NativeEntry.name).eraseDups

namespace Machine

/-- **Installing methods** enters each under the position that its name has in the end. -/
theorem foldl_install (position : String → NameId) (es : List NativeEntry) (m : Machine)
    (stands : ∀ e ∈ es, (m.names.internAll (es.map NativeEntry.name)).find? e.name =
      some (position e.name)) :
    es.foldl install m = { m with
      names := m.names.internAll (es.map NativeEntry.name)
      classes := es.foldl
        (fun t e => t.addMethod e.owner (.native (position e.name) e.arity e.op)) m.classes } := by
  induction es generalizing m with
  | nil => rfl
  | cons e es ih =>
      have here : (m.names.intern e.name).1 = position e.name := by
        have later := (NameTable.grows_internAll (m.names.intern e.name).2
          (es.map NativeEntry.name)).find?_eq (NameTable.find?_intern_self m.names e.name)
        exact Option.some.inj (later.symm.trans (stands e (.head es)))
      rw [List.foldl_cons, ih (m.install e) fun e' he => stands e' (.tail e he)]
      simp [install, here, NameTable.internAll]

/-- **The first machine**, without its history. -/
theorem boot_eq (sink : Sink) (host : Host) : boot sink host = { bare sink host with
    names := ⟨Catalogue.names.toArray⟩
    classes := Catalogue.entries.foldl (fun t e => t.addMethod e.owner
      (.native ⟨Catalogue.names.idxOf e.name⟩ e.arity e.op)) (bare sink host).classes } := by
  have names : (bare sink host).names.internAll (Catalogue.entries.map NativeEntry.name) =
      ⟨Catalogue.names.toArray⟩ := by
    change NameTable.initial.internAll _ = _
    rw [Catalogue.names, ← NameTable.internAll_empty, NameTable.internAll_append,
      ← NameTable.initial_eq]
  rw [boot, foldl_install fun name => ⟨Catalogue.names.idxOf name⟩, names]
  intro e he
  have known : e.name ∈ Catalogue.names :=
    List.mem_eraseDups.mpr (List.mem_append_right _ (List.mem_map_of_mem he))
  rw [names, NameTable.find?_of_mem known]

end Machine

end MiniRuby
