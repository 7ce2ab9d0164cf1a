import Mathlib.Tactic.TFAE
import MiniRuby.Proofs.Boot
import MiniRuby.Proofs.Evaluator.Locals
import MiniRuby.Proofs.Lookup
import MiniRuby.Proofs.Registry
import MiniRuby.Proofs.Sending

/-!
# Reflection agrees with dispatch

Whether an instance of a class has a method of some name is asked in several ways: for the names of
all methods, for one name of the class or of the instance, for the method as an object, and by
sending the message.  The names are collected from all classes above, and each of the other ways
goes along these classes until one of them has the name, so all come to the same answer.  That the
method found is called what was asked for is not due to looking it up, but to how methods are put
into classes (`Bindings.Keyed`).

* `ClassOp.mem_methodNames`: the names that a row of classes has methods under.
* `ClassTable.isSome_findMethod?`: a method is found if one of the classes above has it.
* `reflection_agrees`: the ways to ask agree on all machines that programs lead to.
-/

namespace MiniRuby

/-! ### Names -/

theorem nodup_eraseDups {α : Type} [BEq α] [LawfulBEq α] : ∀ as : List α, as.eraseDups.Nodup
  | [] => List.nodup_nil
  | a :: as => by
      rw [List.eraseDups_cons]
      refine List.nodup_cons.mpr ⟨fun again => ?_, nodup_eraseDups _⟩
      simpa using (List.mem_filter.mp (List.mem_eraseDups.mp again)).2
termination_by as => as.length
decreasing_by exact Nat.lt_succ_of_le (List.length_filter_le _ _)

/-- **The names that some classes have methods under.** -/
theorem ClassOp.mem_methodNames {t : ClassTable} {cs : List ClassId} {x : NameId} :
    x ∈ ClassOp.methodNames t cs ↔ ∃ a ∈ cs, (t.own? a x).isSome = true := by
  simp only [methodNames, List.mem_eraseDups, List.mem_flatMap, ClassTable.methodNames,
    List.mem_mergeSort, Bindings.mem_names_iff]
  rfl

/-- **A method is found** if one of the classes above has it. -/
theorem ClassTable.isSome_findMethod? {t : ClassTable} {c : ClassId} {x : NameId} :
    (t.findMethod? c x).isSome = true ↔ ∃ a ∈ t.ancestors c, (t.own? a x).isSome = true := by
  rw [findMethod?, findIn_eq_findSome?, List.isSome_findSome?, List.any_eq_true]
  simp only [Option.isSome_map]
  rfl

/-! ### Ways to ask -/

/-- Whether an action answers an array of these symbols. -/
def Run.Lists (r : Run Value) (m : Machine) (names : List NameId) : Prop :=
  ∃ id m', r m = .done (.arr id) m' ∧ m'.heap.elements id = (names.map Value.sym).toArray

section Ways

variable {m m₁ : Machine} {v w : Value} {c : ClassId} {x : NameId} {I : Invoke}

theorem Run.lists_newArray (m : Machine) (names : List NameId) :
    Run.Lists (Run.newArray (names.map Value.sym).toArray) m names :=
  ⟨_, _, rfl, by simp [Heap.elements, Heap.array, Heap.newArray]⟩

/-- What a receiver that is no class has under a name is what its class gives to instances. -/
theorem Machine.findMethod?_of_classOf (hv : ∀ k, v ≠ .cls k) (hc : m.classOf v = .ok c) :
    m.findMethod? v x = .ok (m.classes.findMethod? c x) := by
  cases v with
  | cls k => exact absurd rfl (hv k)
  | _ => simp only [findMethod?, hc, bind, Except.bind]

theorem ClassOp.run_definesMethod (h : Run.expectName I w m = .done x m₁) :
    ClassOp.run I .definesMethod (.cls c) [w] m =
      .done (.bool (m.classes.findMethod? c x).isSome) m₁ := by
  refine (Action.bind_of_done h).trans ?_
  rw [← (Run.expectName_of_done h).2.1]
  rfl

theorem ObjectOp.run_respondTo (hv : ∀ k, v ≠ .cls k) (hc : m.classOf v = .ok c)
    (h : Run.expectName I w m = .done x m₁) :
    ObjectOp.run I .respondTo v [w] m = .done (.bool (m.classes.findMethod? c x).isSome) m₁ := by
  obtain ⟨-, classes, heap, -⟩ := Run.expectName_of_done h
  have hc₁ : m₁.classOf v = .ok c := by rwa [Machine.classOf, classes, heap]
  refine (Action.bind_of_done h).trans ?_
  have found := Run.findMethod_of_ok (Machine.findMethod?_of_classOf (x := x) hv hc₁)
  refine (Action.bind_of_done found).trans ?_
  rw [classes]
  rfl

/-- A method is taken as an object if there is one. -/
theorem Run.bindMethod_iff {found : Option (Method × ClassId)} (h : m.findMethod? v x = .ok found) :
    (∃ b m', Run.bindMethod v x m = .done b m') ↔ found.isSome = true := by
  unfold bindMethod
  rw [Action.bind_of_done (findMethod_of_ok h)]
  cases found with
  | some found => exact iff_of_true ⟨_, _, rfl⟩ rfl
  | none => exact iff_of_false (by rintro ⟨_, _, ⟨⟩⟩) Bool.false_ne_true

/-- A message is not taken for one that is missing, if there is a method: what is called then gets
the arguments as they are. -/
theorem Run.send_ne_sendMissing {method : Method} (h : ∀ J, Run.send J v x [] m = J method v [] m) :
    ∃ J, Run.send J v x [] m ≠ Run.sendMissing J v x [] m := by
  refine ⟨fun _ _ args => pure (.bool args.isEmpty), fun same => ?_⟩
  rw [h] at same
  have missing := same.symm
  obtain ⟨found, _, -, called⟩ := Action.bind_eq_done.mp missing
  cases found with
  | some _ => cases called
  | none => obtain ⟨_, _, -, ⟨⟩⟩ := Action.bind_eq_done.mp called

theorem Run.send_eq_sendMissing (h : m.findMethod? v x = .ok none) (args : List Value) :
    Run.send I v x args m = Run.sendMissing I v x args m :=
  Action.bind_of_done (findMethod_of_ok h)

/-- **Reflection agrees with dispatch.**  On a machine that programs lead to, a class lists the
names of the methods that it and the classes above it have, each once, and those of its own alone if
it is told so.  Every value that is no class has a class, and then it is the same whether this class
lists a name, whether it or the value says, given the name, that it has such a method, whether the
method can be taken as an object, and whether to send the message is to call a method of this name,
and not to do what is done when it is missing. -/
theorem reflection_agrees (h : m.Reachable) (hv : ∀ k, v ≠ .cls k) (fuel : Nat) (I : Invoke) :
    ∃ names own : ClassId → List NameId,
      (∀ k,
        Run.Lists ((Native.cls .methods).run fuel I (.cls k) []) m (names k) ∧ (names k).Nodup ∧
        Run.Lists ((Native.cls .methods).run fuel I (.cls k) [.bool false]) m (own k) ∧
        (own k).Nodup ∧ ∀ x, x ∈ own k ↔ (m.classes.own? k x).isSome = true) ∧
      ∃ c, m.classOf v = .ok c ∧ ∀ x, ∃ b : Bool,
        (∀ w m₁, Run.expectName I w m = .done x m₁ →
          (Native.cls .definesMethod).run fuel I (.cls c) [w] m = .done (.bool b) m₁ ∧
          (Native.object .respondTo).run fuel I v [w] m = .done (.bool b) m₁) ∧
        [x ∈ names c, b = true,
          ∃ bound m', Run.bindMethod v x m = .done bound m',
          ∃ method : Method, method.name = x ∧
            ∀ J args, Run.send J v x args m = J method v args m,
          ¬ ∀ J args, Run.send J v x args m = Run.sendMissing J v x args m].TFAE := by
  refine ⟨fun k => ClassOp.methodNames m.classes (m.classes.ancestors k),
    fun k => ClassOp.methodNames m.classes [k], fun k => ⟨Run.lists_newArray m _,
      nodup_eraseDups _, Run.lists_newArray m _, nodup_eraseDups _, fun x => ?_⟩, ?_⟩
  · simp only [ClassOp.mem_methodNames, List.mem_singleton, exists_eq_left]
  obtain ⟨c, hc, -⟩ := h.kept.classOf v
  refine ⟨c, hc, fun x => ⟨(m.classes.findMethod? c x).isSome, fun w m₁ asked =>
    ⟨ClassOp.run_definesMethod asked, ObjectOp.run_respondTo hv hc asked⟩, ?_⟩⟩
  have found := Machine.findMethod?_of_classOf (x := x) hv hc
  tfae_have 1 ↔ 2 := by rw [ClassOp.mem_methodNames, ClassTable.isSome_findMethod?]
  tfae_have 3 ↔ 2 := Run.bindMethod_iff found
  tfae_have 2 → 4 := by
    intro some
    obtain ⟨⟨method, owner⟩, here⟩ := Option.isSome_iff_exists.mp some
    have own := (ClassTable.findMethod?_eq_some.mp here).2
    exact ⟨method, (h.kept.sound.classes.keyed owner).1.name_eq own,
      fun J args => Run.send_of_found (found.trans (congrArg Except.ok here))⟩
  tfae_have 4 → 5 := by
    rintro ⟨method, -, calls⟩ missing
    obtain ⟨J, differ⟩ := Run.send_ne_sendMissing fun J => calls J []
    exact differ (missing J [])
  tfae_have 5 → 2 := by
    intro some
    by_contra none
    rw [Bool.not_eq_true, Option.isSome_eq_false_iff, Option.isNone_iff_eq_none] at none
    exact some fun J args => Run.send_eq_sendMissing (none ▸ found) args
  tfae_finish

end Ways

/-- Integers are set up as all values are, by a method that their class does not have itself. -/
theorem reflection_agrees_inherited :
    let m := Machine.boot (.collecting "")
    m.Reachable ∧ (∀ k, Value.int 7 ≠ .cls k) ∧ ∀ I : Invoke, ∃ names own,
      Run.Lists ((Native.cls .methods).run 0 I (.cls .integer) []) m names ∧ .setup ∈ names ∧
      Run.Lists ((Native.cls .methods).run 0 I (.cls .integer) [.bool false]) m own ∧
      .setup ∉ own ∧
      (Native.object .respondTo).run 0 I (.int 7) [.sym .setup] m = .done (.bool true) m := by
  intro m
  have reachable : m.Reachable := .settled (.boot (.collecting "") .standard)
  have other : ∀ k, Value.int 7 ≠ .cls k := nofun
  have inherited : ((m.classes.own? .integer .setup).isNone &&
      (m.classes.findMethod? .integer .setup).isSome) = true := by
    simp only [m, Machine.boot_eq]
    decide +kernel
  obtain ⟨absent, found⟩ := Bool.and_eq_true_iff.mp inherited
  refine ⟨reachable, other, fun I => ?_⟩
  obtain ⟨names, own, lists, c, hc, ways⟩ := reflection_agrees reachable other 0 I
  obtain ⟨b, asked, same⟩ := ways .setup
  obtain ⟨known, -⟩ := reachable.kept.sound.classOf_known (v := .int 7) rfl
  obtain rfl : .integer = c := Except.ok.inj (known.symm.trans hc)
  obtain rfl : b = true := (same.out 1 2).mpr
    ((Run.bindMethod_iff (Machine.findMethod?_of_classOf other hc)).mpr found)
  obtain ⟨all, -, alone, -, mem⟩ := lists .integer
  refine ⟨_, _, all, (same.out 0 1).mpr rfl, alone, fun here => ?_, (asked (.sym .setup) m rfl).2⟩
  rw [mem, Option.isNone_iff_eq_none.mp absent] at here
  exact Bool.false_ne_true here

end MiniRuby
