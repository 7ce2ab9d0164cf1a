import MiniRuby.Proofs.Evaluator.Program
import MiniRuby.Proofs.Grammar.Built
import MiniRuby.Proofs.Typing.Evaluator

/-!
# Programs are ready

Every native method of the catalogue is entered in a class that is a home of it, under a name that
suits it (`Catalogue.entries_belong`), so the machine that programs start from is well kept,
whatever is asked of their code (`Machine.sound_boot`).  A program that has been read there is ready
to start if its code is in order (`ready_of_parse`), and then so is all that its run comes to.
-/

namespace MiniRuby

variable {ok : Node → Prop} {m : Machine}

namespace ClassTable

/-- The first classes have no methods before these are installed. -/
theorem first_methods : ∀ i < firstTable.classes.size,
    (firstTable.get ⟨i⟩).methods.entries.isEmpty ∧
      (firstTable.get ⟨i⟩).classMethods.entries.isEmpty := by
  decide +kernel

theorem first_names : ∀ e ∈ firstTable.names, e.2.index < firstTable.classes.size := by
  decide +kernel

theorem sound_first : firstTable.Sound ok where
  extends_first := .refl _
  later c hge hlt := absurd hlt (Nat.not_lt.mpr hge)
  known c hc := by
    have all : ∀ i < firstTable.classes.size,
        firstTable.find? (firstTable.name ⟨i⟩) = some ⟨i⟩ := by
      decide +kernel
    exact all c.index hc
  named x c hx := by
    obtain ⟨l₁, l₂, e, -⟩ := List.lookup_eq_some_iff.mp hx
    exact first_names (x, c) (e ▸ List.mem_append_right l₁ (.head l₂))
  methods c := by
    by_cases hc : c.index < firstTable.classes.size
    · have none := List.isEmpty_iff.mp (first_methods c.index hc).1
      intro e he
      rw [none] at he
      cases he
    · rw [get, Array.getElem?_eq_none (Nat.le_of_not_lt hc)]
      intro e he
      cases he
  classMethods c := by
    by_cases hc : c.index < firstTable.classes.size
    · have none := List.isEmpty_iff.mp (first_methods c.index hc).2
      intro e he
      rw [none] at he
      cases he
    · rw [get, Array.getElem?_eq_none (Nat.le_of_not_lt hc)]
      intro e he
      cases he
  keyed c := by
    by_cases hc : c.index < firstTable.classes.size
    · obtain ⟨noMethods, noClassMethods⟩ := first_methods c.index hc
      constructor <;> intro e he
      · rw [List.isEmpty_iff.mp noMethods] at he
        cases he
      · rw [List.isEmpty_iff.mp noClassMethods] at he
        cases he
    · rw [get, Array.getElem?_eq_none (Nat.le_of_not_lt hc)]
      constructor <;> intro e he <;> cases he

end ClassTable

/-- Whether a native method is entered in a home of it, under a name that suits it. -/
def NativeEntry.Belongs (e : NativeEntry) : Prop :=
  (e.op.home = [] ∨ e.owner ∈ e.op.home) ∧
    (e.name = "to_s" ∨ e.name = "method_missing" → e.op.Describes = true)

instance : DecidablePred NativeEntry.Belongs := fun _ => inferInstanceAs (Decidable (_ ∧ _))

/-- **The catalogue puts methods where they belong.** -/
theorem Catalogue.entries_belong : ∀ e ∈ Catalogue.entries, e.Belongs := by
  decide +kernel

/-- Interning answers a position that the interpreter looks texts up by only for their names. -/
theorem NameTable.eq_of_isTextual_intern {t : NameTable} (ht : NameTable.initial.Extends t)
    {name : String} (h : (t.intern name).1.IsTextual) :
    name = "to_s" ∨ name = "method_missing" := by
  have later := ht.trans (t.extends_intern name)
  have here := (t.text_intern name).2
  rcases h with h | h <;> rw [h] at here
  · exact .inl (here.symm.trans (later.text_eq .toS (by decide)))
  · exact .inr (here.symm.trans (later.text_eq .methodMissing (by decide)))

namespace Machine

theorem sound_bare (sink : Sink) (host : Host) : (bare sink host).Sound ok where
  classes := ClassTable.sound_first
  strings cell hc := absurd hc (Array.not_mem_empty cell)
  arrays cell hc := absurd hc (Array.not_mem_empty cell)
  objects cell hc := by
    have carries : ClassId.object.index < firstTable.classes.size ∧
        firstTable.payload .object = .ivars := by
      decide +kernel
    rcases Array.mem_push.mp hc with hc | rfl
    · exact absurd hc (Array.not_mem_empty cell)
    · exact ⟨carries, Bindings.forall_empty⟩
  bounds cell hc := absurd hc (Array.not_mem_empty cell)
  main := Nat.zero_lt_one
  frames b hb := by
    obtain rfl : b = .empty := by simpa [bare, FrameStore.initial] using hb
    exact Bindings.forall_empty
  constants := Bindings.forall_empty

theorem Sound.install (hm : m.Sound ok) (hn : NameTable.initial.Extends m.names) {e : NativeEntry}
    (he : e.Belongs) : (m.install e).Sound ok := by
  have belongs : (Method.native (m.names.intern e.name).1 e.arity e.op).BelongsIn ok e.owner :=
    ⟨he.1, fun h => he.2 (NameTable.eq_of_isTextual_intern hn h)⟩
  have hl := hm.leads_classes (m.classes.extends_addMethod e.owner _)
    (hm.classes.addMethod belongs)
  have named : Leads ok _ (m.install e) := hl.sound.leads_of_eq rfl rfl rfl rfl .rfl
  exact named.sound

theorem Sound.installAll {es : List NativeEntry} (hes : ∀ e ∈ es, e.Belongs) (hm : m.Sound ok)
    (hn : NameTable.initial.Extends m.names) : (es.foldl Machine.install m).Sound ok := by
  induction es generalizing m with
  | nil => exact hm
  | cons e es ih =>
      exact ih (fun e' he' => hes e' (.tail _ he')) (hm.install hn (hes e (.head _)))
        (hn.trans (m.names.extends_intern e.name))

/-- **The machine that every program starts from is well kept.** -/
theorem sound_boot (sink : Sink) (host : Host) : (boot sink host).Sound ok :=
  (sound_bare sink host).installAll Catalogue.entries_belong (.refl _)

theorem sink_installAll (es : List NativeEntry) (m : Machine) :
    (es.foldl Machine.install m).sink = m.sink := by
  induction es generalizing m with
  | nil => rfl
  | cons e es ih => exact ih (m.install e)

@[simp] theorem sink_boot (sink : Sink) (host : Host) : (boot sink host).sink = sink :=
  sink_installAll Catalogue.entries (bare sink host)

end Machine

theorem ready_start {node : Node} (hm : m.Sound ok) (hn : node.All ok) :
    (Moment.start node m).task.Ready ok (Moment.start node m).machine := by
  have hl : m.Leads ok (Moment.start node m).machine := hm.leads_of_eq rfl rfl rfl rfl .rfl
  exact ⟨hl.sound, hn, hl.sound.main⟩

/-- **A program that has been read on the first machine is ready to start**, and the output goes
where it went. -/
theorem ready_of_parse {path text : String} {sink : Sink} {host : Host} {node : Node}
    {m₀ : Machine} (hp : Session.parse path text (Machine.boot sink host) = .done node m₀)
    (hn : node.All ok) :
    (Moment.start node m₀).task.Ready ok (Moment.start node m₀).machine ∧
      (Moment.start node m₀).machine.sink = sink := by
  have hm : (Machine.boot sink host).Sound ok := Machine.sound_boot sink host
  have hs := Machine.sink_boot sink host
  -- Nothing else about the first machine matters, and it is better not unfolded.
  generalize Machine.boot sink host = m at hp hm hs
  obtain ⟨-, names, source?, rfl⟩ := wellAimed_of_parse hp
  have hl : m.Leads ok { m with names := names, source? := source? } :=
    hm.leads_of_eq rfl rfl rfl rfl .rfl
  exact ⟨ready_start hl.sound hn, hs⟩

end MiniRuby
