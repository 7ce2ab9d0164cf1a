import MiniRuby.Proofs.Typing.Boot

/-!
# Programs do not go wrong

Native methods trust that they are called on values that they are meant for, and an assignment
trusts that its target is one.  Both are right at every moment of every run of a program
(`Moment.Typed`), because the first machine is well kept, because the reader lets only targets
through, and because evaluation is safe.

* `dispatch_typed`: all moments that the run of a text comes to are typed, and the run does not end
  with a fault of the interpreter itself.
-/

namespace MiniRuby

/-! ### Typed moments -/

/-- The values that are kept somewhere in a machine. -/
inductive Machine.Stores (m : Machine) : Value → Prop where
  | localVar {b : Bindings Value} {e : NameId × Value} (hb : b ∈ m.frames.frames)
      (he : e ∈ b.entries) : Stores m e.2
  | constant {e : NameId × Value} (he : e ∈ m.constants.entries) : Stores m e.2
  | element {cell : ArrayCell} {v : Value} (hc : cell ∈ m.heap.arrays) (hv : v ∈ cell.elements) :
      Stores m v
  | ivar {cell : ObjectCell} {e : NameId × Value} (hc : cell ∈ m.heap.objects)
      (he : e ∈ cell.ivars.entries) : Stores m e.2
  | receiver {cell : BoundCell} (hc : cell ∈ m.heap.bounds) : Stores m cell.receiver

/-- The classes of all cells are of the kind that the cells ask for, and all values that are kept
refer to cells and classes that are there. -/
structure Machine.Typed (m : Machine) : Prop where
  strings : ∀ cell ∈ m.heap.strings, m.classes.payload cell.cls = .text
  arrays : ∀ cell ∈ m.heap.arrays, m.classes.payload cell.cls = .elements
  objects : ∀ cell ∈ m.heap.objects, m.classes.payload cell.cls = .ivars
  bounds : ∀ cell ∈ m.heap.bounds, cell.cls = .method
  stored : ∀ v, m.Stores v → v.Lives m

/-- The values that a task is given. -/
def Task.Mentions (v : Value) : Task → Prop
  | .eval _ env => v = env.self
  | .invoke _ receiver args => v = receiver ∨ v ∈ args

/-- The value that a signal carries. -/
def Signal.value? : Signal → Option Value
  | fault _ => none
  | raised v | returned v | broke v | skipped v => some v

/-- The value that a task ends with, be it that it fails. -/
def Outcome.value? : Outcome Machine Failure Value → Option Value
  | done v _ => some v
  | failed f _ => f.signal.value?
  | halted _ => none

/-- All is as it should be when a task begins and when it ends.  A native method gets a receiver
that it is meant for, an assignment a target that can be assigned to; what is raised is an
exception, and a fault is not one of the interpreter itself. -/
structure Moment.Typed (x : Moment) : Prop where
  machine : x.machine.Typed
  task : ∀ v, x.task.Mentions v → v.Lives x.machine
  native : ∀ name arity op receiver args,
    x.task = .invoke (.native name arity op) receiver args → op.Suits receiver
  target : ∀ place target value env,
    x.task = .eval (.assign place target value) env → target.Assignable
  state : x.outcome.state.Typed
  outcome : ∀ v, x.outcome.value? = some v → v.Lives x.outcome.state
  raised : ∀ e place? m', x.outcome = .failed ⟨.raised e, place?⟩ m' → e.IsException m'
  fault : ∀ cause place? m', x.outcome = .failed ⟨.fault cause, place?⟩ m' →
    cause.kind ≠ .internal

variable {ok : Node → Prop} {m : Machine}

theorem Machine.Sound.typed (hm : m.Sound ok) : m.Typed where
  strings cell hc := (hm.strings cell hc).2
  arrays cell hc := (hm.arrays cell hc).1.2
  objects cell hc := (hm.objects cell hc).1.2
  bounds cell hc := (hm.bounds cell hc).cls
  stored v hv := by
    cases hv with
    | localVar hb he => exact hm.frames _ hb _ he
    | constant he => exact hm.constants _ he
    | element hc hv => exact (hm.arrays _ hc).2 v hv
    | ivar hc he => exact (hm.objects _ hc).2 _ he
    | receiver hc => exact (hm.bounds _ hc).receiver

theorem Task.Ready.lives {task : Task} (h : task.Ready ok m) (v : Value) (hv : task.Mentions v) :
    v.Lives m := by
  cases task with
  | eval node env => exact hv ▸ h.2.2
  | invoke method receiver args =>
      rcases hv with rfl | hv
      · exact h.2.2.1
      · exact h.2.2.2 v hv

/-- The value that a failure carries lives. -/
theorem Failure.Safe.lives {f : Failure} (h : f.Safe m) (v : Value)
    (hv : f.signal.value? = some v) : v.Lives m := by
  obtain ⟨signal, place?⟩ := f
  cases signal with
  | fault cause => cases hv
  | raised e => cases hv; exact Value.IsException.lives h
  | returned w | broke w | skipped w => cases hv; exact h

/-- A moment is typed when its task is ready and no output is refused. -/
theorem Moment.typed_of_ready (aims : ∀ n, ok n → n.AimsWell) {x : Moment}
    (h : x.task.Ready ok x.machine) (hs : ¬ x.machine.sink.Refuses) : x.Typed := by
  have safe := perform_yields aims x.fuel h
  have sink : ¬ x.outcome.state.sink.Refuses := fun hr => hs (safe.leads.grows.refuses.mp hr)
  refine ⟨h.sound.typed, h.lives, fun name arity op receiver args e => ?_,
    fun place target value env e => ?_, safe.leads.sound.typed, fun v hv => ?_,
    fun e place? m' he => safe.failure _ m' he, fun cause place? m' he hk => ?_⟩
  · rw [e] at h
    exact h.2.1
  · rw [e] at h
    exact aims _ (Node.all_here h.2.1)
  · cases ho : x.outcome with
    | done w m' =>
        rw [ho] at hv
        cases hv
        exact safe.value v m' ho
    | failed f m' =>
        rw [ho] at hv
        exact (safe.failure f m' ho).lives v hv
    | halted m' =>
        rw [ho] at hv
        cases hv
  · have hm' : x.outcome.state = m' := by rw [he]; rfl
    exact sink (hm' ▸ safe.failure _ m' he hk)

/-! ### Programs -/

/-- **Dispatch is typed.**  Whatever text is run on the first machine, on any host, as long as its
output is accepted: all moments that the run comes to are typed, and the run does not end with a
fault of the interpreter itself. -/
theorem dispatch_typed (path text written : String) (host : Host) :
    (∀ x, Session.Reaches path text (Machine.boot (.collecting written) host) x → x.Typed) ∧
    ∀ cause place? m', Session.run path text (Machine.boot (.collecting written) host) =
      .failed (.failed ⟨.fault cause, place?⟩) m' → cause.kind ≠ .internal := by
  have typed : ∀ x, Session.Reaches path text (Machine.boot (.collecting written) host) x →
      x.Typed := by
    rintro x ⟨node, m₀, hp, hx⟩
    obtain ⟨ready, sink⟩ := ready_of_parse hp (wellAimed_of_parse hp).1
    obtain ⟨ready', leads⟩ := hx.ready (fun _ h => h) ready
    refine Moment.typed_of_ready (fun _ h => h) ready' fun hr => ?_
    have refuses := leads.grows.refuses.mp hr
    rw [sink] at refuses
    exact refuses
  refine ⟨typed, fun cause place? m' h => ?_⟩
  obtain ⟨node, m₀, hp⟩ := Session.parse_of_run_failed h
  have start := typed (Moment.start node m₀) ⟨node, m₀, hp, .refl⟩
  rw [Session.run_of_parse hp] at h
  cases ho : (Moment.start node m₀).outcome with
  | done v s =>
      rw [ho] at h
      cases h
  | halted s =>
      rw [ho] at h
      cases h
  | failed f s =>
      rw [ho] at h
      obtain ⟨signal, place?'⟩ := f
      -- A jump that comes to the end of the program is a fault of the program.
      cases signal with
      | fault cause' =>
          cases h
          exact start.fault cause place? m' ho
      | broke v | skipped v =>
          cases h
          exact nofun
      | raised e | returned v => cases h

/-- A class below a number: the fault is one of the program. -/
theorem dispatch_typed_classDef : ∃ x cause place? m',
    Session.Reaches "" "class X < 5\nend" (Machine.boot (.collecting "")) x ∧ x.Typed ∧
    Session.run "" "class X < 5\nend" (Machine.boot (.collecting "")) =
      .failed (.failed ⟨.fault cause, place?⟩) m' ∧ cause.kind ≠ .internal := by
  have fails : (Session.parse "" "class X < 5\nend" (Machine.boot (.collecting ""))).DoneWith
      fun node m₀ => (Moment.start node m₀).outcome.fault? = some (.parentNotAClass "Integer") := by
    decide +kernel
  obtain ⟨node, m₀, hp, hf⟩ := fails.exists_eq
  obtain ⟨place?, m', ends⟩ := Outcome.eq_failed_of_fault? hf
  have run : Session.run "" "class X < 5\nend" (Machine.boot (.collecting "")) =
      .failed (.failed ⟨.fault (.parentNotAClass "Integer"), place?⟩) m' := by
    rw [Session.run_of_parse hp, ends]
    rfl
  obtain ⟨typed, mild⟩ := dispatch_typed "" "class X < 5\nend" "" .standard
  have reached : Session.Reaches "" "class X < 5\nend" (Machine.boot (.collecting ""))
      (Moment.start node m₀) := ⟨node, m₀, hp, .refl⟩
  exact ⟨_, _, place?, m', reached, typed _ reached, run, mild _ place? m' run⟩

end MiniRuby
