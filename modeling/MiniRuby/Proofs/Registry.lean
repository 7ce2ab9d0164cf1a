import MiniRuby.Proofs.Evolution
import MiniRuby.Proofs.Typing.Boot

/-!
# The classes of a running program

Whatever programs are run, one after the other, and however they end: the names of classes stand for
the classes that bear them, so that it makes no difference whether a class is told by its position,
by its name or by a value of it.

A machine is followed from the first one on by what programs do to it.  It stays well kept, which
says where classes stand (`Machine.Sound`), and its table grows from the first one, which says what
their names stand for (`ClassTable.Grows`).

* `ClassTable.Grows.named`: names and classes correspond one to one.
* `Machine.Reachable.kept`: all machines that programs lead to are well kept and have grown.
* `classes_registered`: what is known of the classes of such a machine.
-/

namespace MiniRuby

/-! ### Names and classes -/

namespace ClassTable

/-- Names and classes correspond one to one: a name stands for the class that bears it. -/
def Named (t : ClassTable) : Prop :=
  ∀ name c, t.find? name = some c ↔ c.index < t.classes.size ∧ t.name c = name

theorem named_first : firstTable.Named := by
  have known : ∀ i < firstTable.classes.size,
      firstTable.find? (firstTable.name ⟨i⟩) = some ⟨i⟩ := by
    decide +kernel
  have bears : ∀ e ∈ firstTable.names, e.2.index < firstTable.classes.size ∧
      firstTable.name e.2 = e.1 := by
    decide +kernel
  intro name c
  constructor
  · intro h
    obtain ⟨l₁, l₂, e, -⟩ := List.lookup_eq_some_iff.mp h
    exact bears (name, c) (e ▸ List.mem_append_right l₁ (.head l₂))
  · rintro ⟨hc, rfl⟩
    exact known c.index hc

/-- Methods do not matter to names. -/
theorem Named.modify {t : ClassTable} (h : t.Named) (k : ClassId) {f : ClassInfo → ClassInfo}
    (hf : ∀ i, SameButMethods i (f i)) : (t.modify k f).Named := by
  intro name c
  have kept : (t.modify k f).name c = t.name c := (t.sameButMethods_modify k c hf).name
  rw [kept, size_modify]
  exact h name c

/-- A new class gets a name that no class has. -/
theorem Named.register {t : ClassTable} (h : t.Named) {known : String}
    (fresh : t.find? known = none) (parent? : Option ClassId) (payload? : Option Payload) :
    (t.register known known parent? payload?).2.Named := by
  intro name c
  rw [find?_register, size_register]
  by_cases hc : c = ⟨t.classes.size⟩
  · subst hc
    have here : (t.register known known parent? payload?).2.name ⟨t.classes.size⟩ = known := by
      rw [ClassTable.name, get_register_new]
    rw [here]
    by_cases hn : name = known
    · simp [hn]
    · have other : t.find? name ≠ some ⟨t.classes.size⟩ := fun hf =>
        Nat.lt_irrefl _ ((h name _).mp hf).1
      simp [hn, other, Ne.symm hn]
  · have kept : (t.register known known parent? payload?).2.name c = t.name c := by
      rw [ClassTable.name, ClassTable.name, get_register t known known parent? payload? hc]
    have size : c.index < t.classes.size + 1 ↔ c.index < t.classes.size :=
      ⟨fun hlt => Nat.lt_of_le_of_ne (Nat.le_of_lt_succ hlt) fun e => hc (congrArg ClassId.mk e),
        Nat.lt_succ_of_lt⟩
    rw [kept, size, ← h name c]
    by_cases hn : name = known
    · simp [hn, fresh, Ne.symm hc]
    · simp [hn]

/-- **Names and classes go on corresponding one to one.** -/
theorem Grows.named {t t' : ClassTable} (h : t.Grows t') (ht : t.Named) : t'.Named := by
  induction h with
  | refl => exact ht
  | @edit t' _ e he ih =>
      cases e with
      | register known name parent? payload? =>
          obtain ⟨fresh, rfl, -, -⟩ := he
          exact ih.register fresh parent? payload?
      | addMethod k method | addClassMethod k method | removeMethod k x =>
          exact ih.modify k fun _ => ⟨rfl, rfl, rfl⟩

/-! ### Where classes stand -/

namespace Sound

variable {ok : Node → Prop} {t : ClassTable} {c : ClassId}

/-- The class directly above one of the first classes comes before it. -/
theorem first_parent : ∀ i < firstTable.classes.size, i ≠ 0 →
    ∃ p ∈ firstTable.parent? ⟨i⟩, p.index < i ∧
      (firstTable.get ⟨i⟩).above = firstTable.ancestors p := by
  decide +kernel

/-- **Each class but the topmost one is below a class that comes before it.** -/
theorem exists_parent (h : t.Sound ok) (hc : c.index < t.classes.size) (hne : c ≠ .basicObject) :
    ∃ p, t.parent? c = some p ∧ p.index < c.index ∧ t.ancestors c = c :: t.ancestors p := by
  -- The link of a class is told by the classes above it.
  suffices above : ∃ p : ClassId, p.index < c.index ∧ (t.get c).above = t.ancestors p by
    obtain ⟨p, hp, above⟩ := above
    refine ⟨p, ?_, hp, ?_⟩
    · rw [parent?, above]
      rfl
    · rw [ancestors, above]
  by_cases hf : c.index < firstTable.classes.size
  · have hi : c.index ≠ 0 := fun e => hne (congrArg ClassId.mk e)
    obtain ⟨p, -, hp, above⟩ := first_parent c.index hf hi
    refine ⟨p, hp, ?_⟩
    rw [h.extends_first.above_eq c hf, h.extends_first.ancestors_eq (Nat.lt_trans hp hf)]
    exact above
  · exact (h.later c (Nat.le_of_not_lt hf) hc).2

theorem first_getLast? : ∀ i < firstTable.classes.size,
    (firstTable.ancestors ⟨i⟩).getLast? = some .basicObject := by
  decide +kernel

/-- **The topmost class is above all classes.** -/
theorem getLast?_ancestors (h : t.Sound ok) (hc : c.index < t.classes.size) :
    (t.ancestors c).getLast? = some .basicObject := by
  refine h.induction (motive := fun c => (t.ancestors c).getLast? = some .basicObject) ?_ ?_ c hc
  · intro c hc
    rw [h.extends_first.ancestors_eq hc]
    exact first_getLast? c.index hc
  · intro c p _ _ _ above _ ih
    rw [ancestors, above, List.getLast?_cons, ih]
    rfl

end Sound

end ClassTable

/-! ### The machines that programs lead to -/

/-- A machine on which programs have been run, one after the other, however they ended. -/
inductive Machine.Settled : Machine → Prop where
  | boot (sink : Sink) (host : Host) : Settled (.boot sink host)
  | run {m : Machine} (h : Settled m) (path text : String) : Settled (Session.run path text m).state

/-- A machine that programs lead to: between them, or where a task of one begins or ends. -/
inductive Machine.Reachable : Machine → Prop where
  | settled {m : Machine} (h : m.Settled) : Reachable m
  | begins {m : Machine} (h : m.Settled) {path text : String} {x : Moment}
      (hx : Session.Reaches path text m x) : Reachable x.machine
  | ends {m : Machine} (h : m.Settled) {path text : String} {x : Moment}
      (hx : Session.Reaches path text m x) : Reachable x.outcome.state

namespace Machine

/-- A machine is well kept, and its table of classes has grown from the first one. -/
structure Kept (m : Machine) : Prop where
  sound : m.Sound Node.AimsWell
  grown : firstTable.Grows m.classes

variable {m : Machine}

theorem kept_boot (sink : Sink) (host : Host) : (boot sink host).Kept :=
  ⟨sound_boot sink host, (evolves_boot sink host).classes⟩

theorem Kept.of_eq {m' : Machine} (h : m.Kept) (classes : m'.classes = m.classes)
    (heap : m'.heap = m.heap) (frames : m'.frames = m.frames)
    (constants : m'.constants = m.constants) (sink : m'.sink = m.sink) : m'.Kept :=
  ⟨(h.sound.leads_of_eq classes heap frames constants (by rw [sink])).sound, classes ▸ h.grown⟩

variable {path text : String} {x : Moment}

theorem Kept.parse (h : m.Kept) (path text : String) : (Session.parse path text m).state.Kept := by
  obtain ⟨names, same⟩ := Session.state_parse path text m
  rw [same]
  exact h.of_eq rfl rfl rfl rfl rfl

/-- Where a task of a program begins, the machine is kept, and the task is ready. -/
theorem Kept.begins (h : m.Kept) (hx : Session.Reaches path text m x) :
    x.task.Ready Node.AimsWell x.machine ∧ x.machine.Kept := by
  obtain ⟨node, m₀, hp, reaches⟩ := hx
  have read := h.parse path text
  rw [hp] at read
  obtain ⟨ready, -⟩ :=
    reaches.ready (fun _ h => h) (ready_start read.sound (wellAimed_of_parse hp).1)
  exact ⟨ready, ready.sound, read.grown.trans reaches.evolves.classes⟩

theorem Kept.ends (h : m.Kept) (hx : Session.Reaches path text m x) : x.outcome.state.Kept := by
  obtain ⟨ready, kept⟩ := h.begins hx
  exact ⟨(perform_yields (fun _ h => h) x.fuel ready).leads.sound,
    kept.grown.trans (perform_evolves x.fuel x.task x.machine).classes⟩

theorem Kept.run (h : m.Kept) (path text : String) : (Session.run path text m).state.Kept := by
  have read := h.parse path text
  cases hp : Session.parse path text m with
  | done node m₀ =>
      rw [Session.state_run_of_parse hp]
      exact h.ends ⟨node, m₀, hp, .refl⟩
  | failed e m₀ | halted m₀ =>
      rw [hp] at read
      rw [Session.run, Action.bind_eq_andThen, hp]
      exact read

theorem Settled.kept (h : m.Settled) : m.Kept := by
  induction h with
  | boot sink host => exact kept_boot sink host
  | run _ path text ih => exact ih.run path text

/-- **All machines that programs lead to are kept.** -/
theorem Reachable.kept (h : m.Reachable) : m.Kept := by
  cases h with
  | settled h => exact h.kept
  | begins h hx => exact (h.kept.begins hx).2
  | ends h hx => exact h.kept.ends hx

end Machine

/-! ### The classes of values -/

/-- The classes that the interpreter itself refers to, and their names. -/
def builtinClasses : List (String × ClassId) :=
  [("BasicObject", .basicObject), ("Object", .object), ("Class", .classes), ("NilClass", .nilClass),
    ("TrueClass", .trueClass), ("FalseClass", .falseClass), ("Integer", .integer),
    ("Float", .float), ("String", .string), ("Symbol", .symbol), ("Array", .array),
    ("Method", .method), ("Exception", .exception), ("StandardError", .standardError)]

variable {m : Machine}

theorem ClassTable.Sound.find?_builtin {ok : Node → Prop} {t : ClassTable} (h : t.Sound ok) :
    ∀ e ∈ builtinClasses, t.find? e.1 = some e.2 := by
  have first : ∀ e ∈ builtinClasses, e.2.index < firstTable.classes.size ∧
      firstTable.name e.2 = e.1 := by
    decide +kernel
  intro e he
  obtain ⟨hc, name⟩ := first e he
  exact name ▸ h.known e.2 hc

/-- The class of a value is there, and is called what values of this kind are said to be. -/
theorem Machine.Kept.classOf (h : m.Kept) (v : Value) : ∃ c, m.classOf v = .ok c ∧
    m.classes.name c = m.className v ∧ (v.Lives m → c.index < m.classes.classes.size) := by
  have named := h.grown.named ClassTable.named_first
  cases hh : m.heap.home v with
  | known name =>
      obtain ⟨found, -⟩ := h.sound.classOf_known hh
      refine ⟨v.sort, found, ?_, fun hv => h.sound.classOf_lt hv found⟩
      have stands : m.classes.find? name = some v.sort := by
        simp only [Machine.classOf, ClassTable.classOf, hh] at found
        split at found
        · rename_i c hc
          cases found
          exact hc
        · cases found
      rw [((named name v.sort).mp stands).2, Machine.className, ClassTable.nameOf, hh]
  | cell c =>
      have found := Machine.Sound.classOf_cell hh
      refine ⟨c, found, ?_, fun hv => h.sound.classOf_lt hv found⟩
      rw [Machine.className, ClassTable.nameOf, hh]

/-- **The classes of a running program.**  Whatever programs have been run: names and classes
correspond one to one, the classes that the interpreter refers to are those that their names stand
for, each class but the topmost one is below a class that comes before it, and the topmost one is
above all of them.  So every value has a class, which is called what values of this kind are said to
be. -/
theorem classes_registered (h : m.Reachable) :
    m.classes.Named ∧
    (∀ e ∈ builtinClasses, m.classes.find? e.1 = some e.2) ∧
    (∀ c, c.index < m.classes.classes.size →
      (c ≠ .basicObject → ∃ p, m.classes.parent? c = some p ∧ p.index < c.index ∧
        m.classes.ancestors c = c :: m.classes.ancestors p) ∧
      (m.classes.ancestors c).getLast? = some .basicObject) ∧
    ∀ v, ∃ c, m.classOf v = .ok c ∧ m.classes.name c = m.className v ∧
      (v.Lives m → c.index < m.classes.classes.size) := by
  have kept := h.kept
  have sound := kept.sound.classes
  have named := kept.grown.named ClassTable.named_first
  refine ⟨named, sound.find?_builtin, fun c hc => ?_, kept.classOf⟩
  exact ⟨sound.exists_parent hc, sound.getLast?_ancestors hc⟩

/-- After a program that defines a class and one that fails to do so, `nil` still has its class. -/
theorem classes_registered_nil : ∃ m : Machine,
    m = (Session.run "" "class A < 5\nend"
      (Session.run "" "class A\nend" (.boot (.collecting ""))).state).state ∧
    m.Reachable ∧ m.classes.Named ∧
    ("StandardError", ClassId.standardError) ∈ builtinClasses ∧
    m.classes.find? "StandardError" = some .standardError ∧
    ∃ c, m.classOf .nil = .ok c ∧ m.classes.name c = "NilClass" := by
  have reachable := Machine.Reachable.settled
    (((Machine.Settled.boot (.collecting "") .standard).run "" "class A\nend").run ""
      "class A < 5\nend")
  obtain ⟨named, builtin, -, classOf⟩ := classes_registered reachable
  have mem : ("StandardError", ClassId.standardError) ∈ builtinClasses := by decide
  obtain ⟨c, found, name, -⟩ := classOf .nil
  exact ⟨_, rfl, reachable, named, mem, builtin _ mem, c, found, name⟩

end MiniRuby
