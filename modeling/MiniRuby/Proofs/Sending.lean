import MiniRuby.Proofs.Depth
import MiniRuby.Proofs.Evaluator.Program
import MiniRuby.Proofs.Typing.Machine

/-!
# Ways to send a message

A method of a receiver can be called in three ways: the receiver is sent a message, its native
method `send` is called with the name, or the method is taken as an object and that object is
called.  The last two are calls themselves, so that the method runs with one more call open than in
the first way.  But only a call that is refused because too many are open looks at that number.  So
what is done without such a refusal (`Moment.Unrefused`) is done with fewer open calls just as well,
and leaves the same machine, apart from the number.

* `Script.deeper`: a script does not look at the number of open calls, if the tasks that it asks for
  do not.
* `perform_deeper`: nor does a task, if no call is refused.
* `Moment.unrefused_of_fuel`: no call is refused where there is less fuel than calls may be opened.
* `ways_to_send_agree`: the three ways end in the same way.
-/

namespace MiniRuby

/-! ### The number of open calls -/

/-- Whether two actions have ended in the same way, or have both run out of fuel. -/
def Outcome.EndsAs {σ ε α : Type} (o o' : Outcome σ ε α) : Prop :=
  o = o' ∨ (¬ o.Ended ∧ ¬ o'.Ended)

theorem Outcome.EndsAs.eq_of_ended {σ ε α : Type} {o o' : Outcome σ ε α} (h : o.EndsAs o')
    (h' : o'.Ended) : o = o' :=
  h.resolve_right fun none => none.2 h'

theorem Machine.enter_deeper (m : Machine) (k : Nat) :
    { m.deeper k with depth := (m.deeper k).depth + 1 } =
      { m with depth := m.depth + 1 }.deeper k := by
  simp only [deeper, Nat.add_right_comm]

/-- When a call is left, its outcome is the same with more calls open. -/
theorem Outcome.leave_deeper {ε α : Type} {o : Outcome Machine ε α} {d : Nat} (k : Nat)
    (h : o.Balances (d + 1)) : (o.deeper k).leave = o.leave.deeper k := by
  have left : ∀ s : Machine, s.depth = d + 1 → (s.deeper k).left = s.left.deeper k := by
    intro s hs
    simp only [Machine.deeper, Machine.left, hs]
    congr 1
    omega
  cases o with
  | done a s => exact congrArg (Outcome.done a) (left s h)
  | failed e s => exact congrArg (Outcome.failed e) (left s h)
  | halted s => rfl

/-- What has ended with one more call open ends as usual when that call is left. -/
theorem Outcome.leave_endsAs {ε α : Type} (o : Outcome Machine ε α) :
    (o.deeper 1).leave.EndsAs o := by
  cases o with
  | done a s | failed e s => exact .inl rfl
  | halted s => exact .inr ⟨id, id⟩

section Script

variable {strict endless : Prop} {frame? : Option FrameId} {α : Type} {F : Perform → Run α}
  {P : Perform} {m : Machine}

/-- **A script does not look at the number of open calls**, if the tasks that it asks for do not
and it counts no call by itself. -/
theorem Script.deeper (hF : Script strict endless frame? F) (hf : frame? ≠ none) (k : Nat)
    (h : ∀ task s, AsksFor F P (m.deeper k) task (s.deeper k) →
      P task (s.deeper k) = (P task s).deeper k) :
    F P (m.deeper k) = (F P m).deeper k := by
  induction hF generalizing m with
  | own he hd hb hk hm => exact hb.resolve_left hf k m
  | ask task h' => exact h task m (Plan.asks_ask_iff.mpr ⟨rfl, rfl⟩)
  | @bind frame? α β F G hF hG ihF ihG =>
      have first := ihF hf fun task s ha => h task s ((Plan.asks_bind_iff hF.plan).mpr (.inl ha))
      change (F P (m.deeper k)).andThen (fun a => G a P) = ((F P m).andThen fun a => G a P).deeper k
      cases hx : F P m with
      | done a s =>
          rw [hx] at first
          rw [first]
          exact ihG a hf fun task s' ha =>
            h task s' ((Plan.asks_bind_iff hF.plan).mpr (.inr ⟨a, s.deeper k, first, ha⟩))
      | failed f s | halted s => rw [first, hx]; rfl
  | @inside frame? α G scope hG ihG =>
      refine @ihG _ { m with frames := (m.frames.child scope).2 } nofun fun task s ha => h task s ?_
      exact (Plan.asks_bind_iff (@Plan.own (fun _ => True) _ _)).mpr (.inr ⟨_, _, rfl, ha⟩)
  | @located frame? α F place hF ih =>
      have first := ih hf fun task s ha => h task s (Plan.asks_located_iff.mpr ha)
      change (F P (m.deeper k)).mapError (Failure.locate place) = _
      rw [first]
      change _ = ((F P m).mapError (Failure.locate place)).deeper k
      cases F P m <;> rfl
  | nested hF ih => exact (hf rfl).elim
  | @catching frame? α β F G hF hG pass ihF ihG =>
      have first := ihF hf fun task s ha => h task s ((Plan.asks_seq_iff hF.plan).mpr (.inl ha))
      have after : ∀ r s, Action.attempt (F P) (m.deeper k) = .done r (s.deeper k) →
          G r P (s.deeper k) = (G r P s).deeper k := fun r s e =>
        ihG r hf fun task s' ha =>
          h task s' ((Plan.asks_seq_iff hF.plan).mpr (.inr ⟨r, s.deeper k, e, ha⟩))
      simp only [Action.attempt_bind_eq_andCatch]
      rw [Action.attempt, first] at after
      rw [first]
      cases hx : F P m with
      | done a s =>
          rw [hx] at after
          exact after (.ok a) s rfl
      | failed f s =>
          rw [hx] at after
          exact after (.error f) s rfl
      | halted s => rfl

end Script

/-! ### Steps and runs -/

/-- A call that is not turned away because too many calls are open finds fewer open than may be, if
it has as many arguments as the method takes. -/
theorem Task.depth_lt_of_not_turnedAway {m : Machine} {method : Method} {receiver : Value}
    {args : List Value} (h : ¬ (Task.invoke method receiver args).TurnedAway m .tooDeep)
    (ha : method.arity.accepts args.length = true) : m.depth < maxDepth :=
  Nat.lt_of_not_le fun hd => h ((turnedAway_iff ha).mpr hd)

theorem Task.not_turnedAway_of_depth_lt {task : Task} {m : Machine} (hd : m.depth < maxDepth) :
    ¬ task.TurnedAway m .tooDeep := by
  cases task with
  | eval node env => exact id
  | invoke method receiver args =>
      intro h
      cases ha : method.arity.accepts args.length with
      | true => exact Nat.not_le.mpr hd ((turnedAway_iff ha).mp h)
      | false =>
          have fails := h 0 (fun _ => Action.exhaust) method rfl
          rw [Perform.call_of_not_accepts _ ha] at fails
          cases fails

namespace Perform

variable {P : Perform} {fuel : Nat} {m : Machine}

theorem call_deeper (hP : P.Balanced) (method : Method) (receiver : Value) (args : List Value)
    (k : Nat) (hr : ¬ (Task.invoke method receiver args).TurnedAway (m.deeper k) .tooDeep)
    (h : ∀ task s, AsksFor (fun perform => perform.call fuel method receiver args) P (m.deeper k)
      task (s.deeper k) → P task (s.deeper k) = (P task s).deeper k) :
    P.call fuel method receiver args (m.deeper k) =
      (P.call fuel method receiver args m).deeper k := by
  cases ha : method.arity.accepts args.length with
  | false =>
      rw [call_of_not_accepts P ha, call_of_not_accepts P ha]
      rfl
  | true =>
      have deep : method.Callable args (m.deeper k) := ⟨ha, Task.depth_lt_of_not_turnedAway hr ha⟩
      have shallow : method.Callable args m :=
        ⟨ha, Nat.lt_of_le_of_lt (Nat.le_add_right _ k) deep.2⟩
      have entered := script_entered fuel method receiver args
      have inner : P.enter fuel method receiver args ({ m with depth := m.depth + 1 }.deeper k) =
          (P.enter fuel method receiver args { m with depth := m.depth + 1 }).deeper k := by
        refine entered.deeper nofun k fun task s hs => h task s ?_
        rw [← m.enter_deeper k] at hs
        exact (AsksFor.congr fun Q => call_of_callable deep).mpr (Plan.asks_nested_iff.mpr hs)
      have balanced := entered.balances hP { m with depth := m.depth + 1 }
      rw [call_of_callable deep, call_of_callable shallow, Run.nested_apply, Run.nested_apply,
        m.enter_deeper k, inner]
      exact Outcome.leave_deeper k balanced

/-- A step does not look at the number of open calls, if the tasks that it asks for do not and it is
not a call that is refused. -/
theorem step_deeper (hP : P.Balanced) (task : Task) (k : Nat)
    (hr : ¬ task.TurnedAway (m.deeper k) .tooDeep)
    (h : ∀ task' s, AsksFor (fun perform => perform.step fuel task) P (m.deeper k)
      task' (s.deeper k) → P task' (s.deeper k) = (P task' s).deeper k) :
    P.step fuel task (m.deeper k) = (P.step fuel task m).deeper k := by
  cases task with
  | eval node env =>
      exact (@script_node False True fuel env node nofun fun _ => trivial).deeper nofun k h
  | invoke method receiver args => exact call_deeper hP method receiver args k hr h

end Perform

namespace Moment

/-- Whether no call that a moment leads to is refused because too many calls are open. -/
def Unrefused (x : Moment) : Prop := ∀ y, x.Reaches y → ¬ y.task.TurnedAway y.machine .tooDeep

variable {x y : Moment}

theorem Unrefused.of_asks (h : x.Unrefused) (hy : x.Asks y) : y.Unrefused :=
  fun z hz => h z (.head hy hz)

/-- Each call that is opened on the way uses up some fuel. -/
theorem Reaches.depth_le (h : x.Reaches y) :
    y.machine.depth + y.fuel ≤ x.machine.depth + x.fuel := by
  induction h with
  | refl => exact Nat.le_refl _
  | @tail y z h hz ih =>
      have calls : y.task.calls ≤ 1 := by cases y.task <;> simp [Task.calls]
      have depth := hz.depth
      have fuel := hz.1
      omega

/-- **No call is refused** where there is less fuel than calls may be opened. -/
theorem unrefused_of_fuel (h : x.machine.depth + x.fuel < maxDepth) : x.Unrefused := fun y hy =>
  Task.not_turnedAway_of_depth_lt (by have := hy.depth_le; omega)

end Moment

/-- **A task does not look at the number of open calls**, if no call is refused on account of it. -/
theorem perform_deeper (fuel : Nat) (task : Task) (m : Machine) (k : Nat)
    (h : (⟨fuel, task, m.deeper k⟩ : Moment).Unrefused) :
    perform fuel task (m.deeper k) = (perform fuel task m).deeper k := by
  induction fuel generalizing task m with
  | zero => cases task <;> rfl
  | succ fuel ih =>
      rw [perform_succ]
      exact Perform.step_deeper (perform_balanced fuel) task k (h _ .refl) fun task' s ha =>
        ih task' s (h.of_asks ⟨rfl, ha⟩)

/-! ### Messages -/

namespace Run

variable {I : Invoke} {receiver : Value} {name : NameId} {args : List Value} {m m₁ : Machine}
  {method : Method} {owner : ClassId}

theorem send_of_found (h : m.findMethod? receiver name = .ok (some (method, owner))) :
    send I receiver name args m = I method receiver args m :=
  Action.bind_of_done (findMethod_of_ok h)

/-- In place of a method that is missing, `method_missing` is called with its name. -/
theorem send_of_missing (h : m.findMethod? receiver name = .ok none)
    (hm : m.findMethod? receiver .methodMissing = .ok (some (method, owner))) :
    send I receiver name args m = I method receiver (.sym name :: args) m :=
  (Action.bind_of_done (findMethod_of_ok h)).trans (Action.bind_of_done (findMethod_of_ok hm))

theorem send_of_none (h : m.findMethod? receiver name = .ok none)
    (hm : m.findMethod? receiver .methodMissing = .ok none) :
    send I receiver name args m =
      .failed (.ofFault (.noMethod (m.names.text name) (m.describe receiver))) m :=
  (Action.bind_of_done (findMethod_of_ok h)).trans (Action.bind_of_done (findMethod_of_ok hm))

/-- A value that is a name is taken for it without any call, and however many calls are open.  This
may make the name known, but leaves classes and values alone. -/
theorem expectName_of_done {v : Value} {x : NameId} (h : expectName I v m = .done x m₁) :
    m₁.depth = m.depth ∧ m₁.classes = m.classes ∧ m₁.heap = m.heap ∧
      ∀ (J : Invoke) (k : Nat), expectName J v (m.deeper k) = .done x (m₁.deeper k) := by
  cases v with
  | sym name =>
      cases h
      exact ⟨rfl, rfl, rfl, fun _ _ => rfl⟩
  | str id =>
      cases h
      exact ⟨rfl, rfl, rfl, fun _ _ => rfl⟩
  | _ =>
      obtain ⟨text, s, -, h⟩ := Action.done_of_bind h
      cases h

end Run

/-- A native method that takes any arguments after the first ones may be called with those. -/
theorem Method.callable_atLeast {n : NameId} {least : Nat} {op : Native} {args : List Value}
    {m : Machine} (h : least ≤ args.length) (hd : m.depth < maxDepth) :
    (Method.native n (.atLeast least) op).Callable args m := by
  refine ⟨?_, hd⟩
  simp [Method.arity, Arity.accepts, Arity.atLeast, h]

namespace Perform

variable {P : Perform} {fuel : Nat} {n x : NameId} {receiver v : Value} {args : List Value}
  {m m₁ : Machine}

/-- The method `send` sends a message with one more call open. -/
theorem call_send (hd : m.depth < maxDepth) {I : Invoke}
    (taken : Run.expectName I v m = .done x m₁) :
    P.call fuel (.native n (.atLeast 1) (.object .send)) receiver (v :: args) m =
      (Run.send P.invoke receiver x args (m₁.deeper 1)).leave := by
  rw [call_of_callable (Method.callable_atLeast (Nat.le_add_left 1 _) hd), Run.nested_apply]
  obtain ⟨-, -, -, deeper⟩ := Run.expectName_of_done taken
  exact congrArg Outcome.leave (Action.bind_of_done (deeper P.invoke 1))

/-- The method `call` of a bound method calls it with one more call open. -/
theorem call_bound (hd : m.depth < maxDepth) (id : BoundId) :
    P.call fuel (.native n (.atLeast 0) (.bound .call)) (.bound id) args m =
      (P.invoke (m.heap.bound id).method (m.heap.bound id).receiver args (m.deeper 1)).leave := by
  rw [call_of_callable (Method.callable_atLeast (Nat.zero_le _) hd), Run.nested_apply]
  rfl

end Perform

/-! ### Methods as objects -/

/-- The machine on which a method that was found for a receiver has been made an object. -/
def Machine.withMethod (m : Machine) (receiver : Value) (name : NameId)
    (found : Method × ClassId) : Machine :=
  { m with heap := (m.heap.newBound ⟨.method, name, receiver, found.1, found.2⟩).2 }

/-- Whether a bound method is the method that a receiver has under a name. -/
def Machine.BindsMethod (m : Machine) (id : BoundId) (receiver : Value) (name : NameId) : Prop :=
  ∃ method owner, m.findMethod? receiver name = .ok (some (method, owner)) ∧
    m.heap.bound id = ⟨.method, name, receiver, method, owner⟩

namespace Machine

variable {m : Machine} {receiver : Value}

theorem classOf_newBound (h : receiver.Lives m) (cell : BoundCell) :
    { m with heap := (m.heap.newBound cell).2 }.classOf receiver = m.classOf receiver := by
  have home : (m.heap.newBound cell).2.home receiver = m.heap.home receiver := by
    cases receiver with
    | bound id =>
        exact congrArg (fun c => Home.cell c.cls) ((Heap.Extends.newBound m.heap cell).bound id h).2
    | bool b => cases b <;> rfl
    | _ => rfl
  simp only [classOf, ClassTable.classOf, home]

/-- A new object changes nothing about the methods of a receiver that is there. -/
theorem findMethod?_newBound (h : receiver.Lives m) (cell : BoundCell) (name : NameId) :
    { m with heap := (m.heap.newBound cell).2 }.findMethod? receiver name =
      m.findMethod? receiver name := by
  have same := classOf_newBound h cell
  cases receiver <;> simp only [findMethod?, same]

end Machine

/-- **A method that is found can be taken as an object**, which then binds that method. -/
theorem Run.bindMethod_of_found {m : Machine} {receiver : Value} {name : NameId}
    {found : Method × ClassId} (hv : receiver.Lives m)
    (h : m.findMethod? receiver name = .ok (some found)) :
    bindMethod receiver name m =
        .done (.bound ⟨m.heap.bounds.size⟩) (m.withMethod receiver name found) ∧
      (m.withMethod receiver name found).BindsMethod ⟨m.heap.bounds.size⟩ receiver name := by
  have cell : (m.withMethod receiver name found).heap.bound ⟨m.heap.bounds.size⟩ =
      ⟨.method, name, receiver, found.1, found.2⟩ := by
    simp [Machine.withMethod, Heap.newBound, Heap.bound]
  exact ⟨Action.bind_of_done (findMethod_of_ok h), found.1, found.2,
    (Machine.findMethod?_newBound hv _ name).trans h, cell⟩

/-! ### The ways agree -/

/-- The method `send` is called with a value and arguments. -/
def Moment.sending (fuel : Nat) (n : NameId) (receiver v : Value) (args : List Value)
    (m : Machine) : Moment :=
  ⟨fuel + 1, .invoke (.native n (.atLeast 1) (.object .send)) receiver (v :: args), m⟩

section Ways

variable {fuel : Nat} {n x : NameId} {receiver v : Value} {args : List Value} {m m₁ : Machine}

/-- A message is sent with one more call open. -/
theorem Moment.outcome_sending (free : (sending fuel n receiver v args m).Unrefused) {I : Invoke}
    (taken : Run.expectName I v m = .done x m₁) :
    m.depth < maxDepth ∧ (sending fuel n receiver v args m).outcome =
      (Run.send (Perform.invoke (perform fuel)) receiver x args (m₁.deeper 1)).leave := by
  have counted : (Arity.atLeast 1).accepts (v :: args).length = true := by
    simp [Arity.accepts, Arity.atLeast]
  have open_lt : m.depth < maxDepth := Task.depth_lt_of_not_turnedAway (free _ .refl) counted
  exact ⟨open_lt, Perform.call_send open_lt taken⟩

/-- With one more call open, a message is sent in the same way. -/
theorem Moment.send_deeper (free : (sending fuel n receiver v args m).Unrefused) {I : Invoke}
    (taken : Run.expectName I v m = .done x m₁) :
    Run.send (Perform.invoke (perform fuel)) receiver x args (m₁.deeper 1) =
      (Run.send (Perform.invoke (perform fuel)) receiver x args m₁).deeper 1 := by
  have script := @Perform.script_send False True (some ⟨0⟩) receiver x args
  refine script.deeper nofun 1 fun task s ha =>
    perform_deeper fuel task s 1 (free.of_asks ⟨rfl, fun mark => ?_⟩)
  exact (Perform.call_send (outcome_sending free taken).1 taken).trans
    (congrArg Outcome.leave (ha mark))

end Ways

/-- **Three ways to call a method agree.**  Let a value be taken for a name `x`, and let the method
`send` be called with it and with arguments so that no call is refused because too many are open.
This ends in the same way, with the same machine, as sending the message `x` directly: what is
called has one call more open, and is given the same fuel.  If `x` stands for a method of the
receiver, it also ends in the same way as the call of an object that binds that method.  Such an
object can be made of every method that is found; it is there when each of the three ways begins,
so that all that is made afterwards is the same, even in its place in the heap.

If `x` stands for no method of the receiver, the method `send` and the message both call
`method_missing` with the name, and when that is missing too, both fail with the same fault. -/
theorem ways_to_send_agree {fuel : Nat} {n c x : NameId} {receiver v : Value} {args : List Value}
    {m m₁ : Machine}
    (taken : Run.expectName (Perform.invoke (perform fuel)) v m = .done x m₁)
    (free : (Moment.sending fuel n receiver v args m).Unrefused) :
    let sent := (Moment.sending fuel n receiver v args m).outcome
    sent.EndsAs (Run.send (Perform.invoke (perform fuel)) receiver x args m₁) ∧
      (∀ id, m₁.BindsMethod id receiver x → sent =
        perform (fuel + 1) (.invoke (.native c (.atLeast 0) (.bound .call)) (.bound id) args) m₁) ∧
      (∀ found, receiver.Lives m₁ → m₁.findMethod? receiver x = .ok (some found) →
        Run.bindMethod receiver x m₁ =
            .done (.bound ⟨m₁.heap.bounds.size⟩) (m₁.withMethod receiver x found) ∧
          (m₁.withMethod receiver x found).BindsMethod ⟨m₁.heap.bounds.size⟩ receiver x) ∧
      (m₁.findMethod? receiver x = .ok none →
        (∀ method owner, m₁.findMethod? receiver .methodMissing = .ok (some (method, owner)) →
          sent.EndsAs (perform fuel (.invoke method receiver (.sym x :: args)) m₁)) ∧
        (m₁.findMethod? receiver .methodMissing = .ok none →
          sent = .failed (.ofFault (.noMethod (m₁.names.text x) (m₁.describe receiver))) m₁)) := by
  intro sent
  obtain ⟨open_lt, inner⟩ := Moment.outcome_sending free taken
  have direct : sent.EndsAs (Run.send (Perform.invoke (perform fuel)) receiver x args m₁) := by
    have same := Outcome.leave_endsAs (Run.send (Perform.invoke (perform fuel)) receiver x args m₁)
    rwa [← Moment.send_deeper free taken, ← inner] at same
  refine ⟨direct, ?_, fun found hv => Run.bindMethod_of_found hv, fun none => ⟨?_, ?_⟩⟩
  · rintro id ⟨method, owner, found, cell⟩
    have found' : (m₁.deeper 1).findMethod? receiver x = .ok (some (method, owner)) := found
    have open_lt' : m₁.depth < maxDepth := (Run.expectName_of_done taken).1 ▸ open_lt
    refine inner.trans ((congrArg Outcome.leave (Run.send_of_found found')).trans ?_)
    refine .symm ((Perform.call_bound open_lt' id).trans ?_)
    rw [cell]
  · intro method owner found
    rw [Run.send_of_missing none found] at direct
    exact direct
  · intro missing
    rw [Run.send_of_none none missing] at direct
    exact direct.eq_of_ended trivial

/-- An integer is asked for its text in the three ways. -/
theorem ways_to_send_agree_text :
    let m₀ := (Machine.bare (.collecting "")).install ⟨.integer, "to_s", .exact 0, .integer .toS⟩
    let m := m₀.withMethod (.int 7) .toS (.native .toS (.exact 0) (.integer .toS), .integer)
    let sending := Moment.sending 2 .new (.int 7) (.sym .toS) [] m
    Run.bindMethod (.int 7) .toS m₀ = .done (.bound ⟨0⟩) m ∧ sending.Unrefused ∧
      sending.outcome.DoneWith (fun v s => s.heap.text? v = some "7") ∧
      sending.outcome.EndsAs (Run.send (Perform.invoke (perform 2)) (.int 7) .toS [] m) ∧
      sending.outcome =
        perform 3 (.invoke (.native .new (.atLeast 0) (.bound .call)) (.bound ⟨0⟩) []) m := by
  intro m₀ m sending
  have found : m₀.findMethod? (.int 7) .toS =
      .ok (some (.native .toS (.exact 0) (.integer .toS), .integer)) := by
    with_unfolding_all rfl
  have lives : (Value.int 7).Lives m₀ := trivial
  obtain ⟨made, binds⟩ := Run.bindMethod_of_found lives found
  have free : sending.Unrefused := Moment.unrefused_of_fuel (show 0 + 3 < maxDepth by decide)
  have text : sending.outcome.DoneWith fun v s => s.heap.text? v = some "7" := by decide +kernel
  obtain ⟨direct, called, -⟩ := ways_to_send_agree (c := .new) rfl free
  exact ⟨made, free, text, direct, called _ binds⟩

end MiniRuby
