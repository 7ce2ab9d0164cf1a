import MiniRuby.Evaluator
import MiniRuby.Proofs.Growth

/-!
# What a step of the evaluator can do

A step of the evaluator is written for any way of carrying out the tasks that it leads to.  It
does not look into these tasks: it asks for them, one after the other, and in between it does
things of its own.  Two predicates say this of a step, as a function of how tasks are carried out:

* `Calls`: a native method calls methods, and all that it does by itself is `Quiet`.  A quiet
  action ends, keeps the local variables, neither changes the number of open calls nor looks at it,
  does not jump and notes no place; the machine grows only.
* `Script`: a construct or a call asks for tasks, binds variables in one frame or in frames that
  it opens, notes places of failures, and catches failures; only a call looks at the number of open
  calls and counts itself as one.  A script is `strict` when it lets faults pass, that is, when it
  fails with a fault that it has caught, and it is `endless` when it may run out of fuel by itself.

What holds of the evaluator because of how steps are put together, and not because of what a
single step does, is proved by induction on these predicates.
-/

namespace MiniRuby

namespace Outcome

variable {σ ε α β : Type}

/-- Whether an action has ended: it is done or has failed. -/
def Ended : Outcome σ ε α → Prop
  | done _ _ | failed _ _ => True
  | halted _ => False

/-- Go on with the value of an action that is done. -/
def andThen (o : Outcome σ ε α) (f : α → Action σ ε β) : Outcome σ ε β :=
  match o with
  | done a s => f a s
  | failed e s => failed e s
  | halted s => halted s

/-- Go on with the value or the error of an action that has come to one. -/
def andCatch (o : Outcome σ ε α) (f : Except ε α → Action σ ε β) : Outcome σ ε β :=
  match o with
  | done a s => f (.ok a) s
  | failed e s => f (.error e) s
  | halted s => halted s

/-- Change the error of a failure. -/
def mapError {ε' : Type} (f : ε → ε') : Outcome σ ε α → Outcome σ ε' α
  | done a s => done a s
  | failed e s => failed (f e) s
  | halted s => halted s

end Outcome

namespace Action

variable {σ ε α β : Type}

/-- Actions in a row are what the outcome of the first goes on with. -/
theorem bind_eq_andThen (x : Action σ ε α) (f : α → Action σ ε β) (s : σ) :
    (x >>= f) s = (x s).andThen f := rfl

theorem bind_of_done {x : Action σ ε α} {f : α → Action σ ε β} {s s' : σ} {a : α}
    (h : x s = .done a s') : (x >>= f) s = f a s' := by
  rw [bind_eq_andThen, h]
  rfl

theorem bind_of_failed {x : Action σ ε α} {f : α → Action σ ε β} {s s' : σ} {e : ε}
    (h : x s = .failed e s') : (x >>= f) s = .failed e s' := by
  rw [bind_eq_andThen, h]
  rfl

/-- Looking at the state and going on with what was seen. -/
theorem bind_view (f : σ → α) (g : α → Action σ ε β) (s : σ) : (view f >>= g) s = g (f s) s := rfl

/-- Actions in sequence are done if both are, the second from where the first one is. -/
theorem done_of_bind {x : Action σ ε α} {f : α → Action σ ε β} {s s' : σ} {b : β}
    (h : (x >>= f) s = .done b s') : ∃ a s₁, x s = .done a s₁ ∧ f a s₁ = .done b s' := by
  rw [bind_eq_andThen] at h
  cases hx : x s with
  | done a s₁ =>
      rw [hx] at h
      exact ⟨a, s₁, rfl, h⟩
  | failed e s₁ | halted s₁ =>
      rw [hx] at h
      cases h

/-- An action whose failure is caught goes on with either. -/
theorem attempt_bind_eq_andCatch (x : Action σ ε α) (f : Except ε α → Action σ ε β) (s : σ) :
    (attempt x >>= f) s = (x s).andCatch f := by
  simp only [bind_apply, attempt, Outcome.andCatch]
  cases x s <;> rfl

/-- What happens to the errors of an action happens to its outcome. -/
theorem mapError_eq {ε' : Type} (f : ε → ε') (x : Action σ ε α) (s : σ) :
    mapError f x s = (x s).mapError f := rfl

end Action

/-- A failure that comes up at a place is given the place, unless it has one. -/
theorem Run.located_of_failed {α : Type} {x : Run α} {m m' : Machine} {f : Failure} (place : Span)
    (h : x m = .failed f m') : Run.located place x m = .failed (f.locate place) m' := by
  rw [Run.located, Action.mapError_eq, h]
  rfl

/-- The machine after a call, which is not open any longer. -/
def Machine.left (m : Machine) : Machine := { m with depth := m.depth - 1 }

/-- How a call ends when what happens in it has ended. -/
def Outcome.leave {ε α : Type} : Outcome Machine ε α → Outcome Machine ε α
  | done a s => done a s.left
  | failed e s => failed e s.left
  | halted s => halted s

/-- A nested action runs one level deeper and is put back afterwards. -/
theorem Run.nested_apply {α : Type} (x : Run α) (m : Machine) :
    Run.nested x m = (x { m with depth := m.depth + 1 }).leave := by
  simp only [Run.nested, Action.bind_apply, Action.update, Action.attempt]
  cases x { m with depth := m.depth + 1 } <;> rfl

/-- The machine with so many more calls open. -/
def Machine.deeper (m : Machine) (k : Nat) : Machine := { m with depth := m.depth + k }

/-- How an action ends with so many more calls open. -/
def Outcome.deeper {ε α : Type} (k : Nat) : Outcome Machine ε α → Outcome Machine ε α
  | done a s => done a (s.deeper k)
  | failed e s => failed e (s.deeper k)
  | halted s => halted (s.deeper k)

/-- Whether an action does the same, however many calls are open. -/
def Run.Blind {α : Type} (x : Run α) : Prop :=
  ∀ (k : Nat) (m : Machine), x (m.deeper k) = (x m).deeper k

/-- **Actions in a row** are blind to the depth if each of them is. -/
theorem Run.Blind.bind {α β : Type} {x : Run α} {f : α → Run β} (hx : Blind x)
    (hf : ∀ a, Blind (f a)) : Blind (x >>= f) := by
  intro k m
  rw [Action.bind_eq_andThen, Action.bind_eq_andThen, hx k m]
  cases x m with
  | done a s => exact hf a k s
  | failed e s | halted s => rfl

/-- Writing to the sink does not ask for the depth. -/
theorem Run.blind_write (text : String) : Blind (Run.write text) := by
  intro k m
  obtain ⟨names, classes, heap, frames, constants, source?, sink, depth⟩ := m
  cases sink with
  | collecting written => rfl
  | refusing reason =>
      simp only [Run.write, Machine.deeper]
      split <;> rfl

/-- Whether a signal is a jump: out of a method, out of a loop, or to its next pass. -/
def Signal.IsJump : Signal → Prop
  | fault _ | raised _ => False
  | returned _ | broke _ | skipped _ => True

/-! ### Quiet actions -/

/-- An action that ends, keeps the local variables and the number of open calls, which it does not
look at, lets the machine grow at most, and neither jumps nor notes the place of a failure. -/
structure Run.Quiet {α : Type} (x : Run α) : Prop where
  ends : ∀ m, (x m).Ended
  frames : ∀ m, (x m).state.frames = m.frames
  depth : ∀ m, (x m).state.depth = m.depth
  blind : x.Blind
  evolves : ∀ m : Machine, m.Evolves (x m).state
  signal : ∀ m f m', x m = .failed f m' → ¬ f.signal.IsJump
  unplaced : ∀ m f m', x m = .failed f m' → f.span? = none

namespace Run.Quiet

variable {α β : Type}

/-- An action that either changes the machine elsewhere or fails with a fault at once. -/
theorem of_cases {x : Run α} (hb : x.Blind) (h : ∀ m,
    (∃ a m', x m = .done a m' ∧ m'.frames = m.frames ∧ m'.depth = m.depth ∧ m.Evolves m') ∨
      ∃ cause, x m = .failed (.ofFault cause) m) : Quiet x := by
  refine ⟨fun m => ?_, fun m => ?_, fun m => ?_, hb, fun m => ?_, fun m f m' hf hj => ?_,
    fun m f m' hf => ?_⟩
  · obtain ⟨a, m', e, -⟩ | ⟨cause, e⟩ := h m <;> rw [e] <;> trivial
  · obtain ⟨a, m', e, hfr, -⟩ | ⟨cause, e⟩ := h m <;> rw [e]
    · exact hfr
    · rfl
  · obtain ⟨a, m', e, -, hd, -⟩ | ⟨cause, e⟩ := h m <;> rw [e]
    · exact hd
    · rfl
  · obtain ⟨a, m', e, -, -, hm⟩ | ⟨cause, e⟩ := h m <;> rw [e]
    · exact hm
    · exact .refl m
  · obtain ⟨a, m', e, -⟩ | ⟨cause, e⟩ := h m <;> rw [e] at hf <;> cases hf
    exact hj
  · obtain ⟨a, m', e, -⟩ | ⟨cause, e⟩ := h m <;> rw [e] at hf <;> cases hf
    rfl

/-- An action that does not fail and lets the machine grow. -/
theorem of_done {x : Run α} (hb : x.Blind) (h : ∀ m, ∃ a m', x m = .done a m' ∧
    m'.frames = m.frames ∧ m'.depth = m.depth ∧ m.Evolves m') : Quiet x :=
  of_cases hb fun m => .inl (h m)

@[simp] theorem pure (a : α) : Quiet (Pure.pure a : Run α) :=
  of_done (fun _ _ => rfl) fun m => ⟨a, m, rfl, rfl, rfl, .refl m⟩

/-- What is looked at is not the number of open calls. -/
theorem view {f : Machine → α} (hf : ∀ k m, f (Machine.deeper m k) = f m) :
    Quiet (Action.view f) :=
  of_done (fun k m => congrArg (Outcome.done · (m.deeper k)) (hf k m)) fun m =>
    ⟨f m, m, rfl, rfl, rfl, .refl m⟩

@[simp] theorem fault (cause : Fault) : Quiet (Run.fault cause : Run α) :=
  of_cases (fun _ _ => rfl) fun _ => .inr ⟨cause, rfl⟩

/-- Raising an exception is quiet, as it only says so. -/
@[simp] theorem raised (e : Value) : Quiet (Action.fail ⟨.raised e, none⟩ : Run α) := by
  refine ⟨fun _ => trivial, fun _ => rfl, fun _ => rfl, fun _ _ => rfl, .refl,
    fun m f m' h hj => ?_, fun m f m' h => ?_⟩ <;> cases h
  · exact hj
  · rfl

@[simp] theorem ofExcept (r : Except Fault α) : Quiet (Run.ofExcept r) := by
  cases r with
  | ok a => exact pure a
  | error cause => exact fault cause

/-- **Quiet actions in a row** are quiet. -/
theorem bind {x : Run α} {f : α → Run β} (hx : Quiet x) (hf : ∀ a, Quiet (f a)) :
    Quiet (x >>= f) := by
  refine ⟨fun m => ?_, fun m => ?_, fun m => ?_, hx.blind.bind fun a => (hf a).blind, fun m => ?_,
    fun m e m' h => ?_, fun m e m' h => ?_⟩
  · have h₁ := hx.ends m
    rw [Action.bind_eq_andThen]
    cases hxm : x m <;> rw [hxm] at h₁
    case done a s => exact (hf a).ends s
    all_goals exact h₁
  · have h₁ := hx.frames m
    rw [Action.bind_eq_andThen]
    cases hxm : x m <;> rw [hxm] at h₁
    case done a s => exact ((hf a).frames s).trans h₁
    all_goals exact h₁
  · have h₁ := hx.depth m
    rw [Action.bind_eq_andThen]
    cases hxm : x m <;> rw [hxm] at h₁
    case done a s => exact ((hf a).depth s).trans h₁
    all_goals exact h₁
  · have h₁ := hx.evolves m
    rw [Action.bind_eq_andThen]
    cases hxm : x m <;> rw [hxm] at h₁
    case done a s => exact h₁.trans ((hf a).evolves s)
    all_goals exact h₁
  · rw [Action.bind_eq_andThen] at h
    cases hxm : x m <;> rw [hxm] at h
    case done a s => exact (hf a).signal s e m' h
    case failed e' s =>
      cases h
      exact hx.signal m e m' hxm
    case halted s => cases h
  · rw [Action.bind_eq_andThen] at h
    cases hxm : x m <;> rw [hxm] at h
    case done a s => exact (hf a).unplaced s e m' h
    case failed e' s =>
      cases h
      exact hx.unplaced m e m' hxm
    case halted s => cases h

theorem map {x : Run α} (f : α → β) (hx : Quiet x) : Quiet (f <$> x) :=
  hx.bind fun a => pure (f a)

@[simp] theorem intern (text : String) : Quiet (Run.intern text) :=
  of_done (fun _ _ => rfl) fun _ => ⟨_, _, rfl, rfl, rfl, .withNames (.intern .refl text)⟩

/-- Making a value is quiet if the heap only grows by it. -/
theorem allocate {make : Heap → Value × Heap} (h : ∀ heap : Heap, heap.Extends (make heap).2) :
    Quiet (Run.allocate make) :=
  of_done (fun _ _ => rfl) fun m => ⟨_, _, rfl, rfl, rfl, .withHeap (h m.heap)⟩

@[simp] theorem newString (text : String) : Quiet (Run.newString text) :=
  allocate fun heap => .newString heap .string text

@[simp] theorem newArray (elements : Array Value) : Quiet (Run.newArray elements) :=
  allocate fun heap => .newArray heap .array elements

/-- The heap may be changed quietly in ways that keep what is there. -/
theorem updateHeap {f : Heap → Heap} (h : ∀ heap : Heap, heap.Extends (f heap)) :
    Quiet (Run.updateHeap f) :=
  of_done (fun _ _ => rfl) fun m => ⟨_, _, rfl, rfl, rfl, .withHeap (h m.heap)⟩

/-- Classes may be changed quietly in ways in which the table grows. -/
theorem updateClasses {f : ClassTable → ClassTable} (h : ∀ t : ClassTable, t.Grows (f t)) :
    Quiet (Run.updateClasses f) :=
  of_done (fun _ _ => rfl) fun m => ⟨_, _, rfl, rfl, rfl, .withClasses (h m.classes)⟩

@[simp] theorem write (text : String) : Quiet (Run.write text) := by
  refine of_cases (blind_write text) fun m => ?_
  unfold Run.write
  split
  · exact .inl ⟨_, _, rfl, rfl, rfl, .of_eq rfl rfl rfl rfl rfl⟩
  · split
    · exact .inl ⟨_, _, rfl, rfl, rfl, .refl m⟩
    · exact .inr ⟨_, rfl⟩

end Run.Quiet

/-! ### Calls -/

/-- Something that a native method does, given how methods are called: quiet actions and calls.
If it is endless, it may also run out of fuel. -/
inductive Calls (endless : Prop) : {α : Type} → (Invoke → Run α) → Prop where
  | quiet {α : Type} {x : Run α} (hx : x.Quiet) : Calls endless fun _ => x
  | exhaust {α : Type} (h : endless) : Calls endless fun _ => (Action.exhaust : Run α)
  | call (method : Method) (receiver : Value) (args : List Value) :
      Calls endless fun invoke => invoke method receiver args
  | bind {α β : Type} {F : Invoke → Run α} {G : α → Invoke → Run β} (hF : Calls endless F)
      (hG : ∀ a, Calls endless (G a)) :
      Calls endless fun invoke => F invoke >>= fun a => G a invoke

namespace Calls

variable {endless : Prop} {α β : Type}

/-- A look at the machine is no call, if it does not tell the depth. -/
theorem view {f : Machine → α} (hf : ∀ k m, f (Machine.deeper m k) = f m) :
    Calls endless fun _ => Action.view f :=
  .quiet (.view hf)

theorem map {F : Invoke → Run α} (f : α → β) (hF : Calls endless F) :
    Calls endless fun invoke => f <$> F invoke :=
  hF.bind fun a => .quiet (.pure (f a))

theorem ite {c : Prop} [Decidable c] {F G : Invoke → Run α} (hF : Calls endless F)
    (hG : Calls endless G) : Calls endless fun invoke => if c then F invoke else G invoke := by
  split
  · exact hF
  · exact hG

/-- A loop calls as its body does. -/
theorem each {F : α → Invoke → Run β} (hF : ∀ a, Calls endless (F a)) (as : List α) :
    Calls endless fun invoke => Action.each (fun a => F a invoke) as := by
  induction as with
  | nil => exact .quiet (.pure [])
  | cons a as ih =>
      simp only [Action.each_cons]
      exact (hF a).bind fun b => ih.bind fun bs => .quiet (.pure (b :: bs))

theorem any {F : α → Invoke → Run Bool} (hF : ∀ a, Calls endless (F a)) (as : List α) :
    Calls endless fun invoke => Action.any (fun a => F a invoke) as := by
  induction as with
  | nil => exact .quiet (.pure false)
  | cons a as ih =>
      simp only [Action.any_cons]
      exact (hF a).bind fun _ => ite (.quiet (.pure true)) ih

end Calls

/-! ### Frames -/

/-- The frames that are there before are there after, each as it was, except for the given one. -/
structure Machine.KeepsFrames (except? : Option FrameId) (m m' : Machine) : Prop where
  size_le : m.frames.frames.size ≤ m'.frames.frames.size
  frame_eq : ∀ id, id.index < m.frames.frames.size → except? ≠ some id →
    m'.frames.frame id = m.frames.frame id

namespace Machine.KeepsFrames

variable {except? : Option FrameId} {m m₁ m₂ : Machine}

/-- Frames that are left alone are kept. -/
theorem of_eq (h : m₁.frames = m.frames) : KeepsFrames except? m m₁ :=
  ⟨Nat.le_of_eq (by rw [h]), fun id _ _ => by rw [h]⟩

/-- Frames are kept by two changes if each keeps them. -/
theorem trans (h₁ : KeepsFrames except? m m₁) (h₂ : KeepsFrames except? m₁ m₂) :
    KeepsFrames except? m m₂ :=
  ⟨Nat.le_trans h₁.size_le h₂.size_le, fun id hid he =>
    (h₂.frame_eq id (Nat.lt_of_lt_of_le hid h₁.size_le) he).trans (h₁.frame_eq id hid he)⟩

/-- Frames that are all kept are kept except for one. -/
theorem weaken (h : KeepsFrames none m m₁) : KeepsFrames except? m m₁ :=
  ⟨h.size_le, fun id hid _ => h.frame_eq id hid nofun⟩

/-- Setting a local changes the innermost frame of the scope only. -/
theorem set (m : Machine) (scope : Scope) (name : NameId) (v : Value) :
    KeepsFrames (some scope.inner) m { m with frames := m.frames.set scope name v } := by
  refine ⟨Nat.le_of_eq (by simp [FrameStore.set]), fun id _ he => ?_⟩
  rw [FrameStore.frame_set, if_neg]
  exact fun h => he (congrArg some h.1.symm)

/-- What happens in a frame that is opened first happens in none of the frames before. -/
theorem child (scope : Scope)
    (h : KeepsFrames (some (m.frames.child scope).1.inner)
      { m with frames := (m.frames.child scope).2 } m₁) : KeepsFrames except? m m₁ := by
  have hsize : (m.frames.child scope).2.frames.size = m.frames.frames.size + 1 := by
    simp [FrameStore.child]
  have hle := h.size_le
  refine ⟨by simp only [hsize] at hle; omega, fun id hid _ => ?_⟩
  have hne : some (m.frames.child scope).1.inner ≠ some id := by
    rintro e
    cases e
    exact Nat.lt_irrefl _ hid
  exact (h.frame_eq id (by simp only [hsize]; omega) hne).trans
    (FrameStore.frame_child m.frames scope id)

end Machine.KeepsFrames

open Machine (KeepsFrames)

/-- The frame in which a task binds variables, if it does so in one that is there already. -/
def Task.frame? : Task → Option FrameId
  | .eval _ env => some env.scope.inner
  | .invoke _ _ _ => none

/-! ### Scripts -/

/-- Something that a step of the evaluator does, given how tasks are carried out.  Of the frames
that are there, it binds variables in the given one at most. -/
inductive Script (strict endless : Prop) :
    Option FrameId → {α : Type} → (Perform → Run α) → Prop where
  /-- What the step does by itself leaves the number of open calls alone, and lets the machine grow
  at most.  What may bind variables in a frame that is there does not look at that number. -/
  | own {frame? : Option FrameId} {α : Type} {x : Run α} (he : endless ∨ ∀ m, (x m).Ended)
      (hd : ∀ m, (x m).state.depth = m.depth) (hb : frame? = none ∨ x.Blind)
      (hf : ∀ m, KeepsFrames frame? m (x m).state) (hm : ∀ m : Machine, m.Evolves (x m).state) :
      Script strict endless frame? fun _ => x
  | ask {frame? : Option FrameId} (task : Task) (h : task.frame? = none ∨ task.frame? = frame?) :
      Script strict endless frame? fun perform => perform task
  | bind {frame? : Option FrameId} {α β : Type} {F : Perform → Run α} {G : α → Perform → Run β}
      (hF : Script strict endless frame? F) (hG : ∀ a, Script strict endless frame? (G a)) :
      Script strict endless frame? fun perform => F perform >>= fun a => G a perform
  /-- A frame is opened, and what follows takes place in it. -/
  | inside {frame? : Option FrameId} {α : Type} {G : Scope → Perform → Run α} (scope : Scope)
      (hG : ∀ s, Script strict endless (some s.inner) (G s)) :
      Script strict endless frame? fun perform => Run.openScope scope >>= fun s => G s perform
  | located {frame? : Option FrameId} {α : Type} {F : Perform → Run α} (place : Span)
      (hF : Script strict endless frame? F) :
      Script strict endless frame? fun perform => Run.located place (F perform)
  /-- What counts as a call binds variables in no frame that is there. -/
  | nested {α : Type} {F : Perform → Run α} (hF : Script strict endless none F) :
      Script strict endless none fun perform => Run.nested (F perform)
  /-- A failure is caught; a strict script fails with a fault that it has caught. -/
  | catching {frame? : Option FrameId} {α β : Type} {F : Perform → Run α}
      {G : Except Failure α → Perform → Run β} (hF : Script strict endless frame? F)
      (hG : ∀ r, Script strict endless frame? (G r))
      (pass : strict → ∀ f cause, f.signal = .fault cause →
        ∀ perform m, G (.error f) perform m = .failed f m) :
      Script strict endless frame? fun perform =>
        Action.attempt (F perform) >>= fun r => G r perform

namespace Script

variable {strict endless : Prop} {frame? : Option FrameId} {α β : Type}

/-- A quiet action is a script without any calls. -/
theorem quiet {x : Run α} (hx : x.Quiet) : Script strict endless frame? fun _ => x :=
  .own (.inr hx.ends) hx.depth (.inr hx.blind) (fun m => .of_eq (hx.frames m)) hx.evolves

/-- Looking at the machine is a script if the answer does not tell the depth. -/
theorem view {f : Machine → α} (hf : ∀ k m, f (Machine.deeper m k) = f m) :
    Script strict endless frame? fun _ => Action.view f :=
  quiet (.view hf)

/-- An endless script may run out of fuel. -/
theorem exhaust (h : endless) : Script strict endless frame? fun _ => (Action.exhaust : Run α) :=
  .own (.inl h) (fun _ => rfl) (.inr fun _ _ => rfl) (fun _ => .of_eq rfl) .refl

/-- What a native method does is a script that catches nothing. -/
theorem ofCalls {F : Invoke → Run α} (hF : Calls endless F) :
    Script strict endless frame? fun perform => F perform.invoke := by
  induction hF with
  | quiet hx => exact quiet hx
  | exhaust h => exact exhaust h
  | call method receiver args => exact .ask (.invoke method receiver args) (.inl rfl)
  | bind _ _ ihF ihG => exact ihF.bind ihG

/-- A failure that is at hand. -/
theorem fail (f : Failure) : Script strict endless frame? fun _ => (Action.fail f : Run α) :=
  .own (.inr fun _ => trivial) (fun _ => rfl) (.inr fun _ _ => rfl) (fun _ => .of_eq rfl) .refl

/-- The number of open calls. -/
theorem depth : Script strict endless none fun _ => (Action.view Machine.depth : Run Nat) :=
  .own (.inr fun _ => trivial) (fun _ => rfl) (.inl rfl) (fun _ => .of_eq rfl) .refl

/-- Variables are bound in the innermost frame of the scope. -/
theorem setLocal (scope : Scope) (name : NameId) (v : Value) :
    Script strict endless (some scope.inner) fun _ => Run.setLocal scope name v :=
  .own (.inr fun _ => trivial) (fun _ => rfl) (.inr fun _ _ => rfl)
    (fun m => .set m scope name v) fun _ => .of_eq rfl rfl rfl rfl rfl

/-- Binding a constant is a script, as constants are no frames. -/
theorem setConstant (name : NameId) (v : Value) :
    Script strict endless frame? fun _ =>
      (Action.update fun m => { m with constants := m.constants.insert name v } : Run Unit) :=
  .own (.inr fun _ => trivial) (fun _ => rfl) (.inr fun _ _ => rfl) (fun _ => .of_eq rfl)
    fun m => .setConstant m name v

theorem map {F : Perform → Run α} (f : α → β) (hF : Script strict endless frame? F) :
    Script strict endless frame? fun perform => f <$> F perform :=
  hF.bind fun a => quiet (.pure (f a))

theorem ite {c : Prop} [Decidable c] {F G : Perform → Run α} (hF : Script strict endless frame? F)
    (hG : Script strict endless frame? G) :
    Script strict endless frame? fun perform => if c then F perform else G perform := by
  split
  · exact hF
  · exact hG

/-- A loop over a list is a script if its body is one. -/
theorem each {F : α → Perform → Run β} (hF : ∀ a, Script strict endless frame? (F a))
    (as : List α) :
    Script strict endless frame? fun perform => Action.each (fun a => F a perform) as := by
  induction as with
  | nil => exact quiet (.pure [])
  | cons a as ih =>
      simp only [Action.each_cons]
      exact (hF a).bind fun b => ih.bind fun bs => quiet (.pure (b :: bs))

/-- The same of a loop that keeps the last result. -/
theorem last {F : α → Perform → Run β} (hF : ∀ a, Script strict endless frame? (F a)) (as : List α)
    (b : β) :
    Script strict endless frame? fun perform => Action.last (fun a => F a perform) b as := by
  induction as generalizing b with
  | nil => exact quiet (.pure b)
  | cons a as ih =>
      simp only [Action.last_cons]
      exact (hF a).bind ih

/-- A loop that may go on forever is a script where scripts may. -/
theorem untilSome (h : endless) {F : Perform → Run (Option α)}
    (hF : Script strict endless frame? F) (fuel : Nat) :
    Script strict endless frame? fun perform => Action.untilSome (F perform) fuel := by
  induction fuel with
  | zero => exact exhaust h
  | succ fuel ih =>
      simp only [Action.untilSome_succ]
      refine hF.bind fun r => ?_
      cases r with
      | none => exact ih
      | some a => exact quiet (.pure a)

end Script

end MiniRuby
