import MiniRuby.Boot
import MiniRuby.Proofs.Evaluator.Reach
import MiniRuby.Proofs.Frames

/-!
# Evaluation loses nothing

What a machine has, it has for good.  A step by itself lets the machine grow only, and so do the
tasks that it asks for, so all that is there when an evaluation begins is there when it ends,
however it ends.

* `Script.evolves`: a script lets the machine grow, if the tasks that it asks for do so.
* `perform_evolves`: so does every task, however much fuel it is given.
* `nothing_lost`: sending a message, calling a method and evaluating a node keep the classes of
  all cells, add to strings at most, and take away no instance variable, class, constant or name.
-/

namespace MiniRuby

open Machine (Evolves)

theorem Outcome.evolves_leave {α : Type} {m : Machine} {o : Outcome Machine Failure α}
    (h : m.Evolves o.state) : m.Evolves o.leave.state := by
  cases o with
  | done a s | failed f s => exact h.trans (.of_eq rfl rfl rfl rfl rfl)
  | halted s => exact h

/-- **A script lets the machine grow**, if each task that it asks for does so. -/
theorem Script.evolves {strict endless : Prop} {frame? : Option FrameId} {α : Type}
    {F : Perform → Run α} (hF : Script strict endless frame? F) {P : Perform}
    (hP : ∀ task (m : Machine), m.Evolves (P task m).state) (m : Machine) :
    m.Evolves (F P m).state := by
  induction hF generalizing m with
  | own he hd hb hf hm => exact hm m
  | ask task h => exact hP task m
  | @bind frame? α β F G hF hG ihF ihG =>
      have grown := ihF m
      change m.Evolves ((F P m).andThen fun a => G a P).state
      cases hx : F P m with
      | done a s =>
          rw [hx] at grown
          exact grown.trans (ihG a s)
      | failed f s | halted s =>
          rw [hx] at grown
          exact grown
  | inside scope hG ihG =>
      have opened : m.Evolves { m with frames := (m.frames.child scope).2 } :=
        .of_eq rfl rfl rfl rfl rfl
      exact opened.trans (ihG _ _)
  | @located frame? α F place hF ih =>
      change m.Evolves ((F P m).mapError (Failure.locate place)).state
      rw [Outcome.state_mapError]
      exact ih m
  | @nested α F hF ih =>
      change m.Evolves (Run.nested (F P) m).state
      rw [Run.nested_apply]
      have entered : m.Evolves { m with depth := m.depth + 1 } := .of_eq rfl rfl rfl rfl rfl
      exact Outcome.evolves_leave (entered.trans (ih _))
  | @catching frame? α β F G hF hG pass ihF ihG =>
      have grown := ihF m
      change m.Evolves ((Action.attempt (F P) >>= fun r => G r P) m).state
      rw [Action.attempt_bind_eq_andCatch]
      cases hx : F P m with
      | done a s =>
          rw [hx] at grown
          exact grown.trans (ihG (.ok a) s)
      | failed f s =>
          rw [hx] at grown
          exact grown.trans (ihG (.error f) s)
      | halted s =>
          rw [hx] at grown
          exact grown

/-- **A task lets the machine grow**, by induction on its fuel. -/
theorem perform_evolves (fuel : Nat) (task : Task) (m : Machine) :
    m.Evolves (perform fuel task m).state := by
  induction fuel generalizing task m with
  | zero => cases task <;> exact .refl m
  | succ fuel ih =>
      rw [perform_succ]
      exact (@Perform.script_step False True fuel task nofun fun _ => trivial).evolves ih m

/-- The machine has grown until a task is asked for: halted there, the script lets it grow still. -/
theorem AsksFor.evolves {strict endless : Prop} {frame? : Option FrameId} {α : Type}
    {F : Perform → Run α} (hF : Script strict endless frame? F) {P : Perform}
    (hP : ∀ task (m : Machine), m.Evolves (P task m).state) {m s : Machine} {task : Task}
    (h : AsksFor F P m task s) : m.Evolves s := by
  have tasks : ∀ t (n : Machine), n.Evolves (P.haltingAt task s s t n).state := by
    intro t n
    by_cases e : t = task ∧ n = s
    · obtain ⟨rfl, rfl⟩ := e
      rw [Perform.haltingAt_self]
      exact .refl _
    · rw [P.haltingAt_of_ne s e]
      exact hP t n
  have grown := hF.evolves tasks m
  rwa [h s] at grown

theorem Moment.Asks.evolves {x y : Moment} (h : x.Asks y) : x.machine.Evolves y.machine :=
  AsksFor.evolves (@Perform.script_step False True y.fuel x.task nofun fun _ => trivial)
    (perform_evolves y.fuel) h.2

theorem Moment.Reaches.evolves {x y : Moment} (h : x.Reaches y) : x.machine.Evolves y.machine := by
  induction h with
  | refl => exact .refl _
  | tail _ asks ih => exact ih.trans asks.evolves

/-! ### The first machine -/

namespace Machine

theorem evolves_installAll (es : List NativeEntry) (m : Machine) :
    m.Evolves (es.foldl install m) := by
  induction es generalizing m with
  | nil => exact .refl m
  | cons e es ih =>
      have installed : m.Evolves (m.install e) :=
        { Evolves.refl m with
          names := .intern .refl e.name
          classes := .addMethod m.classes e.owner _ }
      exact installed.trans (ih (m.install e))

/-- The machine that programs start from has grown from the one without methods. -/
theorem evolves_boot (sink : Sink) (host : Host) : (bare sink host).Evolves (boot sink host) :=
  evolves_installAll Catalogue.entries (bare sink host)

theorem frames_installAll (es : List NativeEntry) (m : Machine) :
    (es.foldl install m).frames = m.frames := by
  induction es generalizing m with
  | nil => rfl
  | cons e es ih => exact ih (m.install e)

@[simp] theorem frames_boot (sink : Sink) (host : Host) : (boot sink host).frames = .initial :=
  frames_installAll Catalogue.entries (bare sink host)

end Machine

/-! ### What is kept -/

namespace Machine

/-- All that a machine has, another one has as well.  Strings may have been added to, arrays and
instance variables may hold other values, classes may have other methods, and constants may stand
for other values; nothing else about what is there is different. -/
structure LosesNothing (m m' : Machine) : Prop where
  /-- A string keeps its class, and what it said is where its text begins. -/
  string : ∀ id : StringId, id.index < m.heap.strings.size → id.index < m'.heap.strings.size ∧
    (m'.heap.string id).cls = (m.heap.string id).cls ∧
    ∃ more, m'.heap.text id = m.heap.text id ++ more
  array : ∀ id : ArrayId, id.index < m.heap.arrays.size → id.index < m'.heap.arrays.size ∧
    (m'.heap.array id).cls = (m.heap.array id).cls
  /-- An object keeps its class, and its instance variables stay set. -/
  object : ∀ id : ObjectId, id.index < m.heap.objects.size → id.index < m'.heap.objects.size ∧
    (m'.heap.object id).cls = (m.heap.object id).cls ∧
    ∀ name, (m.heap.ivar? id name).isSome = true → (m'.heap.ivar? id name).isSome = true
  /-- A bound method is what it was. -/
  bound : ∀ id : BoundId, id.index < m.heap.bounds.size → id.index < m'.heap.bounds.size ∧
    m'.heap.bound id = m.heap.bound id
  /-- A class keeps its name, the classes above it, and what its instances carry, whether it says
  so itself or leaves it to a class above. -/
  cls : ∀ c : ClassId, c.index < m.classes.classes.size → c.index < m'.classes.classes.size ∧
    m'.classes.name c = m.classes.name c ∧ m'.classes.parent? c = m.classes.parent? c ∧
    m'.classes.ancestors c = m.classes.ancestors c ∧
    (m'.classes.get c).payload? = (m.classes.get c).payload? ∧
    m'.classes.payload c = m.classes.payload c
  /-- The name of a class goes on standing for it. -/
  known : ∀ name c, m.classes.find? name = some c → m'.classes.find? name = some c
  constant : ∀ name, (m.constants.get? name).isSome = true →
    (m'.constants.get? name).isSome = true
  /-- A name keeps its position. -/
  named : ∀ text id, m.names.find? text = some id → m'.names.find? text = some id
  text : ∀ id : NameId, id.index < m.names.entries.size → id.index < m'.names.entries.size ∧
    m'.names.text id = m.names.text id

theorem Evolves.losesNothing {m m' : Machine} (h : m.Evolves m') : m.LosesNothing m' where
  string := h.heap.string
  array := h.heap.array
  object := h.heap.object
  bound := h.heap.bound
  cls c hc := by
    have same := h.classes.kept hc
    refine ⟨Nat.lt_of_lt_of_le hc h.classes.size_le, same.name, ?_, h.classes.ancestors_eq hc,
      same.payload?, h.classes.payload_eq hc⟩
    rw [ClassTable.parent?, same.above]
    rfl
  known _ _ := h.classes.find?_eq
  constant := h.constants
  named _ _ := h.names.find?_eq
  text id hid := ⟨h.names.toExtends.has hid, h.names.toExtends.text_eq id hid⟩

end Machine

/-- **Evaluation loses nothing.**  Whatever the machine and the fuel, and however it ends: sending a
message, calling a method and evaluating a node lead to a machine that has all that was there. -/
theorem nothing_lost (fuel : Nat) (m : Machine) :
    (∀ receiver name args,
      m.LosesNothing (Run.send (Perform.invoke (perform fuel)) receiver name args m).state) ∧
    (∀ method receiver args,
      m.LosesNothing (perform fuel (.invoke method receiver args) m).state) ∧
    (∀ env node, m.LosesNothing (perform fuel (.eval node env) m).state) := by
  refine ⟨fun receiver name args => ?_, fun method receiver args => ?_, fun env node => ?_⟩
  · exact Evolves.losesNothing
      ((@Perform.script_send False False none receiver name args).evolves (perform_evolves fuel) m)
  · exact Evolves.losesNothing (perform_evolves fuel (.invoke method receiver args) m)
  · exact Evolves.losesNothing (perform_evolves fuel (.eval node env) m)

end MiniRuby
