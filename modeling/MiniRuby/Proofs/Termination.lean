import Mathlib.Data.List.Nodup
import Mathlib.Data.List.Perm.Subperm
import MiniRuby.Proofs.Depth
import MiniRuby.Proofs.Evaluator.Limit
import MiniRuby.Proofs.Evaluator.Parts
import MiniRuby.Proofs.Typing.Boot

/-!
# Programs without loops end

Calls can be nested only so deeply, and evaluating a node leads to smaller nodes until it comes to a
call.  So a program without loops ends, however its methods call each other: what is left of the
depth and the size of the node get smaller with each task that is asked for.

One native method goes on by itself, the one that writes lines: it follows arrays into arrays.  It
ends because it does not follow an array that it is writing already, as long as no arrays are made
in the meantime.  Texts of values are all that it asks for, and the native methods that give these
make no array, so a program without loops has to leave these methods as they are.

* `Script.ended`: what is neither a loop nor writes lines ends if the tasks do that it asks for.
* `KernelOp.steady_putsValue`: writing lines ends.
* `carryOut_ended`: tasks end, by induction on the depth that is left and on the node.
* `loopFree_ends`: programs end.
-/

namespace MiniRuby

open Machine (Leads)
open Run (Safe Yields)

/-! ### Programs without loops -/

/-- Whether a node is no loop, and defines no method that takes the place of those that give the
texts of values. -/
def Node.Straight : Node → Prop
  | .loop _ _ _ => False
  | .methodDef _ name _ _ | .singletonDef _ _ name _ _ => ¬ name.IsTextual
  | _ => True

instance : DecidablePred NameId.IsTextual := fun _ => inferInstanceAs (Decidable (_ ∨ _))

instance : DecidablePred Node.Straight
  | .loop _ _ _ => .isFalse id
  | .methodDef _ name _ _ => inferInstanceAs (Decidable ¬ name.IsTextual)
  | .singletonDef _ _ name _ _ => inferInstanceAs (Decidable ¬ name.IsTextual)
  | .self _ | .nil _ | .int _ _ | .float _ _ | .bool _ _ | .str _ _ | .symbol _ _ | .array _ _
  | .ident _ _ | .instanceVar _ _ | .const _ _ | .assign _ _ _ | .and _ _ _ | .or _ _ _ | .not _ _
  | .stmts _ _ | .cond _ _ _ _ | .guarded _ _ _ _ _ | .breakWith _ _ | .nextWith _ _
  | .returnWith _ _ | .classDef _ _ _ _ | .send _ _ _ _ => .isTrue trivial

/-- Whether a node may stand in a program without loops that was read from a text. -/
def Node.Tame (n : Node) : Prop := n.AimsWell ∧ n.Straight

/-- A tame node is well aimed. -/
theorem Node.Tame.aims (n : Node) (h : n.Tame) : n.AimsWell := h.1

/-- No method that a program without loops defines gives the texts of values. -/
theorem Node.AllDef.not_isTextual {name : NameId} {params : List (Param Node)} {body : Node}
    (h : Node.AllDef Node.Tame name params body) : ¬ name.IsTextual := by
  rcases h with ⟨s, h⟩ | ⟨s, target, h⟩
  · exact (Node.all_here h).2
  · exact (Node.all_here h).2

/-- In a tame program the methods with the names of texts are native ones that only describe a
value. -/
theorem Method.BelongsIn.describes {method : Method} {c : ClassId}
    (h : method.BelongsIn Node.Tame c) (hn : method.name.IsTextual) :
    ∃ name arity op, method = .native name arity op ∧ op.Describes = true := by
  cases method with
  | native name arity op => exact ⟨name, arity, op, rfl, h.2 hn⟩
  | defined name params body scope => exact (h.not_isTextual hn).elim

/-- The methods that give the texts of values are native ones that do no more than that. -/
theorem Machine.Sound.describes {m : Machine} (hm : m.Sound Node.Tame) {v : Value}
    {name : NameId} (hn : name.IsTextual) {method : Method} {owner : ClassId}
    (h : m.findMethod? v name = .ok (some (method, owner))) :
    ∃ name' arity op, method = .native name' arity op ∧ op.Describes = true := by
  obtain ⟨keyed, keyed'⟩ := hm.classes.keyed owner
  rcases of_findMethod? h with ⟨c, -, hf⟩ | ⟨c, -, hf⟩
  · obtain ⟨-, hget⟩ := ClassTable.Sound.exists_of_findIn hf
    have key : method.name = name := keyed.name_eq hget
    exact ((hm.classes.methods owner).get? hget).describes (key.symm ▸ hn)
  · obtain ⟨-, hget⟩ := ClassTable.Sound.exists_of_findIn hf
    have key : method.name = name := keyed'.name_eq hget
    have belongs := (hm.classes.classMethods owner).get? hget
    exact (belongs.belongsIn owner).describes (key.symm ▸ hn)

/-! ### Texts of values -/

/-- What a native method does that only describes its receiver makes no array, unless the receiver
is one. -/
theorem Native.arrays_run {op : Native} (h : op.Describes = true) {v : Value} (hs : op.Suits v)
    (hv : ∀ id, v ≠ .arr id) (fuel : Nat) (invoke : Invoke) (args : List Value) (m : Machine) :
    (op.run fuel invoke v args m).state.heap.arrays.size = m.heap.arrays.size := by
  cases op with
  | object op => cases op with
    | toS => rfl
    | _ => cases h
  | cls op => cases op with
    | name => cases v <;> rfl
    | _ => cases h
  | truth op => cases op with
    | text s => rfl
    | _ => cases h
  | integer op => cases op with
    | toS => cases v <;> rfl
    | _ => cases h
  | float op => cases op with
    | toS => cases v <;> rfl
    | _ => cases h
  | string op => cases op with
    | toS => rfl
    | _ => cases h
  | symbol op => cases op with
    | toS => cases v <;> rfl
    | _ => cases h
  | exception op => cases op with
    | message => rfl
    | _ => cases h
  | reader name => cases v <;> rfl
  | writer name => cases v <;> rfl
  | array op =>
      have hs : v.sort = .array := List.mem_singleton.mp (hs.resolve_left nofun)
      cases v with
      | arr id => exact (hv id rfl).elim
      | bool b => cases b <;> cases hs
      | _ => cases hs
  | kernel | order | bound | gather => cases h

/-- Calling a native method that only describes its receiver makes no array. -/
theorem Perform.arrays_step (P : Perform) {op : Native} (h : op.Describes = true) {v : Value}
    (hs : op.Suits v) (hv : ∀ id, v ≠ .arr id) (fuel : Nat) (name : NameId) (arity : Arity)
    (args : List Value) (m : Machine) :
    (P.step fuel (.invoke (.native name arity op) v args) m).state.heap.arrays.size =
      m.heap.arrays.size := by
  change (P.call fuel (.native name arity op) v args m).state.heap.arrays.size = _
  by_cases hc : (Method.native name arity op).Callable args m
  · have kept := op.arrays_run h hs hv fuel P.invoke args { m with depth := m.depth + 1 }
    rw [call_of_callable hc, Run.nested_apply]
    change (op.run fuel P.invoke v args _).leave.state.heap.arrays.size = _
    cases hx : op.run fuel P.invoke v args { m with depth := m.depth + 1 } <;>
      (rw [hx] at kept; exact kept)
  · obtain ⟨cause, fails⟩ := call_of_not_callable hc
    rw [fails P]
    rfl

/-- A method that describes a value makes no arrays. -/
theorem carryOut_arrays {op : Native} (h : op.Describes = true) {v : Value} (hs : op.Suits v)
    (hv : ∀ id, v ≠ .arr id) (name : NameId) (arity : Arity) (args : List Value) (m : Machine) :
    (carryOut (.invoke (.native name arity op) v args) m).state.heap.arrays.size =
      m.heap.arrays.size := by
  obtain ⟨n, e⟩ := exists_carryOut_eq (.invoke (.native name arity op) v args) m
  rw [e]
  cases n with
  | zero => rfl
  | succ n =>
      rw [perform_succ]
      exact Perform.arrays_step (perform n) h hs hv n name arity args m

/-- A machine goes over into a well-kept one with as many calls open and as many arrays. -/
structure Machine.Follows (m s : Machine) : Prop where
  leads : m.Leads Node.Tame s
  depth : s.depth = m.depth
  arrays : s.heap.arrays.size = m.heap.arrays.size

namespace Machine.Follows

variable {m m₁ m₂ : Machine}

/-- A sound machine follows itself. -/
theorem refl (hm : m.Sound Node.Tame) : m.Follows m := ⟨.refl hm, rfl, rfl⟩

theorem trans (h₁ : m.Follows m₁) (h₂ : m₁.Follows m₂) : m.Follows m₂ :=
  ⟨h₁.leads.trans h₂.leads, h₂.depth.trans h₁.depth, h₂.arrays.trans h₁.arrays⟩

end Machine.Follows

namespace Run

/-- An action ends, with as many calls open and as many arrays as before. -/
structure Steady {α : Type} (m : Machine) (x : Run α) : Prop where
  ended : (x m).Ended
  follows : m.Follows (x m).state

namespace Steady

variable {α β : Type} {m : Machine} {x : Run α}

theorem pure (hm : m.Sound Node.Tame) (a : α) : Steady m (Pure.pure a) := ⟨trivial, .refl hm⟩

/-- Reporting a fault changes nothing. -/
theorem fault (hm : m.Sound Node.Tame) (cause : Fault) : Steady m (Run.fault cause : Run α) :=
  ⟨trivial, .refl hm⟩

/-- Looking at a machine changes nothing. -/
theorem view (hm : m.Sound Node.Tame) (f : Machine → α) : Steady m (Action.view f) :=
  ⟨trivial, .refl hm⟩

theorem ofExcept (hm : m.Sound Node.Tame) (r : Except Fault α) : Steady m (Run.ofExcept r) := by
  cases r with
  | ok a => exact pure hm a
  | error cause => exact fault hm cause

/-- Writing changes the sink only. -/
theorem write (hm : m.Sound Node.Tame) (text : String) : Steady m (Run.write text) := by
  refine ⟨(Quiet.write text).ends m, (Run.safe_write hm text).leads, (Quiet.write text).depth m, ?_⟩
  unfold Run.write
  split
  · rfl
  · split <;> rfl

/-- What follows has to be steady on the machines that the first action goes over into. -/
theorem bind {f : α → Run β} (hx : Steady m x)
    (hf : ∀ a s, x m = .done a s → m.Follows s → Steady s (f a)) : Steady m (x >>= f) := by
  have same := Action.bind_eq_andThen x f m
  have ended := hx.ended
  have follows := hx.follows
  cases e : x m with
  | done a s =>
      rw [e] at same follows
      have h := hf a s e follows
      refine ⟨?_, ?_⟩
      · rw [same]
        exact h.ended
      · rw [same]
        exact follows.trans h.follows
  | failed f s =>
      rw [e] at same follows
      refine ⟨?_, ?_⟩
      · rw [same]
        trivial
      · rw [same]
        exact follows
  | halted s =>
      rw [e] at ended
      exact ended.elim

/-- **A loop** is steady if its body is on all machines that follow. -/
theorem each {f : α → Run β} {as : List α} (hm : m.Sound Node.Tame)
    (hf : ∀ a ∈ as, ∀ s, m.Follows s → Steady s (f a)) : Steady m (Action.each f as) := by
  induction as generalizing m with
  | nil => exact pure hm []
  | cons a as ih =>
      rw [Action.each_cons]
      refine (hf a (.head _) m (.refl hm)).bind fun b s _ hs => ?_
      refine (ih hs.leads.sound fun a' ha' s' hs' =>
        hf a' (.tail _ ha') s' (hs.trans hs')).bind fun bs s' _ hs' => pure hs'.leads.sound _

end Steady

/-! ### Writing lines -/

end Run

open Run (Steady)

/-- Tasks that are ready are carried out to an end when so many calls are open. -/
def EndsAt (d : Nat) : Prop :=
  ∀ task m, task.Ready Node.Tame m → m.depth = d → (carryOut task m).Ended

/-- Carrying out tasks is safe, with as much fuel as they need. -/
theorem carryOut_safe : Perform.IsSafe Node.Tame carryOut := by
  intro task m h
  obtain ⟨n, e⟩ := exists_carryOut_eq task m
  exact (perform_yields Node.Tame.aims n h).congr e

/-- Carrying out tasks puts the depth back. -/
theorem carryOut_balanced : Perform.Balanced carryOut := by
  intro task m
  obtain ⟨n, e⟩ := exists_carryOut_eq task m
  rw [e]
  exact perform_balanced n task m

section Lines

variable {m : Machine} (ends : EndsAt m.depth) (hm : m.Sound Node.Tame)

include ends hm

/-- A native method that describes its receiver is steady, if calls come to an end. -/
theorem Run.steady_describe {op : Native} (h : op.Describes = true) {v : Value}
    (hs : op.Suits v) (hv : ∀ id, v ≠ .arr id) (hl : v.Lives m) {args : List Value}
    (ha : Value.AllLive m args) (name : NameId) (arity : Arity) :
    Steady m (carryOut.invoke (.native name arity op) v args) := by
  have ready : (Task.invoke (.native name arity op) v args).Ready Node.Tame m := ⟨hm, hs, hl, ha⟩
  have ended := ends _ m ready rfl
  refine ⟨ended, (carryOut_safe _ m ready).leads, ?_, carryOut_arrays h hs hv name arity args m⟩
  have balanced := carryOut_balanced (.invoke (.native name arity op) v args) m
  change (carryOut (.invoke (.native name arity op) v args) m).state.depth = m.depth
  cases hx : carryOut (.invoke (.native name arity op) v args) m <;> rw [hx] at balanced ended
  case halted s => exact ended.elim
  all_goals exact balanced

/-- So is a method that is found under a name that the interpreter looks for texts by. -/
theorem Run.steady_found {v : Value} (hv : ∀ id, v ≠ .arr id) (hl : v.Lives m) {name : NameId}
    (hn : name.IsTextual) {method : Method} {owner : ClassId}
    (h : m.findMethod? v name = .ok (some (method, owner))) {args : List Value}
    (ha : Value.AllLive m args) : Steady m (carryOut.invoke method v args) := by
  obtain ⟨name', arity, op, rfl, hd⟩ := hm.describes hn h
  obtain ⟨suits, -⟩ := hm.fits_of_findMethod? hl h
  exact Run.steady_describe ends hm hd suits hv hl ha name' arity

omit ends in
theorem Run.steady_findMethod (v : Value) (name : NameId) : Steady m (Run.findMethod v name) :=
  (Steady.view hm _).bind fun r _ _ hs => .ofExcept hs.leads.sound r

omit ends hm in
/-- A lookup that ends has changed nothing. -/
theorem Run.of_findMethod {v : Value} {name : NameId} {r : Option (Method × ClassId)}
    {s : Machine} (h : Run.findMethod v name m = .done r s) :
    m.findMethod? v name = .ok r ∧ s = m := by
  change Run.ofExcept (m.findMethod? v name) m = _ at h
  cases hf : m.findMethod? v name with
  | ok r' =>
      rw [hf] at h
      cases h
      exact ⟨rfl, rfl⟩
  | error cause =>
      rw [hf] at h
      cases h

/-- **The text of a value** that is no array is told without making arrays. -/
theorem Run.steady_toText {v : Value} (hv : ∀ id, v ≠ .arr id) (hl : v.Lives m) :
    Steady m (Run.toText carryOut.invoke v) := by
  have sent : Steady m (Run.send carryOut.invoke v .toS []) := by
    refine (steady_findMethod hm v .toS).bind fun r s e _ => ?_
    obtain ⟨found, rfl⟩ := of_findMethod e
    rcases r with _ | ⟨method, owner⟩
    · refine (steady_findMethod hm v .methodMissing).bind fun r s' e' _ => ?_
      obtain ⟨found', rfl⟩ := of_findMethod e'
      rcases r with _ | ⟨method, owner⟩
      · exact (Steady.view hm _).bind fun cause _ _ hs => .fault hs.leads.sound cause
      · exact steady_found ends hm hv hl (.inr rfl) found' (.cons trivial .nil)
    · exact steady_found ends hm hv hl (.inl rfl) found .nil
  have text : Steady m (Run.send carryOut.invoke v .toS [] >>= Run.textOr v) :=
    sent.bind fun answer _ _ hs => .view hs.leads.sound _
  cases v with
  | str id => exact .view hm _
  | _ => exact text

end Lines

/-- There are no more arrays that are being written than there are arrays. -/
theorem ArrayId.length_le {path : List ArrayId} (hp : path.Nodup) {n : Nat}
    (h : ∀ id ∈ path, id.index < n) : path.length ≤ n := by
  have inj : Function.Injective ArrayId.index := by
    rintro ⟨i⟩ ⟨j⟩ e
    exact congrArg ArrayId.mk e
  have sub : path.map ArrayId.index ⊆ List.range n := by
    intro i hi
    obtain ⟨id, hid, rfl⟩ := List.mem_map.mp hi
    exact List.mem_range.mpr (h id hid)
  have le := ((List.Nodup.map inj hp).subperm sub).length_le
  simpa using le

/-- **Writing a value ends**, if calls come to an end and there is fuel for all arrays that are not
being written already. -/
theorem KernelOp.steady_putsValue {d : Nat} (ends : EndsAt d) (fuel : Nat) {path : List ArrayId}
    {v : Value} {m : Machine} (hm : m.Sound Node.Tame) (hd : m.depth = d) (hl : v.Lives m)
    (nodup : path.Nodup) (hp : ∀ id ∈ path, id.index < m.heap.arrays.size)
    (hf : m.heap.arrays.size < fuel + path.length) :
    Steady m (putsValue carryOut.invoke fuel path v) := by
  induction fuel generalizing path v m with
  | zero =>
      have le := ArrayId.length_le nodup hp
      omega
  | succ fuel ih =>
      have text : (∀ id, v ≠ .arr id) → Steady m (do
          Run.write (asLine (← Run.toText carryOut.invoke v))) := fun hv =>
        (Run.steady_toText (hd ▸ ends) hm hv hl).bind fun s _ _ hs => .write hs.leads.sound _
      cases v with
      | arr id =>
          simp only [putsValue]
          split
          · exact .write hm _
          · rename_i fresh
            refine (Steady.view hm _).bind fun elements s e hs => ?_
            split
            · exact .write hs.leads.sound _
            -- The array is being written from here on, so it is not followed again.
            · cases e
              refine (Steady.each hm fun w hw s hs => ?_).bind fun _ _ _ hs =>
                .pure hs.leads.sound _
              have lives := hm.elements id w (Array.mem_toList_iff.mp hw)
              refine ih hs.leads.sound (hs.depth.trans hd) (lives.grow hs.leads.grows)
                (List.nodup_cons.mpr ⟨by simpa using fresh, nodup⟩) (fun id' hid' => ?_) ?_
              · rw [hs.arrays]
                rcases List.mem_cons.mp hid' with rfl | hid'
                · exact hl
                · exact hp id' hid'
              · rw [hs.arrays, List.length_cons]
                omega
      | _ => exact text nofun

/-- **Writing lines** ends, as each array on the path is left out below itself. -/
theorem KernelOp.steady_putLines {m : Machine} (ends : EndsAt m.depth) (hm : m.Sound Node.Tame)
    {args : List Value} (ha : Value.AllLive m args) :
    Steady m (putLines (m.heap.arrays.size + 1) carryOut.invoke args) := by
  have lines : ∀ s, m.Follows s → Steady s (do
      let _ ← Action.each (putsValue carryOut.invoke (m.heap.arrays.size + 1) []) args
      pure Value.nil) := by
    intro s hs
    refine (Steady.each hs.leads.sound fun v hv s' hs' => ?_).bind fun _ _ _ hs =>
      .pure hs.leads.sound _
    have hs' := hs.trans hs'
    refine steady_putsValue ends _ hs'.leads.sound hs'.depth ((ha v hv).grow hs'.leads.grows)
      List.nodup_nil nofun ?_
    rw [hs'.arrays]
    exact Nat.lt_succ_self _
  unfold putLines
  split
  · exact (Steady.write hm _).bind fun _ s _ hs => lines s hs
  · exact lines m (.refl hm)

/-! ### All tasks -/

/-- **A script comes to an end** when the tasks do that it asks for, unless it is endless. -/
theorem Script.ended {strict : Prop} {frame? : Option FrameId} {α : Type} {F : Perform → Run α}
    (hF : Script strict False frame? F) {P : Perform} {m : Machine}
    (h : ∀ task s, AsksFor F P m task s → (P task s).Ended) : (F P m).Ended := by
  induction hF generalizing m with
  | own he hd hb hf hm => exact he.resolve_left id m
  | ask task h' => exact h task m (Plan.asks_ask_iff.mpr ⟨rfl, rfl⟩)
  | @bind frame? α β F G hF hG ihF ihG =>
      have first : (F P m).Ended :=
        ihF fun task s asks => h task s ((Plan.asks_bind_iff hF.plan).mpr (.inl asks))
      change ((F P m).andThen fun a => G a P).Ended
      cases hx : F P m with
      | done a s =>
          exact ihG a fun task s' asks =>
            h task s' ((Plan.asks_bind_iff hF.plan).mpr (.inr ⟨a, s, hx, asks⟩))
      | failed f s => trivial
      | halted s =>
          rw [hx] at first
          exact first
  | @inside frame? α G scope hG ihG =>
      refine ihG _ fun task s asks => h task s ?_
      exact (Plan.asks_bind_iff (@Plan.own (fun _ => True) _ _)).mpr (.inr ⟨_, _, rfl, asks⟩)
  | @located frame? α F place hF ih =>
      have inner : (F P m).Ended :=
        ih fun task s asks => h task s (Plan.asks_located_iff.mpr asks)
      change ((F P m).mapError (Failure.locate place)).Ended
      cases hx : F P m <;> rw [hx] at inner <;> exact inner
  | @nested α F hF ih =>
      have inner : (F P { m with depth := m.depth + 1 }).Ended :=
        ih fun task s asks => h task s (Plan.asks_nested_iff.mpr asks)
      change (Run.nested (F P) m).Ended
      rw [Run.nested_apply]
      cases hx : F P { m with depth := m.depth + 1 } <;> rw [hx] at inner <;> exact inner
  | @catching frame? α β F G hF hG pass ihF ihG =>
      have first : (F P m).Ended :=
        ihF fun task s asks => h task s ((Plan.asks_seq_iff hF.plan).mpr (.inl asks))
      have next : ∀ r s, Action.attempt (F P) m = .done r s → (G r P s).Ended :=
        fun r s e => ihG r fun task s' asks =>
          h task s' ((Plan.asks_seq_iff hF.plan).mpr (.inr ⟨r, s, e, asks⟩))
      change ((Action.attempt (F P) >>= fun r => G r P) m).Ended
      rw [Action.attempt_bind_eq_andCatch]
      cases hx : F P m with
      | done a s => exact next (.ok a) s (by rw [Action.attempt, hx])
      | failed f s => exact next (.error f) s (by rw [Action.attempt, hx])
      | halted s =>
          rw [hx] at first
          exact first

/-- How much there is to a task by itself: nothing to a call, and to an evaluation the size of the
node. -/
noncomputable def Task.size : Task → Nat
  | .eval node _ => sizeOf node + 1
  | .invoke _ _ _ => 0

/-- A task is carried out to the end if its step is. -/
theorem carryOut_ended_of_step {fuel : Nat} {task : Task} {m : Machine}
    (h : (carryOut.step fuel task m).Ended) : (carryOut task m).Ended := by
  rw [carryOut_of_step h]
  exact h

/-- A tame tree has no loop at its root. -/
theorem Node.not_isLoop {node : Node} (h : node.All Node.Tame) : ¬ node.IsLoop := by
  intro hl
  have straight := (Node.all_here h).2
  cases node with
  | loop place test body => exact straight
  | _ => exact hl

/-- Calling the method that writes lines comes to an end. -/
theorem carryOut_writesLines {name : NameId} {arity : Arity} {receiver : Value}
    {args : List Value} {m : Machine}
    (hc : (Method.native name arity (.kernel .puts)).Callable args m)
    (ends : EndsAt (m.depth + 1)) (hm : m.Sound Node.Tame) (ha : Value.AllLive m args) :
    (carryOut (.invoke (.native name arity (.kernel .puts)) receiver args) m).Ended := by
  have deeper : m.Leads Node.Tame { m with depth := m.depth + 1 } :=
    hm.leads_of_eq rfl rfl rfl rfl .rfl
  have lines : (KernelOp.putLines (m.heap.arrays.size + 1) carryOut.invoke args
      { m with depth := m.depth + 1 }).Ended :=
    (KernelOp.steady_putLines (m := { m with depth := m.depth + 1 }) ends deeper.sound
      (ha.grow deeper.grows)).ended
  refine @carryOut_ended_of_step (m.heap.arrays.size + 1) _ _ ?_
  change (carryOut.call _ _ receiver args m).Ended
  rw [Perform.call_of_callable hc, Run.nested_apply]
  change (KernelOp.putLines _ carryOut.invoke args _).leave.Ended
  cases hx : KernelOp.putLines (m.heap.arrays.size + 1) carryOut.invoke args
      { m with depth := m.depth + 1 } <;> (rw [hx] at lines; exact lines)

/-- **Tasks that are ready come to an end**, by induction on the depth that is left for calls and,
as long as there is no call, on the size of the node. -/
theorem carryOut_ended : ∀ (task : Task) (m : Machine), task.Ready Node.Tame m →
    (carryOut task m).Ended
  | .eval node env, m, h => by
      refine @carryOut_ended_of_step 0 _ _ ((@Perform.script_step False False 0 (.eval node env)
        nofun (Node.not_isLoop h.2.1)).ended fun task s asks => ?_)
      have ready := AsksFor.ready Node.Tame.aims carryOut_safe asks h
      have depth : s.depth = m.depth := Perform.depth_of_asks carryOut_balanced asks
      have smaller : task.size < (Task.eval node env).size := by
        cases task with
        | eval n env' => exact Nat.succ_lt_succ (Node.lt_of_asks asks)
        | invoke method receiver args => exact Nat.succ_pos _
      exact carryOut_ended task s ready
  | .invoke method receiver args, m, h => by
      by_cases hc : method.Callable args m
      · -- One more call is open for all that the call leads to.
        have left : maxDepth - (m.depth + 1) < maxDepth - m.depth := by
          have := hc.2
          omega
        by_cases hw : method.WritesLines
        · have ends : EndsAt (m.depth + 1) := fun task s ready depth => carryOut_ended task s ready
          cases method with
          | native name arity op =>
              obtain rfl : op = .kernel .puts := hw
              exact carryOut_writesLines hc ends h.1 h.2.2.2
          | defined name params body scope => exact hw.elim
        · refine @carryOut_ended_of_step 0 _ _ ((@Perform.script_step False False 0
            (.invoke method receiver args) nofun hw).ended fun task s asks => ?_)
          have ready := AsksFor.ready Node.Tame.aims carryOut_safe asks h
          have depth : s.depth = m.depth + 1 := Perform.depth_of_asks carryOut_balanced asks
          exact carryOut_ended task s ready
      · obtain ⟨cause, fails⟩ := Perform.call_of_not_callable hc
        refine @carryOut_ended_of_step 0 _ _ ?_
        change (carryOut.call 0 method receiver args m).Ended
        rw [fails]
        trivial
termination_by task m => (maxDepth - m.depth, task.size)
decreasing_by
  · rw [depth]
    exact Prod.Lex.right _ smaller
  · rw [depth]
    exact Prod.Lex.left _ _ left
  · rw [depth]
    exact Prod.Lex.left _ _ left

/-! ### Programs -/

/-- **Programs without loops end.**  If a text has been read on the first machine, and its program
has no loop and defines no method that takes the place of `to_s` or `method_missing`, then its run
comes to a value or an error: with enough fuel it always comes to the same one. -/
theorem loopFree_ends (path text : String) (sink : Sink) (host : Host) (node : Node)
    (m₀ : Machine) (hp : Session.parse path text (Machine.boot sink host) = .done node m₀)
    (hn : node.All Node.Straight) :
    ∃ o : Outcome Machine ProgramError Value, o.Ended ∧ ∃ n,
      (∀ fuel ≥ n, (perform fuel (.eval node .top) { m₀ with depth := 0 }).settle = o) ∧
      (n ≤ budget → Session.run path text (Machine.boot sink host) = o) := by
  have tame : node.All Node.Tame := (wellAimed_of_parse hp).1.and hn
  have ended := carryOut_ended _ _ (ready_of_parse hp tame).1
  obtain ⟨n, e⟩ := exists_carryOut_eq (.eval node .top) { m₀ with depth := 0 }
  have enough : ∀ fuel ≥ n, perform fuel (.eval node .top) { m₀ with depth := 0 } =
      carryOut (.eval node .top) { m₀ with depth := 0 } := by
    intro fuel h
    rw [e]
    exact perform_refines h _ _ (e ▸ ended)
  refine ⟨(carryOut (.eval node .top) { m₀ with depth := 0 }).settle, ended.settle, n, ?_, ?_⟩
  · intro fuel h
    rw [enough fuel h]
  · intro h
    rw [Session.run_of_parse hp]
    exact congrArg Outcome.settle (enough budget h)

/-- A program that makes an object and writes it from within arrays. -/
theorem loopFree_ends_nested : ∃ node m₀,
    Session.parse "" "class X\nend\nputs([[X.new, 1], [2]])" (Machine.boot (.collecting "")) =
      .done node m₀ ∧ node.All Node.Straight ∧
    ∃ o : Outcome Machine ProgramError Value, o.Ended ∧ ∃ n,
      (∀ fuel ≥ n, (perform fuel (.eval node .top) { m₀ with depth := 0 }).settle = o) ∧
      (n ≤ budget → Session.run "" "class X\nend\nputs([[X.new, 1], [2]])"
        (Machine.boot (.collecting "")) = o) := by
  have read : (Session.parse "" "class X\nend\nputs([[X.new, 1], [2]])"
      (Machine.boot (.collecting ""))).DoneWith fun node _ => node.All Node.Straight := by
    decide +kernel
  obtain ⟨node, m₀, hp, hn⟩ := read.exists_eq
  exact ⟨node, m₀, hp, hn, loopFree_ends _ _ _ _ node m₀ hp hn⟩

end MiniRuby
