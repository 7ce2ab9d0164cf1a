import MiniRuby.Proofs.Frames
import MiniRuby.Proofs.Syntax.Variables

/-!
# The variables that are bound

Evaluating a tree binds variables in the frame at hand, but no others than those that the tree
sets, and none is ever unbound.  Calls and the bodies of classes leave the frame alone, as they have
frames of their own.

* `Bindings.Grows`: how the bindings of a frame change when certain variables are set.
* `Run.Binds`: an action binds no variables in a frame but certain ones.
* `Perform.binds_node`: a step that evaluates a tree binds the variables that the tree sets, if the
  tasks that it asks for do so.
* `perform_binds`: so does every task that evaluates a tree.
-/

namespace MiniRuby

open Machine (KeepsFrames)

namespace Bindings

variable {α : Type}

/-- The names of bindings are those that are bound. -/
theorem mem_names_iff {b : Bindings α} {x : NameId} : x ∈ b.names ↔ (b.get? x).isSome = true := by
  rw [names, get?]
  induction b.entries with
  | nil => simp [find]
  | cons e es ih =>
      rw [find, List.map_cons, List.mem_cons]
      split
      · rename_i here
        simp [here]
      · rename_i other
        rw [ih]
        exact or_iff_right fun here => other here.symm

/-- Whether bindings come to be others by setting variables among certain ones only. -/
structure Grows (N : NameId → Prop) (b b' : Bindings α) : Prop where
  bound : ∀ x, (b.get? x).isSome = true → (b'.get? x).isSome = true
  kept : ∀ x, ¬ N x → b'.get? x = b.get? x

namespace Grows

variable {N N' : NameId → Prop} {a b c : Bindings α}

theorem refl (b : Bindings α) : Grows N b b := ⟨fun _ => id, fun _ _ => rfl⟩

theorem trans (h : Grows N a b) (h' : Grows N b c) : Grows N a c :=
  ⟨fun x hx => h'.bound x (h.bound x hx), fun x hx => (h'.kept x hx).trans (h.kept x hx)⟩

theorem mono (h : Grows N a b) (hN : ∀ name, N name → N' name) : Grows N' a b :=
  ⟨h.bound, fun x hx => h.kept x fun hn => hx (hN x hn)⟩

theorem insert {name : NameId} (h : N name) (v : α) : Grows N b (b.insert name v) := by
  refine ⟨fun x hx => ?_, fun x hx => b.get?_insert_of_ne v fun here => hx (here ▸ h)⟩
  rw [get?_insert]
  split
  · rfl
  · exact hx

/-- A name that is bound afterwards was bound before, or is one of the given ones. -/
theorem names (h : Grows N a b) {x : NameId} (hx : x ∈ b.names) : x ∈ a.names ∨ N x := by
  by_cases hN : N x
  · exact .inr hN
  · rw [mem_names_iff, h.kept x hN, ← mem_names_iff] at hx
    exact .inl hx

end Grows

end Bindings

/-- Whether an action binds no variables in a frame but certain ones. -/
def Run.Binds {α : Type} (id : FrameId) (N : NameId → Prop) (x : Run α) : Prop :=
  ∀ m : Machine, id.index < m.frames.frames.size →
    id.index < (x m).state.frames.frames.size ∧
      (m.frames.frame id).Grows N ((x m).state.frames.frame id)

namespace Run.Binds

variable {α β : Type} {id : FrameId} {N N' : NameId → Prop} {x : Run α} {f : α → Run β}

/-- An action that binds some names only binds no others of more names. -/
theorem mono (h : Binds id N x) (hN : ∀ name, N name → N' name) : Binds id N' x :=
  fun m hm => ⟨(h m hm).1, (h m hm).2.mono hN⟩

/-- What keeps all frames binds nothing. -/
theorem of_keeps (h : ∀ m, KeepsFrames none m (x m).state) : Binds id N x :=
  fun m hm => ⟨Nat.lt_of_lt_of_le hm (h m).size_le, by
    rw [(h m).frame_eq id hm nofun]
    exact .refl _⟩

/-- A quiet action binds no name, as frames are left alone by it. -/
theorem quiet (h : x.Quiet) : Binds id N x := of_keeps fun m => .of_eq (h.frames m)

theorem view (f : Machine → α) : Binds id N (Action.view f) := of_keeps fun _ => .of_eq rfl

theorem fail (e : Failure) : Binds id N (Action.fail e : Run α) := of_keeps fun _ => .of_eq rfl

theorem exhaust : Binds id N (Action.exhaust : Run α) := of_keeps fun _ => .of_eq rfl

/-- Where an action has come to, another one goes on. -/
theorem after {o : Outcome Machine Failure α}
    {g : Outcome Machine Failure α → Outcome Machine Failure β} {m : Machine}
    (h : id.index < o.state.frames.frames.size ∧
      (m.frames.frame id).Grows N (o.state.frames.frame id))
    (hg : (g o).state = o.state ∨ ∃ y : Run β, Binds id N y ∧ (g o).state = (y o.state).state) :
    id.index < (g o).state.frames.frames.size ∧
      (m.frames.frame id).Grows N ((g o).state.frames.frame id) := by
  rcases hg with hg | ⟨y, hy, hg⟩
  · rw [hg]
    exact h
  · rw [hg]
    exact ⟨(hy _ h.1).1, h.2.trans (hy _ h.1).2⟩

/-- What follows an answer of which something is known. -/
theorem bind_of {R : α → Prop} (hx : Binds id N x) (hr : ∀ m a m', x m = .done a m' → R a)
    (hf : ∀ a, R a → Binds id N (f a)) : Binds id N (x >>= f) := by
  intro m hm
  rw [Action.bind_eq_andThen]
  refine after (g := fun o => o.andThen f) (hx m hm) ?_
  cases h : x m with
  | done a s => exact .inr ⟨f a, hf a (hr m a s h), rfl⟩
  | failed e s | halted s => exact .inl rfl

/-- **Actions in a row** bind what each of them binds. -/
theorem bind (hx : Binds id N x) (hf : ∀ a, Binds id N (f a)) : Binds id N (x >>= f) :=
  hx.bind_of (fun _ _ _ _ => trivial) fun a _ => hf a

/-- What follows an answer or a failure. -/
theorem catching {g : Except Failure α → Run β} (hx : Binds id N x) (hg : ∀ r, Binds id N (g r)) :
    Binds id N (Action.attempt x >>= g) := by
  intro m hm
  rw [Action.attempt_bind_eq_andCatch]
  refine after (g := fun o => o.andCatch g) (hx m hm) ?_
  cases x m with
  | done a s => exact .inr ⟨g (.ok a), hg _, rfl⟩
  | failed e s => exact .inr ⟨g (.error e), hg _, rfl⟩
  | halted s => exact .inl rfl

theorem located (place : Span) (hx : Binds id N x) : Binds id N (Run.located place x) := by
  intro m hm
  rw [Run.located, Action.mapError_eq, Outcome.state_mapError]
  exact hx m hm

/-- Setting a local binds its name in the innermost frame. -/
theorem setLocal {scope : Scope} {name : NameId} (v : Value) (h : N name) :
    Binds scope.inner N (Run.setLocal scope name v) := by
  intro m hm
  change scope.inner.index < (m.frames.set scope name v).frames.size ∧
    Bindings.Grows N _ ((m.frames.set scope name v).frame scope.inner)
  rw [FrameStore.frame_set, if_pos ⟨rfl, hm⟩]
  exact ⟨by simpa [FrameStore.set] using hm, .insert h v⟩

theorem ite {c : Prop} [Decidable c] {y : Run α} (hx : Binds id N x) (hy : Binds id N y) :
    Binds id N (if c then x else y) := by
  split
  · exact hx
  · exact hy

/-- A loop binds what its body binds for some element. -/
theorem each {g : α → Run β} {as : List α} (h : ∀ a ∈ as, Binds id N (g a)) :
    Binds id N (Action.each g as) := by
  induction as with
  | nil => exact quiet (.pure _)
  | cons a as ih =>
      rw [Action.each_cons]
      exact (h a (.head _)).bind fun _ => (ih fun a ha => h a (.tail _ ha)).bind fun _ =>
        quiet (.pure _)

/-- The same of a loop that keeps the last result. -/
theorem last {g : α → Run β} {as : List α} (h : ∀ a ∈ as, Binds id N (g a)) (b : β) :
    Binds id N (Action.last g b as) := by
  induction as generalizing b with
  | nil => exact quiet (.pure _)
  | cons a as ih =>
      rw [Action.last_cons]
      exact (h a (.head _)).bind fun b => ih (fun a ha => h a (.tail _ ha)) b

/-- A loop that ends on a result binds what its body does. -/
theorem untilSome {y : Run (Option α)} (h : Binds id N y) (fuel : Nat) :
    Binds id N (Action.untilSome y fuel) := by
  induction fuel with
  | zero => exact exhaust
  | succ fuel ih =>
      rw [Action.untilSome_succ]
      refine h.bind fun r => ?_
      cases r with
      | none => exact ih
      | some a => exact quiet (.pure a)

end Run.Binds

open Run (Binds)

namespace Perform

/-- A way of carrying out tasks in which calls keep all frames, and a tree binds the variables that
it sets. -/
structure Binding (P : Perform) : Prop where
  keeps : ∀ task m, KeepsFrames task.frame? m (P task m).state
  binds : ∀ node env, Binds env.scope.inner (· ∈ node.vars) (P (.eval node env))

variable {P : Perform} (hP : P.Binding) {env : Env} {N : NameId → Prop} {α : Type}

include hP

/-- A part of a node binds variables of the part. -/
theorem binds_eval {node : Node} (h : ∀ name ∈ node.vars, N name) :
    Binds env.scope.inner N (P.eval env node) :=
  (hP.binds node env).mono h

theorem binds_evalAll {nodes : List Node} (h : ∀ name ∈ Node.varsAll nodes, N name) :
    Binds env.scope.inner N (Action.each (P.eval env) nodes) :=
  .each fun node hn => binds_eval hP fun name hv => h name (Node.mem_varsAll.mpr ⟨node, hn, hv⟩)

/-- What only calls binds nothing. -/
theorem binds_script {F : Perform → Run α} (hF : Script False True none F) {id : FrameId} :
    Binds id N (F P) :=
  .of_keeps fun m => hF.keepsFrames hP.keeps m

/-- A name that stands alone is read or called, and is never bound. -/
theorem binds_bareName (place : Span) (name : NameId) :
    Binds env.scope.inner N (P.bareName env place name) := by
  refine .bind (.view _) fun r => ?_
  cases r with
  | some v => exact .quiet (.pure v)
  | none =>
      refine .bind (.quiet (.findMethod env.self name)) fun r => ?_
      cases r with
      | some found => exact .located place (binds_script hP (script_send env.self name []))
      | none => exact .bind (.view _) fun _ => .located place (.quiet (.fault _))

/-- **A call** binds what its receiver and its arguments do, as the body of a method has its own
frame. -/
theorem binds_send (place : Span) (receiver? : Option Node) (name : NameId) (args : List Node)
    (h : ∀ x ∈ (Node.send place receiver? name args).vars, N x) :
    Binds env.scope.inner N (P.send env place receiver? name args) := by
  cases receiver? with
  | some node =>
      simp only [Node.vars, List.mem_append] at h
      exact (binds_eval hP fun x hx => h x (.inl hx)).bind fun receiver =>
        (binds_evalAll hP fun x hx => h x (.inr hx)).bind fun args =>
          .located place (binds_script hP (script_send receiver name args))
  | none =>
      rw [Node.vars] at h
      refine (binds_evalAll hP h).bind fun args => .bind (.view _) fun r => ?_
      have self : Binds env.scope.inner N
          (Run.located place (Run.send P.invoke env.self name args)) :=
        .located place (binds_script hP (script_send env.self name args))
      rcases r with _ | v
      · exact self
      · cases v with
        | bound id =>
            exact .located place (binds_script hP (.ofCalls (Run.calls_callBound id args)))
        | _ => exact self

/-- **An assignment** binds its target, and what the parts of the target bind. -/
theorem binds_assign (target : Node) (v : Value)
    (h : ∀ x ∈ target.assigned ++ target.vars, N x) :
    Binds env.scope.inner N (P.assign env target v) := by
  cases target with
  | ident place name =>
      exact .bind (.setLocal v (h name (by simp [Node.assigned]))) fun _ => .quiet (.pure v)
  | instanceVar place name => exact .located place (.quiet (.setVariable env.self name v))
  | const place name =>
      exact .bind (.of_keeps fun _ => .of_eq rfl) fun _ => .quiet (.pure v)
  | send place receiver? name args =>
      cases receiver? with
      | some node =>
          simp only [Node.assigned, Node.vars, List.nil_append, List.mem_append] at h
          exact (binds_eval hP fun x hx => h x (.inl hx)).bind fun receiver =>
            (binds_evalAll hP fun x hx => h x (.inr hx)).bind fun args =>
              .bind (.quiet (quiet_setterOf name)) fun setter =>
                .bind (.located place (binds_script hP (script_send receiver setter (args ++ [v]))))
                  fun _ => .quiet (.pure v)
      | none => exact .located _ (.quiet (.fault _))
  | _ => exact .located _ (.quiet (.fault _))

/-- One round of a loop binds what the test and the body do. -/
theorem binds_pass {test body : Node} (h : ∀ x ∈ test.vars ++ body.vars, N x) :
    Binds env.scope.inner N (P.pass env test body) := by
  simp only [List.mem_append] at h
  refine (binds_eval hP fun x hx => h x (.inl hx)).bind fun v => .ite ?_ (.quiet (.pure _))
  refine (binds_eval hP fun x hx => h x (.inr hx)).catching fun r => ?_
  rcases r with ⟨signal, place?⟩ | v
  · cases signal with
    | broke v | skipped v => exact .quiet (.pure _)
    | _ => exact .fail _
  · exact .quiet (.pure _)

/-- Looking for a clause binds what the classes in the clauses do. -/
theorem binds_findRescue (c : ClassId) (clauses : List (RescueClause Node))
    (h : ∀ x ∈ Node.varsRescues clauses, N x) :
    Binds env.scope.inner N (P.findRescue env c clauses) := by
  induction clauses with
  | nil => exact .quiet (.pure none)
  | cons clause clauses ih =>
      simp only [Node.mem_varsRescues] at h ih
      have next := ih <| by
        rintro x ⟨d, hd, hx⟩
        exact h x ⟨d, .tail _ hd, hx⟩
      have rest : ∀ classes : List ClassId, Binds env.scope.inner N (do
          if ← Action.view fun m : Machine => classes.any fun a => m.classes.isSubclass c a then
            pure (some clause)
          else P.findRescue env c clauses) := fun classes =>
        .bind (.view _) fun _ => .ite (.quiet (.pure _)) next
      have listed : ∀ node ∈ clause.classes, Binds env.scope.inner N (P.rescueClass env node) := by
        intro node hn
        refine (binds_eval hP fun x hx => h x ⟨clause, .head _, ?_⟩).bind fun v => ?_
        · simp only [Node.ofClause, List.mem_append]
          exact .inl (.inl (Node.mem_varsAll.mpr ⟨node, hn, hx⟩))
        · cases v with
          | cls c => exact .quiet (.pure c)
          | _ => exact .located node.span (.quiet (.fault _))
      simp only [findRescue]
      split
      · exact .bind (.quiet (.pure _)) rest
      · exact .bind (.each listed) rest

/-- A clause that fits binds the name for its exception. -/
theorem binds_handle (clause : RescueClause Node) (e : Value)
    (h : ∀ x ∈ Node.ofClause clause, N x) : Binds env.scope.inner N (P.handle env clause e) := by
  simp only [Node.ofClause, List.mem_append, Option.mem_toList] at h
  have body : Binds env.scope.inner N (P.eval env clause.body) :=
    binds_eval hP fun x hx => h x (.inr hx)
  unfold handle
  cases hb : clause.binder? with
  | none => exact .bind (.quiet (.pure ())) fun _ => body
  | some name => exact .bind (.setLocal e (h name (.inl (.inr hb)))) fun _ => body

/-- A rescued body binds what any of its parts does. -/
theorem binds_rescued {body otherwise : Node} {rescues : List (RescueClause Node)}
    (h : ∀ x ∈ body.vars ++ Node.varsRescues rescues ++ otherwise.vars, N x) :
    Binds env.scope.inner N (P.rescued env body rescues otherwise) := by
  simp only [List.mem_append] at h
  refine (binds_eval hP fun x hx => h x (.inl (.inl hx))).catching fun r => ?_
  rcases r with ⟨signal, place?⟩ | v
  · cases signal with
    | raised e =>
        refine .bind (.view _) fun r => .bind (.quiet (.ofExcept r)) fun c => ?_
        have clauses : ∀ x ∈ Node.varsRescues rescues, N x := fun x hx => h x (.inl (.inr hx))
        refine (binds_findRescue hP c rescues clauses).bind_of
          (fun _ _ _ => mem_of_findRescue) fun found hmem => ?_
        cases found with
        | none => exact .fail _
        | some clause =>
            exact binds_handle hP clause e fun x hx =>
              clauses x (Node.mem_varsRescues.mpr ⟨clause, hmem clause rfl, hx⟩)
    | _ => exact .fail _
  · exact .ite (.quiet (.pure v)) (binds_eval hP fun x hx => h x (.inr hx))

/-- So does a body with a cleanup. -/
theorem binds_ensured {cleanup : Node} {x : Run Value} (hx : Binds env.scope.inner N x)
    (h : ∀ name ∈ cleanup.vars, N name) :
    Binds env.scope.inner N (P.ensured env cleanup x) := by
  have result : ∀ r : Except Failure Value,
      Binds env.scope.inner N (Action.ofExcept r : Run Value) := by
    intro r
    cases r with
    | ok v => exact .quiet (.pure v)
    | error f => exact .fail f
  exact hx.catching fun r => .ite (.bind (binds_eval hP h) fun _ => result r) (result r)

/-- The body of a class has a frame of its own, so only the parent is left to bind names. -/
theorem binds_classDef (place : Span) (name : NameId) (parent? : Option Node) (body : Node)
    (h : ∀ x ∈ (Node.classDef place name parent? body).vars, N x) :
    Binds env.scope.inner N (P.classDef env place name parent? body) := by
  -- The body is evaluated in a frame of its own.
  have rest : ∀ above, Binds env.scope.inner N (do
      let c ← Run.located place (openClass name above)
      let scope ← Run.openScope env.scope
      P.eval ⟨scope, .cls c⟩ body) := by
    intro above
    refine .bind (.located place (.quiet (quiet_openClass name above))) fun c => ?_
    exact binds_script hP (.inside env.scope fun scope => script_eval ⟨scope, .cls c⟩ body)
  cases parent? with
  | none => exact .bind (.quiet (.pure none)) rest
  | some node =>
      rw [Node.vars] at h
      refine .bind (.bind (.bind (binds_eval hP h) fun v => ?_) fun _ => .quiet (.pure _)) rest
      cases v with
      | cls c => exact .quiet (.pure c)
      | _ => exact .bind (.view _) fun _ => .located node.span (.quiet (.fault _))

/-- A definition on an object binds what the expression for the object does. -/
theorem binds_singletonDef (place : Span) {target : Node} (method : Method)
    (h : ∀ x ∈ target.vars, N x) :
    Binds env.scope.inner N (P.singletonDef env place target method) := by
  refine (binds_eval hP h).bind fun v => ?_
  cases v with
  | cls c =>
      exact .bind (.quiet (.updateClasses fun t => .addClassMethod t c method)) fun _ =>
        .quiet (.pure _)
  | _ => exact .bind (.view _) fun _ => .located place (.quiet (.fault _))

/-- **Evaluating a tree binds the variables that it sets**, if the tasks that it asks for do. -/
theorem binds_node (fuel : Nat) (node : Node) :
    Binds env.scope.inner (· ∈ node.vars) (P.node fuel env node) := by
  cases node with
  | self | nil | int | float | bool | symbol => exact .quiet (.pure _)
  | str place s => exact .quiet (.newString s)
  | array place nodes =>
      rw [Node.vars]
      exact (binds_evalAll hP fun _ => id).bind fun _ => .quiet (.newArray _)
  | ident place name => exact binds_bareName hP place name
  | instanceVar place name => exact .quiet (.getVariable env.self name)
  | const place name =>
      exact .bind (.view _) fun r => .located place (.quiet (.ofExcept r))
  | assign place target value =>
      rw [Node.vars]
      exact (binds_eval hP fun _ h => List.mem_append_right _ h).bind fun v =>
        binds_assign hP target v fun _ h => List.mem_append_left _ h
  | and place left right =>
      rw [Node.vars]
      exact (binds_eval hP fun _ h => List.mem_append_left _ h).bind fun v =>
        .ite (binds_eval hP fun _ h => List.mem_append_right _ h) (.quiet (.pure v))
  | or place left right =>
      rw [Node.vars]
      exact (binds_eval hP fun _ h => List.mem_append_left _ h).bind fun v =>
        .ite (.quiet (.pure v)) (binds_eval hP fun _ h => List.mem_append_right _ h)
  | not place operand =>
      rw [Node.vars]
      exact (binds_eval hP fun _ => id).bind fun _ => .quiet (.pure _)
  | stmts place nodes =>
      rw [Node.vars]
      exact .last (fun n hn => binds_eval hP fun x hx => Node.mem_varsAll.mpr ⟨n, hn, hx⟩) .nil
  | cond place test yes no =>
      rw [Node.vars]
      exact (binds_eval hP fun _ h => by simp [h]).bind fun _ =>
        .ite (binds_eval hP fun _ h => by simp [h]) (binds_eval hP fun _ h => by simp [h])
  | loop place test body =>
      rw [Node.vars]
      exact .untilSome (binds_pass hP fun _ => id) fuel
  | guarded place body rescues otherwise cleanup =>
      rw [Node.vars]
      exact binds_ensured hP (binds_rescued hP fun _ h => List.mem_append_left _ h)
        fun _ h => List.mem_append_right _ h
  | breakWith place value | nextWith place value | returnWith place value =>
      rw [Node.vars]
      exact (binds_eval hP fun _ => id).bind fun _ => .fail _
  | methodDef place name params body =>
      exact .bind (.quiet (quiet_definitionClass env.self)) fun c =>
        .bind (.quiet (.updateClasses fun t => .addMethod t c _)) fun _ => .quiet (.pure _)
  | singletonDef place target name params body =>
      rw [Node.vars]
      exact binds_singletonDef hP place _ fun _ => id
  | classDef place name parent? body => exact binds_classDef hP place name parent? body fun _ => id
  | send place receiver? name args => exact binds_send hP place receiver? name args fun _ => id

end Perform

/-- **Evaluating a tree binds the variables that it sets**, by induction on the fuel. -/
theorem perform_binds (fuel : Nat) (node : Node) (env : Env) :
    Binds env.scope.inner (· ∈ node.vars) (perform fuel (.eval node env)) := by
  induction fuel generalizing node env with
  | zero => exact .of_keeps fun _ => .of_eq rfl
  | succ fuel ih =>
      rw [perform_succ]
      exact Perform.binds_node ⟨perform_keepsFrames fuel, ih⟩ fuel node

end MiniRuby
