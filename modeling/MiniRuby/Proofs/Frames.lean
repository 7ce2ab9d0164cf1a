import MiniRuby.Proofs.Evaluator.Step

/-!
# Calls keep the local variables of others

Variables are bound in one frame, the innermost one of the scope at hand.  A call runs in a frame
of its own, which is opened for it, and so does the body of a class.  So a call changes none of
the frames that were there before it, and evaluating a node changes one of them at most.

* `Script.keepsFrames`: a script binds variables in the frame that it is given, if the tasks that
  it asks for do so in theirs.
* `perform_keepsFrames`: so does every task, however much fuel it is given and however it ends.
* `frames_kept`: sending a message and calling a method keep all frames, and evaluating a node
  keeps all frames but the innermost one of its scope.
-/

namespace MiniRuby

open Machine (KeepsFrames)

@[simp] theorem Outcome.state_mapError {σ ε ε' α : Type} (f : ε → ε') (o : Outcome σ ε α) :
    (o.mapError f).state = o.state := by
  cases o <;> rfl

theorem Run.frames_state_nested {α : Type} (x : Run α) (m : Machine) :
    (Run.nested x m).state.frames = (x { m with depth := m.depth + 1 }).state.frames := by
  rw [Run.nested_apply]
  cases x { m with depth := m.depth + 1 } <;> rfl

/-- **A script keeps the other frames.**  It binds variables in the frame that it is given and in
new ones, if each task that it asks for does so. -/
theorem Script.keepsFrames {strict endless : Prop} {frame? : Option FrameId} {α : Type}
    {F : Perform → Run α} (hF : Script strict endless frame? F) {P : Perform}
    (hP : ∀ task m, KeepsFrames task.frame? m (P task m).state) (m : Machine) :
    KeepsFrames frame? m (F P m).state := by
  induction hF generalizing m with
  | own he hd hb hf hm => exact hf m
  | ask task h =>
      have kept := hP task m
      rcases h with h | h <;> rw [h] at kept
      · exact kept.weaken
      · exact kept
  | @bind frame? α β F G hF hG ihF ihG =>
      have kept := ihF m
      change KeepsFrames frame? m ((F P m).andThen fun a => G a P).state
      cases hx : F P m with
      | done a s =>
          rw [hx] at kept
          exact kept.trans (ihG a s)
      | failed f s =>
          rw [hx] at kept
          exact kept
      | halted s =>
          rw [hx] at kept
          exact kept
  | inside scope hG ihG => exact .child scope (ihG _ _)
  | @located frame? α F place hF ih =>
      change KeepsFrames frame? m ((F P m).mapError (Failure.locate place)).state
      rw [Outcome.state_mapError]
      exact ih m
  | @nested α F hF ih =>
      have kept := ih { m with depth := m.depth + 1 }
      have same := Run.frames_state_nested (F P) m
      refine ⟨?_, fun id hid he => ?_⟩
      · rw [same]
        exact kept.size_le
      · rw [same]
        exact kept.frame_eq id hid he
  | @catching frame? α β F G hF hG pass ihF ihG =>
      have kept := ihF m
      change KeepsFrames frame? m ((Action.attempt (F P) >>= fun r => G r P) m).state
      rw [Action.attempt_bind_eq_andCatch]
      cases hx : F P m with
      | done a s =>
          rw [hx] at kept
          exact kept.trans (ihG (.ok a) s)
      | failed f s =>
          rw [hx] at kept
          exact kept.trans (ihG (.error f) s)
      | halted s =>
          rw [hx] at kept
          exact kept

/-- **A task keeps the other frames**, by induction on its fuel. -/
theorem perform_keepsFrames (fuel : Nat) (task : Task) (m : Machine) :
    KeepsFrames task.frame? m (perform fuel task m).state := by
  induction fuel generalizing task m with
  | zero =>
      cases task <;> exact .of_eq rfl
  | succ fuel ih =>
      rw [perform_succ]
      exact (@Perform.script_step False True fuel task nofun fun _ => trivial).keepsFrames ih m

/-- **Calls keep the local variables of others.**  However they end, sending a message and calling
a method leave every frame that was there as it was, and evaluating a node changes at most the
innermost frame of its scope. -/
theorem frames_kept (fuel : Nat) (m : Machine) :
    (∀ receiver name args,
      KeepsFrames none m (Run.send (Perform.invoke (perform fuel)) receiver name args m).state) ∧
    (∀ method receiver args,
      KeepsFrames none m (perform fuel (.invoke method receiver args) m).state) ∧
    (∀ env node,
      KeepsFrames (some env.scope.inner) m (perform fuel (.eval node env) m).state) := by
  refine ⟨fun receiver name args => ?_, fun method receiver args => ?_, fun env node => ?_⟩
  · exact (@Perform.script_send False False none receiver name args).keepsFrames
      (perform_keepsFrames fuel) m
  · exact perform_keepsFrames fuel (.invoke method receiver args) m
  · exact perform_keepsFrames fuel (.eval node env) m

end MiniRuby
