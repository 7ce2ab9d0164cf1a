/-!
# Actions

An action works on a state and ends in one of three ways: it is done and has a value, it has
failed with an error, or it has come to a halt because it was given too little fuel to tell.  The
state is kept in every case, so that what an action did before it failed or halted stays done.
Both the grammar and the evaluator are written as actions, over different states and errors.
-/

namespace MiniRuby

/-- How an action ends.  `halted` is neither a value nor an error: it says in which state the
action was when the fuel ran out, before the answer was known. -/
inductive Outcome (σ ε α : Type) where
  | done (value : α) (state : σ)
  | failed (error : ε) (state : σ)
  | halted (state : σ)

/-- Halted, in whatever state. -/
@[match_pattern]
abbrev Outcome.exhausted {σ ε α : Type} {s : σ} : Outcome σ ε α := .halted s

/-- The state that an action was in when it ended. -/
def Outcome.state {σ ε α : Type} : Outcome σ ε α → σ
  | done _ s | failed _ s | halted s => s

/-- A computation on a state `σ` that may fail with an `ε`. -/
def Action (σ ε α : Type) : Type := σ → Outcome σ ε α

namespace Action

variable {σ ε α β : Type}

/-- Answer `a` and leave the state alone. -/
@[always_inline, inline]
protected def pure (a : α) : Action σ ε α := fun s => .done a s

/-- Run `x`, and if it is done, go on with its value. -/
@[always_inline, inline]
protected def bind (x : Action σ ε α) (f : α → Action σ ε β) : Action σ ε β := fun s =>
  match x s with
  | .done a s => f a s
  | .failed e s => .failed e s
  | .halted s => .halted s

@[always_inline]
instance : Monad (Action σ ε) where
  pure := Action.pure
  bind := Action.bind

/-- Fail with `e`. -/
@[always_inline, inline]
def fail (e : ε) : Action σ ε α := fun s => .failed e s

/-- Give up for want of fuel. -/
def exhaust : Action σ ε α := fun s => .halted s

/-- Look at the state. -/
@[always_inline, inline]
def view (f : σ → α) : Action σ ε α := fun s => .done (f s) s

/-- Change the state. -/
@[always_inline, inline]
def update (f : σ → σ) : Action σ ε Unit := fun s => .done () (f s)

/-- Change the state and answer a value with it. -/
@[always_inline, inline]
def transform (f : σ → α × σ) : Action σ ε α := fun s =>
  let r := f s
  .done r.1 r.2

/-- Turn a failure of `x` into a value, keeping what `x` did to the state. -/
@[always_inline, inline]
def attempt (x : Action σ ε α) : Action σ ε (Except ε α) := fun s =>
  match x s with
  | .done a s => .done (.ok a) s
  | .failed e s => .done (.error e) s
  | .halted s => .halted s

/-- Change the error of a failure. -/
@[always_inline, inline]
def mapError {ε' : Type} (f : ε → ε') (x : Action σ ε α) : Action σ ε' α := fun s =>
  match x s with
  | .done a s => .done a s
  | .failed e s => .failed (f e) s
  | .halted s => .halted s

/-- Answer a value or fail with an error that is already at hand. -/
@[always_inline, inline]
def ofExcept : Except ε α → Action σ ε α
  | .ok a => .pure a
  | .error e => fail e

/-- Run `f` on each element in turn, with the answers so far in reverse. -/
def collect (f : α → Action σ ε β) (done : List β) : List α → Action σ ε (List β)
  | [], s => .done done.reverse s
  | a :: as, s =>
    match f a s with
    | .done b s => collect f (b :: done) as s
    | .failed e s => .failed e s
    | .halted s => .halted s

/-- Run `f` on each element in turn and collect the answers; stop at the first failure. -/
def each (f : α → Action σ ε β) (as : List α) : Action σ ε (List β) := collect f [] as

/-- Run `f` on each element in turn; the last answer is the answer, and `b` if there is none. -/
def last (f : α → Action σ ε β) (b : β) : List α → Action σ ε β
  | [], s => .done b s
  | a :: as, s =>
    match f a s with
    | .done b s => last f b as s
    | .failed e s => .failed e s
    | .halted s => .halted s

/-- Run an action until it answers a value, once for each unit of fuel. -/
def untilSome (x : Action σ ε (Option α)) : Nat → Action σ ε α
  | 0, s => .halted s
  | n + 1, s =>
    match x s with
    | .done (some a) s => .done a s
    | .done none s => untilSome x n s
    | .failed e s => .failed e s
    | .halted s => .halted s

/-- Whether `f` holds of some element; the elements after the first such one are left alone. -/
def any (f : α → Action σ ε Bool) : List α → Action σ ε Bool
  | [], s => .done false s
  | a :: as, s =>
    match f a s with
    | .done true s => .done true s
    | .done false s => any f as s
    | .failed e s => .failed e s
    | .halted s => .halted s

theorem pure_apply (a : α) (s : σ) : (pure a : Action σ ε α) s = .done a s := rfl

theorem bind_apply (x : Action σ ε α) (f : α → Action σ ε β) (s : σ) :
    (x >>= f) s = match x s with
      | .done a s => f a s
      | .failed e s => .failed e s
      | .halted s => .halted s := rfl

/-- What two actions in a row have done, the one and then the other has done. -/
theorem bind_eq_done {x : Action σ ε α} {f : α → Action σ ε β} {s s' : σ} {b : β} :
    (x >>= f) s = .done b s' ↔ ∃ a s₁, x s = .done a s₁ ∧ f a s₁ = .done b s' := by
  rw [bind_apply]
  cases x s with
  | done a s₁ =>
      refine ⟨fun h => ⟨a, s₁, rfl, h⟩, ?_⟩
      rintro ⟨_, _, ⟨⟩, h⟩
      exact h
  | failed | halted => simp

instance : LawfulMonad (Action σ ε) := LawfulMonad.mk' _
  (fun x => by
    funext s
    show (match x s with
      | .done a s => Outcome.done (id a) s
      | .failed e s => .failed e s
      | .halted s => .halted s) = x s
    cases x s <;> rfl)
  (fun _ _ => rfl)
  (fun x f g => by
    funext s
    simp only [bind_apply]
    cases x s <;> rfl)

theorem collect_apply (f : α → Action σ ε β) (done : List β) (as : List α) (s : σ) :
    collect f done as s = match each f as s with
      | .done bs s => .done (done.reverse ++ bs) s
      | .failed e s => .failed e s
      | .halted s => .halted s := by
  unfold each
  induction as generalizing done s with
  | nil => simp [collect]
  | cons a as ih =>
    simp only [collect]
    cases f a s with
    | failed | halted => rfl
    | done b s =>
      simp only [ih (b :: done), ih [b]]
      cases collect f [] as s <;> simp

@[simp] theorem each_nil (f : α → Action σ ε β) : each f [] = pure [] := rfl

/-- The first element comes first. -/
theorem each_cons (f : α → Action σ ε β) (a : α) (as : List α) :
    each f (a :: as) = (do
      let b ← f a
      let bs ← each f as
      pure (b :: bs)) := by
  funext s
  simp only [bind_apply]
  rw [each, collect]
  cases f a s with
  | failed | halted => rfl
  | done b s =>
    simp only [collect_apply]
    cases each f as s <;> rfl

@[simp] theorem last_nil (f : α → Action σ ε β) (b : β) : last f b [] = pure b := rfl

theorem last_cons (f : α → Action σ ε β) (b : β) (a : α) (as : List α) :
    last f b (a :: as) = (do last f (← f a) as) := rfl

theorem untilSome_succ (x : Action σ ε (Option α)) (n : Nat) :
    untilSome x (n + 1) = (do
      match ← x with
      | some a => pure a
      | none => untilSome x n) := by
  funext s
  simp only [untilSome, bind_apply]
  rcases x s with ⟨_ | _, s⟩ | _ | _ <;> rfl

@[simp] theorem any_nil (f : α → Action σ ε Bool) : any f [] = pure false := rfl

theorem any_cons (f : α → Action σ ε Bool) (a : α) (as : List α) :
    any f (a :: as) = (do if ← f a then pure true else any f as) := by
  funext s
  simp only [any, bind_apply]
  rcases f a s with ⟨_ | _, s⟩ | _ | _ <;> rfl

end Action

end MiniRuby
