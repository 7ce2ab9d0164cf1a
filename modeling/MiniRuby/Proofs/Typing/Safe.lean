import MiniRuby.Proofs.Evaluator.Script
import MiniRuby.Proofs.Typing.Machine

/-!
# Safe actions

An action is safe on a machine (`Run.Safe`) when it leads to a well-kept machine, however it ends,
when a value that it answers is as it should be, and when a failure is one that a program may see:
exceptions that are raised are exception objects, and a fault is not one of the interpreter itself,
unless output is refused.

There is a rule for each way of putting actions together.  What is known of values on one machine
holds on all machines that it grows into, so a rule for a sequence of actions asks for the later
ones to be safe on all machines that the first one may lead to.
-/

namespace MiniRuby

open Machine (Leads)

/-- Whether a failure may be seen by a program. -/
def Failure.Safe (m : Machine) (f : Failure) : Prop :=
  match f.signal with
  | .fault cause => cause.kind = .internal → m.sink.Refuses
  | .raised e => e.IsException m
  | .returned v | .broke v | .skipped v => v.Lives m

namespace Failure.Safe

variable {m m' : Machine} {f : Failure}

/-- A failure that is safe is so on a machine that has grown. -/
theorem grow (h : f.Safe m) (hg : m.Grows m') : f.Safe m' := by
  obtain ⟨signal, place?⟩ := f
  cases signal with
  | fault cause => exact fun hk => hg.refuses.mpr (h hk)
  | raised e => exact Value.IsException.grow h hg
  | returned v | broke v | skipped v => exact Value.Lives.grow h hg

/-- It is the signal of a failure that is safe or not, wherever it came up. -/
theorem congr {f' : Failure} (h : f.Safe m) (hs : f'.signal = f.signal) : f'.Safe m := by
  unfold Failure.Safe
  rw [hs]
  exact h

/-- A signal that leaves its method becomes an error of the program. -/
theorem settle (h : f.Safe m) : f.settle.Safe m := by
  obtain ⟨signal, place?⟩ := f
  cases signal with
  | fault cause => exact h
  | raised e => exact h
  | returned v | broke v | skipped v => exact nofun

end Failure.Safe

/-- Whether what was worked out is a value or a fault that a program may see. -/
def Mild {α : Type} (r : Except Fault α) : Prop :=
  ∀ cause, r = .error cause → cause.kind ≠ .internal

namespace Mild

variable {α β : Type}

/-- A result is no error. -/
theorem ok (a : α) : Mild (.ok a) := nofun

/-- An error that is not internal is mild. -/
theorem error {cause : Fault} (h : cause.kind ≠ .internal) :
    Mild (.error cause : Except Fault α) := by
  intro cause' e
  cases e
  exact h

/-- **Results in a row** are mild if each of them is. -/
theorem bind {r : Except Fault α} {f : α → Except Fault β} (hr : Mild r) (hf : ∀ a, Mild (f a)) :
    Mild (r >>= f) := by
  cases r with
  | ok a => exact hf a
  | error cause => exact error (hr cause rfl)

theorem ite {c : Prop} [Decidable c] {r r' : Except Fault α} (h : Mild r) (h' : Mild r') :
    Mild (if c then r else r') := by
  split
  · exact h
  · exact h'

end Mild

namespace Run

/-- An action is safe on a machine and answers a value as described. -/
structure Safe {α : Type} (ok : Node → Prop) (m : Machine) (x : Run α)
    (Q : α → Machine → Prop) : Prop where
  leads : m.Leads ok (x m).state
  value : ∀ a s, x m = .done a s → Q a s
  failure : ∀ f s, x m = .failed f s → f.Safe s

/-- An action is safe on a machine and answers a value that lives. -/
abbrev Yields (ok : Node → Prop) (m : Machine) (x : Run Value) : Prop :=
  Safe ok m x fun v s => v.Lives s

namespace Safe

variable {ok : Node → Prop} {m : Machine} {α β : Type} {x : Run α} {Q : α → Machine → Prop}
  {R : β → Machine → Prop}

/-- Only what an action does on the machine matters. -/
theorem congr {y : Run α} (hx : Safe ok m x Q) (e : y m = x m) : Safe ok m y Q := by
  refine ⟨?_, fun a s e' => hx.value a s (e.symm.trans e'), fun f s e' =>
    hx.failure f s (e.symm.trans e')⟩
  rw [e]
  exact hx.leads

/-- **An action is safe** if it ends on a machine that is sound, with a result as it should be. -/
theorem of_done {a : α} {s : Machine} (h : x m = .done a s) (hl : m.Leads ok s) (hq : Q a s) :
    Safe ok m x Q := by
  refine ⟨?_, fun a' s' e => ?_, fun f s' e => ?_⟩
  · rw [h]
    exact hl
  · cases h.symm.trans e
    exact hq
  · cases h.symm.trans e

/-- It is safe if it fails on such a machine, with a failure that is safe. -/
theorem of_failed {f : Failure} {s : Machine} (h : x m = .failed f s) (hl : m.Leads ok s)
    (hf : f.Safe s) : Safe ok m x Q := by
  refine ⟨?_, fun a s' e => ?_, fun f' s' e => ?_⟩
  · rw [h]
    exact hl
  · cases h.symm.trans e
  · cases h.symm.trans e
    exact hf

/-- It is safe if it runs out of fuel there. -/
theorem of_halted {s : Machine} (h : x m = .halted s) (hl : m.Leads ok s) : Safe ok m x Q := by
  refine ⟨?_, fun a s' e => ?_, fun f s' e => ?_⟩
  · rw [h]
    exact hl
  · cases h.symm.trans e
  · cases h.symm.trans e

theorem pure {a : α} (hm : m.Sound ok) (hq : Q a m) : Safe ok m (Pure.pure a) Q :=
  of_done rfl (.refl hm) hq

theorem fail {f : Failure} (hm : m.Sound ok) (hf : f.Safe m) :
    Safe ok m (Action.fail f) Q :=
  of_failed rfl (.refl hm) hf

theorem exhaust (hm : m.Sound ok) : Safe ok m Action.exhaust Q :=
  of_halted rfl (.refl hm)

/-- A fault that is not one of the interpreter itself. -/
theorem fault {cause : Fault} (hm : m.Sound ok) (h : cause.kind ≠ .internal) :
    Safe ok m (Run.fault cause) Q :=
  fail hm (f := .ofFault cause) fun hk => absurd hk h

/-- Looking at a sound machine is safe. -/
theorem view {g : Machine → α} (hm : m.Sound ok) (hq : Q (g m) m) :
    Safe ok m (Action.view g) Q :=
  of_done rfl (.refl hm) hq

/-- A result that is mild is a safe one. -/
theorem ofExcept {r : Except Fault α} (hm : m.Sound ok) (hr : Mild r)
    (hq : ∀ a, r = .ok a → Q a m) : Safe ok m (Run.ofExcept r) Q := by
  cases r with
  | ok a => exact pure hm (hq a rfl)
  | error cause => exact fault hm (hr cause rfl)

/-- A change is safe if it leads to a sound machine. -/
theorem transform {g : Machine → α × Machine} (h : m.Leads ok (g m).2)
    (hq : Q (g m).1 (g m).2) : Safe ok m (Action.transform g) Q :=
  of_done rfl h hq

theorem update {g : Machine → Machine} {Q : Unit → Machine → Prop} (h : m.Leads ok (g m))
    (hq : Q () (g m)) : Safe ok m (Action.update g) Q :=
  of_done rfl h hq

/-- The result of a safe action may be described by what follows from it. -/
theorem imp {Q' : α → Machine → Prop} (hx : Safe ok m x Q)
    (h : ∀ a s, m.Leads ok s → Q a s → Q' a s) : Safe ok m x Q' := by
  refine ⟨hx.leads, fun a s e => h a s ?_ (hx.value a s e), hx.failure⟩
  have := hx.leads
  rwa [e] at this

/-- What follows has to be safe on the machines that the first action leads to. -/
theorem bind {f : α → Run β} (hx : Safe ok m x Q)
    (hf : ∀ a s, m.Leads ok s → Q a s → Safe ok s (f a) R) : Safe ok m (x >>= f) R := by
  have same := Action.bind_eq_andThen x f m
  have leads := hx.leads
  cases e : x m with
  | done a s =>
      rw [e] at same leads
      have h := hf a s leads (hx.value a s e)
      refine ⟨?_, fun b s' e' => h.value b s' (same.symm.trans e'),
        fun g s' e' => h.failure g s' (same.symm.trans e')⟩
      rw [same]
      exact leads.trans h.leads
  | failed g s =>
      rw [e] at same leads
      exact of_failed same leads (hx.failure g s e)
  | halted s =>
      rw [e] at same leads
      exact of_halted same leads

/-- Looking at the machine leaves it as it is. -/
theorem view_bind {g : Machine → α} {f : α → Run β} (h : Safe ok m (f (g m)) R) :
    Safe ok m (Action.view g >>= f) R :=
  ⟨h.leads, h.value, h.failure⟩

theorem map {f : α → β} (hx : Safe ok m x fun a s => R (f a) s) : Safe ok m (f <$> x) R :=
  hx.bind fun _ _ hl hq => pure hl.sound hq

/-- A choice is safe if either branch is, where it is taken. -/
theorem ite {c : Prop} [Decidable c] {x y : Run α} (hx : c → Safe ok m x Q)
    (hy : ¬ c → Safe ok m y Q) : Safe ok m (if c then x else y) Q := by
  split
  · exact hx ‹_›
  · exact hy ‹_›

/-- Placing a failure keeps it safe. -/
theorem located (place : Span) (hx : Safe ok m x Q) : Safe ok m (Run.located place x) Q := by
  have same := Action.mapError_eq (Failure.locate place) x m
  have leads := hx.leads
  cases e : x m with
  | done a s =>
      rw [e] at same leads
      exact of_done same leads (hx.value a s e)
  | failed f s =>
      rw [e] at same leads
      exact of_failed same leads ((hx.failure f s e).congr (f.signal_locate place))
  | halted s =>
      rw [e] at same leads
      exact of_halted same leads

/-- What follows when the first action has ended has to be safe in each case. -/
theorem catching {f : Except Failure α → Run β} (hx : Safe ok m x Q)
    (hok : ∀ a s, m.Leads ok s → Q a s → Safe ok s (f (.ok a)) R)
    (herr : ∀ e s, m.Leads ok s → e.Safe s → Safe ok s (f (.error e)) R) :
    Safe ok m (Action.attempt x >>= f) R := by
  refine bind (Q := fun (r : Except Failure α) s => match r with
    | .ok a => Q a s
    | .error e => e.Safe s) ?_ fun r s hl hr => ?_
  · have leads := hx.leads
    cases e : x m with
    | done a s =>
        rw [e] at leads
        exact of_done (a := .ok a) (s := s) (by simp only [Action.attempt, e]) leads
          (hx.value a s e)
    | failed f s =>
        rw [e] at leads
        exact of_done (a := .error f) (s := s) (by simp only [Action.attempt, e]) leads
          (hx.failure f s e)
    | halted s =>
        rw [e] at leads
        exact of_halted (s := s) (by simp only [Action.attempt, e]) leads
  · cases r with
    | ok a => exact hok a s hl hr
    | error e => exact herr e s hl hr

/-- A result with its place is safe if both cases are. -/
theorem result {r : Except Failure α} (hm : m.Sound ok) (hok : ∀ a, r = .ok a → Q a m)
    (herr : ∀ f, r = .error f → f.Safe m) : Safe ok m (Action.ofExcept r) Q := by
  cases r with
  | ok a => exact pure hm (hok a rfl)
  | error f => exact fail hm (herr f rfl)

/-- The number of open calls does not matter. -/
theorem nested (hm : m.Sound ok)
    (hx : ∀ s, m.Leads ok s → Safe ok s x Q) (mono : ∀ a s s', Q a s → s.Grows s' → Q a s') :
    Safe ok m (Run.nested x) Q := by
  have deeper : ∀ {s : Machine} (d : Nat), s.Sound ok → s.Leads ok { s with depth := d } :=
    fun _ hs => hs.leads_of_eq rfl rfl rfl rfl .rfl
  have up := deeper (m.depth + 1) hm
  refine bind (update (Q := fun _ _ => True) up trivial) fun _ s hl _ => ?_
  refine (hx s hl).catching (fun a s' hl' hq => ?_) fun e s' hl' he => ?_
  · have down := deeper (s'.depth - 1) hl'.sound
    exact bind (update (Q := fun _ s => Q a s) down (mono a _ _ hq down.grows)) fun _ _ hl hq =>
      pure hl.sound hq
  · have down := deeper (s'.depth - 1) hl'.sound
    exact bind (update (Q := fun _ s => e.Safe s) down (he.grow down.grows)) fun _ _ hl he =>
      fail hl.sound he

/-! ### Loops -/

variable {f : α → Run β} {as : List α}

/-- **Loops** are safe if the body is on all machines that the loop leads to. -/
theorem each (hm : m.Sound ok) (mono : ∀ b s s', R b s → s.Grows s' → R b s')
    (hf : ∀ a ∈ as, ∀ s, m.Leads ok s → Safe ok s (f a) R) :
    Safe ok m (Action.each f as) fun bs s => ∀ b ∈ bs, R b s := by
  induction as generalizing m with
  | nil => exact pure hm nofun
  | cons a as ih =>
      rw [Action.each_cons]
      refine (hf a (.head _) m (.refl hm)).bind fun b s hl hb => ?_
      have rest := ih hl.sound fun a' ha' s' hl' => hf a' (.tail _ ha') s' (hl.trans hl')
      refine rest.bind fun bs s' hl' hbs => pure hl'.sound fun b' hb' => ?_
      rcases List.mem_cons.mp hb' with rfl | hb'
      · exact mono _ s s' hb hl'.grows
      · exact hbs b' hb'

/-- The same of a loop that stops at the first answer. -/
theorem any {f : α → Run Bool} (hm : m.Sound ok)
    (hf : ∀ a ∈ as, ∀ s, m.Leads ok s → Safe ok s (f a) fun _ _ => True) :
    Safe ok m (Action.any f as) fun _ _ => True := by
  induction as generalizing m with
  | nil => exact pure hm trivial
  | cons a as ih =>
      rw [Action.any_cons]
      refine (hf a (.head _) m (.refl hm)).bind fun b s hl _ => ite (fun _ => ?_) fun _ => ?_
      · exact pure hl.sound trivial
      · exact ih hl.sound fun a' ha' s' hl' => hf a' (.tail _ ha') s' (hl.trans hl')

/-- The same of a loop that keeps the last result. -/
theorem last {b : β} (hm : m.Sound ok) (hb : R b m)
    (hf : ∀ a ∈ as, ∀ s, m.Leads ok s → Safe ok s (f a) R) :
    Safe ok m (Action.last f b as) R := by
  induction as generalizing m b with
  | nil => exact pure hm hb
  | cons a as ih =>
      rw [Action.last_cons]
      exact (hf a (.head _) m (.refl hm)).bind fun b s hl hb =>
        ih hl.sound hb fun a' ha' s' hl' => hf a' (.tail _ ha') s' (hl.trans hl')

/-- The same of a loop that ends on a result. -/
theorem untilSome {x : Run (Option α)} (fuel : Nat) (hm : m.Sound ok)
    (hx : ∀ s, m.Leads ok s → Safe ok s x fun r s' => ∀ a, r = some a → Q a s') :
    Safe ok m (Action.untilSome x fuel) Q := by
  induction fuel generalizing m with
  | zero => exact exhaust hm
  | succ fuel ih =>
      rw [Action.untilSome_succ]
      refine (hx m (.refl hm)).bind fun r s hl hr => ?_
      cases r with
      | some a => exact pure hl.sound (hr a rfl)
      | none => exact ih hl.sound fun s' hl' => hx s' (hl.trans hl')

end Safe

end Run

end MiniRuby
