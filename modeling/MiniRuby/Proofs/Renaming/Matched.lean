import MiniRuby.Proofs.Evaluator.Script
import MiniRuby.Proofs.Renaming.Machine

/-!
# Actions that go side by side

Two actions are matched (`Run.Matched`) when on machines that are alike they end in the same way,
with answers or failures that are alike, and leave machines that are alike.  They may be given
things that correspond in certain tables of names, and those that they find are later ones.

There is a rule for each way of putting actions together.  What follows an answer is given the
tables of that moment, in which all that corresponded before still does.
-/

namespace MiniRuby

variable {α β : Type} {w w' : Tables}

/-! ### Failures and outcomes -/

inductive Signal.Alike (w : Tables) : Signal → Signal → Prop where
  | fault (cause : Fault) : Alike w (.fault cause) (.fault cause)
  | raised {v v' : Value} (h : Kin.value w v v') : Alike w (.raised v) (.raised v')
  | returned {v v' : Value} (h : Kin.value w v v') : Alike w (.returned v) (.returned v')
  | broke {v v' : Value} (h : Kin.value w v v') : Alike w (.broke v) (.broke v')
  | skipped {v v' : Value} (h : Kin.value w v v') : Alike w (.skipped v) (.skipped v')

/-- Signals that correspond do so when more names are known. -/
theorem Signal.Alike.mono {s s' : Signal} (hw : w ≤ w') (h : s.Alike w s') : s.Alike w' s' := by
  cases h with
  | fault cause => exact .fault cause
  | raised h => exact .raised (h.later hw)
  | returned h => exact .returned (h.later hw)
  | broke h => exact .broke (h.later hw)
  | skipped h => exact .skipped (h.later hw)

structure Failure.Alike (w : Tables) (f g : Failure) : Prop where
  signal : f.signal.Alike w g.signal
  span? : g.span? = f.span?

abbrev Kin.failure : Kin Failure :=
  ⟨Failure.Alike, fun hw h => ⟨h.signal.mono hw, h.span?⟩⟩

namespace Failure.Alike

variable {f g : Failure}

/-- A fault has texts in it and no names. -/
theorem ofFault (cause : Fault) : Kin.failure w (.ofFault cause) (.ofFault cause) :=
  ⟨.fault cause, rfl⟩

/-- Places are given alike. -/
theorem locate (h : Kin.failure w f g) (place : Span) :
    Kin.failure w (f.locate place) (g.locate place) := by
  obtain ⟨signal, span?⟩ := f
  obtain ⟨signal', span?'⟩ := g
  obtain ⟨hs, rfl⟩ := h
  cases span?' <;> exact ⟨hs, rfl⟩

/-- A signal that leaves its method is the same error on both sides. -/
theorem settle (h : Kin.failure w f g) : Kin.failure w f.settle g.settle := by
  obtain ⟨signal, span?⟩ := f
  obtain ⟨signal', span?'⟩ := g
  obtain ⟨hs, rfl⟩ := h
  cases hs with
  | fault cause => exact ⟨.fault cause, rfl⟩
  | raised h => exact ⟨.raised h, rfl⟩
  | returned h | broke h | skipped h => exact ⟨.fault _, rfl⟩

end Failure.Alike

variable [Comparison]

/-- Outcomes of the same kind on machines that are alike, whose tables are later ones.  What is
halted where names are not sound is lost, and goes with any outcome: no run ends there, so that
tasks about which nothing is to be said can be halted so. -/
inductive Outcome.Alike (R : Kin α) (w : Tables) :
    Outcome Machine Failure α → Outcome Machine Failure α → Prop where
  | done {a b : α} {m n : Machine} (later : w ≤ m.both n) (hm : m.Alike n)
      (ha : R (m.both n) a b) : Alike R w (.done a m) (.done b n)
  | failed {f g : Failure} {m n : Machine} (later : w ≤ m.both n) (hm : m.Alike n)
      (hf : Kin.failure (m.both n) f g) : Alike R w (.failed f m) (.failed g n)
  | halted {m n : Machine} (later : w ≤ m.both n) (hm : m.Alike n) :
      Alike R w (.halted m) (.halted n)
  | lost {m : Machine} (hm : ¬ m.names.Sound) (o : Outcome Machine Failure α) :
      Alike R w (.halted m) o

/-- Outcomes that know of more names know of fewer. -/
theorem Outcome.Alike.earlier {R : Kin α} {o o' : Outcome Machine Failure α} (hw : w' ≤ w)
    (h : o.Alike R w o') : o.Alike R w' o' := by
  cases h with
  | done later hm ha => exact .done (hw.trans later) hm ha
  | failed later hm hf => exact .failed (hw.trans later) hm hf
  | halted later hm => exact .halted (hw.trans later) hm
  | lost hm => exact .lost hm _

namespace Run

/-- **Two actions that go side by side**, from the tables `w` on. -/
def Matched (w : Tables) (R : Kin α) (x y : Run α) : Prop :=
  ∀ m n : Machine, w ≤ m.both n → m.Alike n → (x m).Alike R (m.both n) (y n)

namespace Matched

variable {R : Kin α} {S : Kin β} {x y : Run α} {f g : α → Run β}

/-- Actions that are matched are so on machines that know of more names. -/
theorem later (h : Matched w R x y) (hw : w ≤ w') : Matched w' R x y :=
  fun m n hmn => h m n (hw.trans hmn)

/-- What is matched may rely on tables that are valid. -/
theorem under (h : ∀ w', w ≤ w' → w'.Valid → Matched w' R x y) : Matched w R x y :=
  fun m n hw hmn => h _ hw hmn.valid m n le_rfl hmn

theorem pure {a b : α} (h : R w a b) : Matched w R (Pure.pure a) (Pure.pure b) :=
  fun _ _ hw hmn => .done le_rfl hmn (h.later hw)

theorem fail {e e' : Failure} (h : Kin.failure w e e') :
    Matched w R (Action.fail e) (Action.fail e') :=
  fun _ _ hw hmn => .failed le_rfl hmn (Kin.failure.mono hw h)

/-- The same fault is matched by itself. -/
theorem fault (cause : Fault) : Matched w R (Run.fault cause) (Run.fault cause) :=
  fail (.ofFault cause)

theorem exhaust : Matched w R Action.exhaust Action.exhaust :=
  fun _ _ _ hmn => .halted le_rfl hmn

/-- Looking at the machines is matched if what they show corresponds. -/
theorem view {p q : Machine → α}
    (h : ∀ m n : Machine, w ≤ m.both n → m.Alike n → R (m.both n) (p m) (q n)) :
    Matched w R (Action.view p) (Action.view q) :=
  fun m n hw hmn => .done le_rfl hmn (h m n hw hmn)

/-- A change is matched if the machines are alike after it, and forget no name. -/
theorem update {p q : Machine → Machine}
    (h : ∀ m n : Machine, w ≤ m.both n → m.Alike n →
      m.both n ≤ (p m).both (q n) ∧ (p m).Alike (q n)) :
    Matched w Kin.same (Action.update p) (Action.update q) :=
  fun m n hw hmn => .done (h m n hw hmn).1 (h m n hw hmn).2 rfl

/-- The same of a change that has a result. -/
theorem transform {p q : Machine → α × Machine}
    (h : ∀ m n : Machine, w ≤ m.both n → m.Alike n → m.both n ≤ (p m).2.both (q n).2 ∧
      (p m).2.Alike (q n).2 ∧ R ((p m).2.both (q n).2) (p m).1 (q n).1) :
    Matched w R (Action.transform p) (Action.transform q) :=
  fun m n hw hmn => .done (h m n hw hmn).1 (h m n hw hmn).2.1 (h m n hw hmn).2.2

/-- A result that is told without the machine is matched if it corresponds. -/
theorem ofExcept {r r' : Except Fault α} (h : R.except Kin.same w r r') :
    Matched w R (Run.ofExcept r) (Run.ofExcept r') := by
  match r, r' with
  | .ok a, .ok b => exact pure h
  | .error e, .error e' =>
      obtain rfl : e' = e := h
      exact fault e'
  | .ok _, .error _ => exact h.elim
  | .error _, .ok _ => exact h.elim

/-- What was worked out does not depend on the machine. -/
theorem worked (r : Except Fault α) : Matched w Kin.same (Run.ofExcept r) (Run.ofExcept r) := by
  cases r with
  | ok a => exact pure rfl
  | error cause => exact fault cause

/-- The same of a failure with its place. -/
theorem result {r r' : Except Failure α} (h : R.except Kin.failure w r r') :
    Matched w R (Action.ofExcept r) (Action.ofExcept r') := by
  match r, r' with
  | .ok a, .ok b => exact pure h
  | .error e, .error e' => exact fail h
  | .ok _, .error _ => exact h.elim
  | .error _, .ok _ => exact h.elim

/-- **One action after the other.** -/
theorem bind (hx : Matched w R x y)
    (hf : ∀ w', w ≤ w' → ∀ a b, R w' a b → Matched w' S (f a) (g b)) :
    Matched w S (x >>= f) (y >>= g) := by
  intro m n hw hmn
  have first := hx m n hw hmn
  rw [Action.bind_apply, Action.bind_apply]
  generalize x m = o at first
  generalize y n = o' at first
  cases first with
  | done hw' hm ha => exact (hf _ (hw.trans hw') _ _ ha _ _ le_rfl hm).earlier hw'
  | failed hw' hm hf => exact .failed hw' hm hf
  | halted hw' hm => exact .halted hw' hm
  | lost hm => exact .lost hm _

/-- One action after the other, where the same is answered. -/
theorem andThen (hx : Matched w Kin.same x y)
    (hf : ∀ w', w ≤ w' → ∀ a, Matched w' S (f a) (g a)) : Matched w S (x >>= f) (y >>= g) := by
  refine hx.bind fun w' hw a b h => ?_
  obtain rfl : b = a := h
  exact hf w' hw b

/-- What is done with results is done to both. -/
theorem map {p q : α → β} (hx : Matched w R x y)
    (h : ∀ w', w ≤ w' → ∀ a b, R w' a b → S w' (p a) (q b)) : Matched w S (p <$> x) (q <$> y) :=
  hx.bind fun w' hw a b ha => pure (h w' hw a b ha)

/-- A choice is matched if both sides choose alike. -/
theorem ite {c d : Prop} [Decidable c] [Decidable d] {x' y' : Run α} (hc : d ↔ c)
    (h : Matched w R x y) (h' : Matched w R x' y') :
    Matched w R (if c then x else x') (if d then y else y') := by
  simp only [hc]
  split
  · exact h
  · exact h'

theorem located (place : Span) (h : Matched w R x y) :
    Matched w R (Run.located place x) (Run.located place y) := by
  intro m n hw hmn
  have ended := h m n hw hmn
  simp only [Run.located, Action.mapError]
  generalize x m = o at ended
  generalize y n = o' at ended
  cases ended with
  | done hw' hm ha => exact .done hw' hm ha
  | failed hw' hm hf => exact .failed hw' hm (hf.locate place)
  | halted hw' hm => exact .halted hw' hm
  | lost hm => exact .lost hm _

/-- **Failures are caught** on both machines or on neither. -/
theorem attempt (h : Matched w R x y) :
    Matched w (R.except Kin.failure) (Action.attempt x) (Action.attempt y) := by
  intro m n hw hmn
  have ended := h m n hw hmn
  simp only [Action.attempt]
  generalize x m = o at ended
  generalize y n = o' at ended
  cases ended with
  | done hw' hm ha => exact .done hw' hm ha
  | failed hw' hm hf => exact .done hw' hm hf
  | halted hw' hm => exact .halted hw' hm
  | lost hm => exact .lost hm _

/-- What follows when the first action has ended. -/
theorem catching {f g : Except Failure α → Run β} (hx : Matched w R x y)
    (ok : ∀ w', w ≤ w' → ∀ a b, R w' a b → Matched w' S (f (.ok a)) (g (.ok b)))
    (error : ∀ w', w ≤ w' → ∀ e e', Kin.failure w' e e' →
      Matched w' S (f (.error e)) (g (.error e'))) :
    Matched w S (Action.attempt x >>= f) (Action.attempt y >>= g) := by
  refine hx.attempt.bind fun w' hw r r' h => ?_
  match r, r' with
  | .ok a, .ok b => exact ok w' hw a b h
  | .error e, .error e' => exact error w' hw e e' h
  | .ok _, .error _ => exact h.elim
  | .error _, .ok _ => exact h.elim

/-- The depth is the same on both machines, so the limit is met by both. -/
theorem nested (h : Matched w R x y) : Matched w R (Run.nested x) (Run.nested y) := by
  have counted : ∀ {w} (f : Nat → Nat), Matched w Kin.same
      (Action.update fun m : Machine => { m with depth := f m.depth })
      (Action.update fun m : Machine => { m with depth := f m.depth }) := fun f =>
    update fun _ _ _ hmn => ⟨le_rfl, { hmn with depth := congrArg f hmn.depth }⟩
  refine (counted (· + 1)).andThen fun w₁ h₁ _ => (h.later h₁).attempt.bind fun w₂ _ r r' hr => ?_
  exact (counted (· - 1)).andThen fun w₃ h₃ _ => result ((R.except Kin.failure).mono h₃ hr)

/-! ### Loops -/

section loops

variable {as bs : List α}

/-- **Loops** over lists that correspond are matched. -/
theorem each (hf : ∀ w', w ≤ w' → ∀ a b, R w' a b → Matched w' S (f a) (g b))
    (h : R.list w as bs) : Matched w S.list (Action.each f as) (Action.each g bs) := by
  induction as generalizing w bs with
  | nil =>
      cases h
      exact pure .nil
  | cons a as ih =>
      obtain _ | ⟨hab, hrest⟩ := h
      rw [Action.each_cons, Action.each_cons]
      refine (hf w le_rfl _ _ hab).bind fun w₁ h₁ c d hcd => ?_
      refine (ih (fun w' hw => hf w' (h₁.trans hw)) (R.list.mono h₁ hrest)).bind
        fun w₂ h₂ cs ds hs => ?_
      exact pure (.cons (hcd.later h₂) hs)

/-- The same of a loop that stops at the first answer. -/
theorem any {f g : α → Run Bool}
    (hf : ∀ w', w ≤ w' → ∀ a b, R w' a b → Matched w' Kin.same (f a) (g b))
    (h : R.list w as bs) : Matched w Kin.same (Action.any f as) (Action.any g bs) := by
  induction as generalizing w bs with
  | nil =>
      cases h
      exact pure rfl
  | cons a as ih =>
      obtain _ | ⟨hab, hrest⟩ := h
      rw [Action.any_cons, Action.any_cons]
      refine (hf w le_rfl _ _ hab).andThen fun w₁ h₁ yes => ?_
      exact ite Iff.rfl (pure rfl) (ih (fun w' hw => hf w' (h₁.trans hw)) (R.list.mono h₁ hrest))

/-- The same of a loop that keeps the last result. -/
theorem last {b b' : β} (hf : ∀ w', w ≤ w' → ∀ a b, R w' a b → Matched w' S (f a) (g b))
    (hb : S w b b') (h : R.list w as bs) :
    Matched w S (Action.last f b as) (Action.last g b' bs) := by
  induction as generalizing w b b' bs with
  | nil =>
      cases h
      exact pure hb
  | cons a as ih =>
      obtain _ | ⟨hab, hrest⟩ := h
      rw [Action.last_cons, Action.last_cons]
      exact (hf w le_rfl _ _ hab).bind fun w₁ h₁ c d hcd =>
        ih (fun w' hw => hf w' (h₁.trans hw)) hcd (R.list.mono h₁ hrest)

/-- The same of a loop that ends on a result. -/
theorem untilSome {x y : Run (Option α)} (h : Matched w R.option x y) (fuel : Nat) :
    Matched w R (Action.untilSome x fuel) (Action.untilSome y fuel) := by
  induction fuel with
  | zero => exact exhaust
  | succ fuel ih =>
      rw [Action.untilSome_succ, Action.untilSome_succ]
      refine h.bind fun w₁ h₁ o o' ho => ?_
      cases ho with
      | none => exact ih.later h₁
      | some ha => exact pure ha

end loops

/-! ### Steps of a machine -/

/-- **A name is looked up** on both machines, and corresponds from then on. -/
theorem intern (text : String) : Matched w Kin.name (Run.intern text) (Run.intern text) :=
  transform fun m n _ hmn => ⟨(hmn.intern text).1, (hmn.intern text).2, .intern (m.both n) text⟩

/-- The text of a name is what it has been looked up by. -/
theorem nameText {x y : NameId} (hn : w.Spelled x y) :
    Matched w Kin.same (Action.view fun m : Machine => m.names.text x)
      (Action.view fun m : Machine => m.names.text y) :=
  view fun _ _ hw _ => (hn.mono hw).2.2

/-- A new value corresponds if both heaps make it alike. -/
theorem allocate {p q : Heap → Value × Heap}
    (h : ∀ w', w ≤ w' → w'.Valid → ∀ h k, Kin.heap w' h k →
      (Kin.value.prod Kin.heap) w' (p h) (q k)) :
    Matched w Kin.value (Run.allocate p) (Run.allocate q) :=
  transform fun _ _ hw hmn =>
    have made := h _ hw hmn.valid _ _ hmn.heap
    ⟨le_rfl, { hmn with heap := made.2 }, made.1⟩

theorem newString (text : String) : Matched w Kin.value (Run.newString text) (Run.newString text) :=
  allocate fun _ _ _ _ _ hk => Heap.Alike.newString hk .string text

theorem newArray {as bs : Array Value} (h : Kin.value.array w as bs) :
    Matched w Kin.value (Run.newArray as) (Run.newArray bs) :=
  allocate fun _ hw _ _ _ hk => Heap.Alike.newArray hk .array (Kin.value.array.mono hw h)

/-- Heaps may be changed alike. -/
theorem updateHeap {p q : Heap → Heap}
    (h : ∀ w', w ≤ w' → w'.Valid → ∀ h k, Kin.heap w' h k → Kin.heap w' (p h) (q k)) :
    Matched w Kin.same (Run.updateHeap p) (Run.updateHeap q) :=
  update fun _ _ hw hmn => ⟨le_rfl, { hmn with heap := h _ hw hmn.valid _ _ hmn.heap }⟩

/-- Classes may be changed alike. -/
theorem updateClasses {p q : ClassTable → ClassTable}
    (h : ∀ w', w ≤ w' → w'.Valid → ∀ t u : ClassTable, t.Alike w' u → (p t).Alike w' (q u)) :
    Matched w Kin.same (Run.updateClasses p) (Run.updateClasses q) :=
  update fun _ _ hw hmn => ⟨le_rfl, { hmn with classes := h _ hw hmn.valid _ _ hmn.classes }⟩

/-- Variables of values that correspond hold values that correspond. -/
theorem getVariable {v v' : Value} (hv : Kin.value w v v') {x y : NameId} (hn : w.Spelled x y) :
    Matched w Kin.value (Run.getVariable v x) (Run.getVariable v' y) := by
  cases hv with
  | obj id =>
      exact view fun _ _ hw hmn =>
        Kin.option_getD (hmn.heap.ivar? hmn.valid id (hn.mono hw)) .nil
  | _ => exact pure .nil

/-- A fault that shows a value shows the same text. -/
theorem describe {v v' : Value} (hv : Kin.value w v v') (cause : String → Fault) :
    Matched w R
      (Action.view (fun m : Machine => m.describe v) >>= fun text => Run.fault (cause text))
      (Action.view (fun m : Machine => m.describe v') >>= fun text => Run.fault (cause text)) :=
  (view fun _ _ hw hmn => hmn.describe_eq (hv.later hw)).andThen fun _ _ _ => fault _

/-- A variable is set on both machines, or the value keeps none on both. -/
theorem setVariable {v v' u u' : Value} (hv : Kin.value w v v') {x y : NameId}
    (hn : w.Spelled x y) (hu : Kin.value w u u') :
    Matched w Kin.value (Run.setVariable v x u) (Run.setVariable v' y u') := by
  cases hv with
  | obj id =>
      refine (updateHeap fun w' hw valid h k hk =>
        Heap.Alike.setVariable hk valid id (hn.mono hw) (hu.later hw)).andThen fun w' hw _ => ?_
      exact pure (hu.later hw)
  | sym h => exact describe (.sym h) _
  | _ => exact describe (by constructor) _

theorem setLocal (scope : Scope) {x y : NameId} (hn : w.Spelled x y) {v v' : Value}
    (hv : Kin.value w v v') :
    Matched w Kin.same (Run.setLocal scope x v) (Run.setLocal scope y v') :=
  update fun _ _ hw hmn =>
    ⟨le_rfl, { hmn with frames := hmn.frames.set hmn.valid scope (hn.mono hw) (hv.later hw) }⟩

/-- New frames are opened at the same id. -/
theorem openScope (scope : Scope) :
    Matched w Kin.same (Run.openScope scope) (Run.openScope scope) :=
  transform fun _ _ _ hmn =>
    ⟨le_rfl, { hmn with frames := (hmn.frames.child scope).2 }, (hmn.frames.child scope).1⟩

/-- The same text is written to both sinks, which take or refuse it alike. -/
theorem write (text : String) : Matched w Kin.same (Run.write text) (Run.write text) := by
  intro m n _ hmn
  rw [Run.write, Run.write, hmn.sink]
  cases hs : m.sink with
  | collecting written => exact .done le_rfl { hmn with sink := rfl } rfl
  | refusing reason =>
      dsimp only
      split
      · exact .done le_rfl hmn rfl
      · exact .failed le_rfl hmn (.ofFault _)

end Matched

end Run

end MiniRuby
