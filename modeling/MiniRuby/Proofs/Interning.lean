import MiniRuby.Proofs.Boot
import MiniRuby.Proofs.Renaming.Program

/-!
# Names that are known before

Names stand in a table in the order in which they have been met, and a machine that has met other
names before runs a program with all names at other positions.  What is told of the run
(`Outcome.told`) is the same nevertheless, as long as no method is called that tells positions: how
it ended, and what was written.

The text by which the value is shown comes of a call that is made after the run, so that it is the
same only if this call tells no positions either.

* `Outcome.SameEnd.told_eq`: of programs that end alike the same is told.
* `Session.sameEnd_run`, `Session.sameEnd_shown`: a text ends alike on machines that are alike.
* `known_names_unobservable`: names that are known before a program is run make no difference.
* `inspection_tells_known_names`: they may make one to the text of the value.
-/

namespace MiniRuby

variable {α β : Type} {path text : String} {m n : Machine}

/-! ### What is told -/

/-- The kinds of errors that a program may end with. -/
inductive ErrorKind where
  | unreadable (cause : SyntaxCause)
  | fault (kind : FaultKind)
  | raised
  | jump

def ProgramError.kind : ProgramError → ErrorKind
  | unreadable e => .unreadable e.cause
  | failed f =>
    match f.signal with
    | .fault cause => .fault cause.kind
    | .raised _ => .raised
    | .returned _ | .broke _ | .skipped _ => .jump

/-- How something ends, as far as it is told: a value, an error with its kind, its message and its
place, or no end. -/
inductive Ending (α : Type) where
  | value (a : α)
  | error (kind : ErrorKind) (message : String) (span? : Option Span)
  | none

/-- What is told of something that has been run: how it ended, and all that has been written. -/
structure Told (α : Type) where
  ending : Ending α
  written : String

/-- What is told of an outcome, if `view` is told of the value. -/
def Outcome.told (view : Machine → α → β) : Outcome Machine ProgramError α → Told β
  | .done a m => ⟨.value (view m a), m.sink.written⟩
  | .failed e m => ⟨.error e.kind (e.message m) e.span?, m.sink.written⟩
  | .halted m => ⟨.none, m.sink.written⟩

theorem Outcome.DoneWith.told_eq {a : α} {written : String} {o : Outcome Machine ProgramError α}
    (h : o.DoneWith fun b m => b = a ∧ m.sink.written = written) :
    (o.told fun _ b => b) = ⟨.value a, written⟩ := by
  obtain ⟨_, _, rfl, rfl, rfl⟩ := h.exists_eq
  rfl

/-- Run a program text and show its value. -/
def Session.shown (path text : String) : Session String := do
  let v ← run path text
  ofRun (Run.inspect Run.invoke v)

/-- Whether showing a value asks for no call that tells positions of names. -/
def Value.ShownDiscreetly (v : Value) (m : Machine) : Prop :=
  ∀ task s, AsksFor (fun perform => Run.inspect perform.invoke v) (perform budget) m task s →
    Moment.Discreet ⟨budget, task, s⟩

/-! ### The same ends -/

section

variable [Comparison]

/-- Values that correspond on machines that are alike, or errors of which the same is told. -/
inductive Outcome.SameEnd (R : Kin α) :
    Outcome Machine ProgramError α → Outcome Machine ProgramError α → Prop where
  | done {a b : α} {m n : Machine} (hm : m.Alike n) (ha : R (m.both n) a b) :
      SameEnd R (.done a m) (.done b n)
  | failed {e e' : ProgramError} {m n : Machine} (kind : e'.kind = e.kind)
      (message : e'.message n = e.message m) (span? : e'.span? = e.span?)
      (sink : n.sink = m.sink) : SameEnd R (.failed e m) (.failed e' n)
  | halted {m n : Machine} (sink : n.sink = m.sink) : SameEnd R (.halted m) (.halted n)

namespace Outcome

/-- **Of the same ends the same is told.** -/
theorem SameEnd.told_eq {R : Kin α} {view : Machine → α → β}
    {o o' : Outcome Machine ProgramError α} (h : o.SameEnd R o')
    (hview : ∀ m n a b, m.Alike n → R (m.both n) a b → view n b = view m a) :
    o'.told view = o.told view := by
  cases h with
  | done hm ha => rw [told, told, hview _ _ _ _ hm ha, hm.sink]
  | failed kind message span? sink => rw [told, told, kind, message, span?, sink]
  | halted sink => rw [told, told, sink]

variable {R : Kin α} {w : Tables} {f f' : Failure}

theorem SameEnd.ofFailure (hm : m.Alike n) (hf : Kin.failure (m.both n) f f') :
    SameEnd R (.failed (.failed f) m) (.failed (.failed f') n) := by
  obtain ⟨signal, span?⟩ := f
  obtain ⟨signal', span?'⟩ := f'
  obtain ⟨hs, span?⟩ := hf
  refine .failed ?_ ?_ span? hm.sink
  · cases hs <;> rfl
  · cases hs with
    | raised he =>
        change n.exceptionMessage _ ++ _ ++ n.className _ ++ _ =
          m.exceptionMessage _ ++ _ ++ m.className _ ++ _
        rw [hm.exceptionMessage_eq he, hm.className_eq he]
    | _ => rfl

/-- What ends alike on tables of names that are sound has the same end. -/
theorem Alike.sameEnd {o o' : Outcome Machine Failure α} (h : o.Alike R w o')
    (sound : o.state.names.Sound) : SameEnd R (o.mapError .failed) (o'.mapError .failed) := by
  cases h with
  | done _ hm ha => exact .done hm ha
  | failed _ hm hf => exact .ofFailure hm hf
  | halted _ hm => exact .halted hm.sink
  | lost hm => exact (hm sound).elim

theorem Alike.sameEnd_settle {o o' : Outcome Machine Failure Value} (h : o.Alike Kin.value w o')
    (sound : o.state.names.Sound) : SameEnd Kin.value o.settle o'.settle := by
  cases h with
  | done _ hm hv => exact .done hm hv
  | @failed f f' _ _ _ hm hf =>
      have settled := SameEnd.ofFailure (R := Kin.value) hm (Failure.Alike.settle hf)
      obtain ⟨signal, span?⟩ := f
      obtain ⟨signal', span?'⟩ := f'
      obtain ⟨hs, -⟩ := hf
      cases hs with
      | returned hv => exact .done hm hv
      | _ => exact settled
  | halted _ hm => exact .halted hm.sink
  | lost hm => exact (hm sound).elim

end Outcome

open Outcome (SameEnd)

namespace Session

/-- **A program ends alike on machines that are alike**, if its run calls nothing that tells
positions. -/
theorem sameEnd_run (h : m.Alike n)
    (quiet : ∀ x, Reaches path text m x → ¬ x.task.TellsPositions x.machine) :
    SameEnd Kin.value (run path text m) (run path text n) := by
  rcases parse_alike path text h with ⟨a, b, m₁, n₁, hm, hn, hmn, ha⟩ | ⟨e, m₁, n₁, hm, hn, sink⟩
  · rw [run_of_parse hm, run_of_parse hn]
    have discreet : (Moment.start a m₁).Discreet := fun x hx => quiet x ⟨a, m₁, hm, hx⟩
    have grown : (Moment.start a m₁).machine.Evolves (Moment.start a m₁).outcome.state :=
      perform_evolves _ _ _
    exact (discreet.alike_start hmn ha).sameEnd_settle (grown.names.sound hmn.valid.left)
  · rw [run, Action.bind_eq_andThen, Action.bind_eq_andThen, hm, hn]
    exact .failed rfl rfl rfl sink

/-- **Its value is shown alike**, if that calls nothing that tells positions either. -/
theorem sameEnd_shown (h : m.Alike n)
    (quiet : ∀ x, Reaches path text m x → ¬ x.task.TellsPositions x.machine)
    (shows : ∀ v m', run path text m = .done v m' → v.ShownDiscreetly m') :
    SameEnd Kin.same (shown path text m) (shown path text n) := by
  have ended := sameEnd_run h quiet
  rw [shown, Action.bind_eq_andThen, Action.bind_eq_andThen]
  generalize hr : run path text m = o at ended
  generalize run path text n = o' at ended
  cases ended with
  | @done v v' m₁ n₁ hm hv =>
      have script : Script False False none fun perform => Run.inspect perform.invoke v :=
        .ofCalls (Run.calls_inspect v)
      have alike := Perform.alike_of_discreet script.plan (shows v m₁ hr) hm
        fun P Q hP => Run.matched_inspect hP.invoke hv
      exact alike.sameEnd ((script.evolves (perform_evolves budget) m₁).names.sound hm.valid.left)
  | failed kind message span? sink => exact .failed kind message span? sink
  | halted sink => exact .halted sink

end Session

end

/-! ### Runs that are carried out warily -/

theorem Session.quiet_of_endsWarily
    (h : (parse path text m).DoneWith fun node m₀ => (Moment.start node m₀).EndsWarily) :
    ∀ x, Reaches path text m x → ¬ x.task.TellsPositions x.machine := by
  rintro x ⟨node, m₀, hp, reaches⟩
  rw [hp] at h
  exact Moment.EndsWarily.discreet h x reaches

namespace Value

/-- Whether showing a value ends when it is carried out warily. -/
def IsShownWarily (v : Value) (m : Machine) : Prop :=
  (Run.inspect (warily budget).invoke v m).Ended

instance (v : Value) (m : Machine) : Decidable (v.IsShownWarily m) :=
  inferInstanceAs (Decidable (Run.inspect (warily budget).invoke v m).Ended)

theorem IsShownWarily.discreetly {v : Value} (h : v.IsShownWarily m) : v.ShownDiscreetly m := by
  have script : Script False False none fun perform => Run.inspect perform.invoke v :=
    .ofCalls (Run.calls_inspect v)
  intro task s asks
  exact Moment.EndsWarily.discreet (x := ⟨budget, task, s⟩) (ended_of_asks script.plan h asks)

end Value

/-- What some programs do on the first machine, and on one that knows another name. -/
theorem first_machine_runs :
    ((Session.parse "" "def pair(s)\n[s, :up]\nend\nputs pair(:left)\npair(:right)"
        (.boot (.collecting ""))).DoneWith fun node m₀ => (Moment.start node m₀).EndsWarily) ∧
    ((Session.run "" "def pair(s)\n[s, :up]\nend\nputs pair(:left)\npair(:right)"
        (.boot (.collecting ""))).DoneWith fun v m => v.IsShownWarily m) ∧
    ((Session.shown "" "def pair(s)\n[s, :up]\nend\nputs pair(:left)\npair(:right)"
        (.boot (.collecting ""))).DoneWith fun shown m =>
      shown = "[:right, :up]" ∧ m.sink.written = "left\nup\n") ∧
    ((Session.parse "" "def inspect\n:q.object_id.to_s\nend\nself"
        (.boot (.collecting ""))).DoneWith fun node m₀ => (Moment.start node m₀).EndsWarily) ∧
    ((Session.parse "" "def inspect\n:q.object_id.to_s\nend\nself"
        ((Machine.boot (.collecting "")).internAll ["zzz"])).DoneWith fun node m₀ =>
      (Moment.start node m₀).EndsWarily) ∧
    ((Session.shown "" "def inspect\n:q.object_id.to_s\nend\nself"
        (.boot (.collecting ""))).DoneWith fun shown m =>
      shown = "21772" ∧ m.sink.written = "") ∧
    ((Session.shown "" "def inspect\n:q.object_id.to_s\nend\nself"
        ((Machine.boot (.collecting "")).internAll ["zzz"])).DoneWith fun shown m =>
      shown = "22028" ∧ m.sink.written = "") := by
  -- One statement, since the names of the whole library are evaluated once for it.
  rw [Machine.boot_eq]
  decide +kernel

/-- **Names that are known before make no difference.**  Whatever names have been looked up before a
program is run, the same is told of the run, if it never calls a method that tells positions, and
the value is shown by the same text, if showing it does not call one either. -/
theorem known_names_unobservable {path text : String} {sink : Sink} {host : Host}
    (known : List String)
    (quiet : ∀ x, Session.Reaches path text (.boot sink host) x →
      ¬ x.task.TellsPositions x.machine) :
    (Session.run path text ((Machine.boot sink host).internAll known)).told Machine.className =
        (Session.run path text (.boot sink host)).told Machine.className ∧
      ((∀ v m, Session.run path text (.boot sink host) = .done v m → v.ShownDiscreetly m) →
        (Session.shown path text ((Machine.boot sink host).internAll known)).told
            (fun _ shown => shown) =
          (Session.shown path text (.boot sink host)).told fun _ shown => shown) := by
  let _ : Comparison := ⟨False⟩
  have alike := (Machine.alike_boot sink host).internAll id known
  refine ⟨?_, fun shows => ?_⟩
  · exact (Session.sameEnd_run alike quiet).told_eq fun _ _ _ _ hm hv => hm.className_eq hv
  · exact (Session.sameEnd_shown alike quiet shows).told_eq fun _ _ _ _ _ same => same

/-- Symbols whose names are known in another order: the pair is shown as before. -/
theorem known_names_unobservable_pair :
    (∀ x, Session.Reaches "" "def pair(s)\n[s, :up]\nend\nputs pair(:left)\npair(:right)"
      (.boot (.collecting "")) x → ¬ x.task.TellsPositions x.machine) ∧
    (∀ v m, Session.run "" "def pair(s)\n[s, :up]\nend\nputs pair(:left)\npair(:right)"
      (.boot (.collecting "")) = .done v m → v.ShownDiscreetly m) ∧
    (Session.run "" "def pair(s)\n[s, :up]\nend\nputs pair(:left)\npair(:right)"
        ((Machine.boot (.collecting "")).internAll ["up", "right", "pair"])).told
          Machine.className =
      (Session.run "" "def pair(s)\n[s, :up]\nend\nputs pair(:left)\npair(:right)"
        (.boot (.collecting ""))).told Machine.className ∧
    (Session.shown "" "def pair(s)\n[s, :up]\nend\nputs pair(:left)\npair(:right)"
        ((Machine.boot (.collecting "")).internAll ["up", "right", "pair"])).told
          (fun _ shown => shown) = ⟨.value "[:right, :up]", "left\nup\n"⟩ := by
  obtain ⟨reads, runs, shown, -⟩ := first_machine_runs
  have quiet := Session.quiet_of_endsWarily reads
  have shows : ∀ v m, Session.run ""
      "def pair(s)\n[s, :up]\nend\nputs pair(:left)\npair(:right)" (.boot (.collecting "")) =
        .done v m → v.ShownDiscreetly m := by
    intro v m h
    rw [h] at runs
    exact Value.IsShownWarily.discreetly runs
  obtain ⟨sameRun, sameText⟩ := known_names_unobservable ["up", "right", "pair"] quiet
  exact ⟨quiet, shows, sameRun, (sameText shows).trans shown.told_eq⟩

/-- **Showing a value may tell the names that are known.**  The program calls nothing that tells
positions; the method that it defines does, and is called to show the value. -/
theorem inspection_tells_known_names :
    (∀ x, Session.Reaches "" "def inspect\n:q.object_id.to_s\nend\nself"
      (.boot (.collecting "")) x → ¬ x.task.TellsPositions x.machine) ∧
    (∀ x, Session.Reaches "" "def inspect\n:q.object_id.to_s\nend\nself"
      ((Machine.boot (.collecting "")).internAll ["zzz"]) x →
        ¬ x.task.TellsPositions x.machine) ∧
    (Session.shown "" "def inspect\n:q.object_id.to_s\nend\nself"
        ((Machine.boot (.collecting "")).internAll ["zzz"])).told (fun _ shown => shown) ≠
      (Session.shown "" "def inspect\n:q.object_id.to_s\nend\nself"
        (.boot (.collecting ""))).told fun _ shown => shown := by
  obtain ⟨-, -, -, reads, reads', shown, shown'⟩ := first_machine_runs
  refine ⟨Session.quiet_of_endsWarily reads, Session.quiet_of_endsWarily reads', ?_⟩
  rw [shown.told_eq, shown'.told_eq]
  simp

end MiniRuby
