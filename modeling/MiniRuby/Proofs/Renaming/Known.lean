import MiniRuby.Proofs.Registry
import MiniRuby.Proofs.Renaming.Program

/-!
# The names of running programs

A machine that is alike to itself has no names but those of its table, and so has a task.  A program
that starts there is compared with itself: on one table of names what is alike is the same, and so
tasks go side by side with themselves even where they tell the positions of names.

* `Moment.Reaches.known`: a task that has names of the table only leads to such tasks.
* `Machine.Reachable.alike`: all machines that programs lead to are alike to themselves.
* `Machine.Reachable.has_ivar`: so the instance variables of their objects have names of the table.
-/

namespace MiniRuby

section

variable [Comparison] {α : Type}

/-- What ends on tables of names that are sound leaves machines that are alike. -/
theorem Outcome.Alike.state {R : Kin α} {w : Tables} {o o' : Outcome Machine Failure α}
    (h : o.Alike R w o') (sound : o.state.names.Sound) : o.state.Alike o'.state := by
  cases h with
  | done _ hm _ | failed _ hm _ | halted _ hm => exact hm
  | lost hm => exact (hm sound).elim

/-- Tasks that are alike on one table of names are the same. -/
theorem Task.Alike.eq {w : Tables} {task task' : Task} (h : task.Alike w task') (hw : w.Valid)
    (same : Comparison.sameTable) : task' = task := by
  have sound := hw.left
  cases h with
  | eval hn he =>
      obtain ⟨scope, hs⟩ := he
      rw [(Kin.Tight.node sound).eq hw same hn, (Kin.Tight.value sound).eq hw same hs]
  | invoke hf hv ha =>
      rw [(Kin.Tight.method sound).eq hw same hf, (Kin.Tight.value sound).eq hw same hv,
        (Kin.Tight.value sound).list.eq hw same ha]

/-- Whether all names in a machine and in a task are names of the table of the machine. -/
structure Task.Known (task : Task) (m : Machine) : Prop where
  machine : m.Alike m
  task : task.Alike (m.both m) task

/-! ### Tasks -/

section Tasks

variable (same : Comparison.sameTable)

include same

/-- **A step goes side by side with itself**, if the tasks do that it asks for. -/
theorem Perform.step_known (fuel : Nat) (P : Perform)
    (hP : ∀ task m, Task.Known task m → (P task m).Alike Kin.value (m.both m) (P task m))
    (task : Task) (m : Machine) (h : Task.Known task m) :
    (P.step fuel task m).Alike Kin.value (m.both m) (P.step fuel task m) := by
  have matched : P.Matched P := by
    intro w task task' alike m n hw hmn
    obtain rfl : n = m := hmn.eq (hmn.valid.same same)
    have alike := alike.mono hw
    obtain rfl : task' = task := alike.eq hmn.valid same
    exact hP _ _ ⟨hmn, alike⟩
  exact alike_step matched fuel h.machine h.task fun _ => same

theorem alike_perform (fuel : Nat) {task : Task} {m : Machine} (h : Task.Known task m) :
    (perform fuel task m).Alike Kin.value (m.both m) (perform fuel task m) :=
  @perform_of_step Task.Known (fun _ m o => o.Alike Kin.value (m.both m) o)
    (Perform.step_known same) (fun _ _ h => .halted le_rfl h.machine) fuel task m h

/-- The tasks that a task asks for have names of the table, too. -/
theorem Moment.Asks.known {x y : Moment} (h : x.Asks y) (hx : x.task.Known x.machine) :
    y.task.Known y.machine := by
  -- A machine with a constant whose name is not in its table.
  let bad : Machine :=
    { Machine.bare (.collecting "") with constants := Bindings.empty.insert ⟨1000⟩ .nil }
  have hbad : ∀ (_ : Task) m, ¬ Outcome.Alike Kin.value (Machine.both m m) (.halted bad)
      (.halted bad) := by
    intro _ m h
    have alike := h.state NameTable.sound_initial
    obtain _ | ⟨⟨⟨has, -⟩, -⟩, -⟩ := alike.constants
    exact absurd has (by decide)
  exact @AsksFor.requires Task.Known (fun _ m o => o.Alike Kin.value (m.both m) o) bad hbad
    (Perform.step_known same) (perform y.fuel) (fun _ _ h => alike_perform same y.fuel h) y.fuel
    x.task y.task x.machine y.machine h.2 hx

theorem Moment.Reaches.known {x y : Moment} (h : x.Reaches y) (hx : x.task.Known x.machine) :
    y.task.Known y.machine := by
  induction h with
  | refl => exact hx
  | tail _ asks ih => exact asks.known same ih

end Tasks

/-! ### Programs -/

namespace Machine

variable {m : Machine} {path text : String} {x : Moment}

/-- Reading a text adds names only. -/
theorem Alike.parse (h : m.Alike m) (path text : String) :
    (Session.parse path text m).state.Alike (Session.parse path text m).state := by
  have grown := Session.names_parse path text m
  obtain ⟨names, read⟩ := Session.state_parse path text m
  rw [read] at grown ⊢
  have sound := grown.sound h.valid.left
  have known := h.withNames ⟨grown.toExtends, grown.toExtends⟩ ⟨sound, sound, fun _ => rfl⟩
  exact { known with source? := rfl }

variable (same : Comparison.sameTable)

include same

/-- Where a task of a program begins, all names are names of the table. -/
theorem Alike.begins (h : m.Alike m) (hx : Session.Reaches path text m x) :
    x.task.Known x.machine := by
  obtain ⟨node, m₀, hp, reaches⟩ := hx
  refine reaches.known same ?_
  rcases Session.parse_alike path text h with ⟨a, b, m₁, n₁, hm, hn, alike, ha⟩ | ⟨e, m₁, n₁, hm, -⟩
  · cases hm.symm.trans hp
    cases hn.symm.trans hp
    exact ⟨{ alike with depth := rfl }, .eval ha (.mk .top (.obj _))⟩
  · cases hm.symm.trans hp

theorem Alike.ends (h : m.Alike m) (hx : Session.Reaches path text m x) :
    x.outcome.state.Alike x.outcome.state := by
  have known := h.begins same hx
  have grown := (perform_evolves x.fuel x.task x.machine).names
  exact (alike_perform same x.fuel known).state (grown.sound known.machine.valid.left)

theorem Alike.run (h : m.Alike m) (path text : String) :
    (Session.run path text m).state.Alike (Session.run path text m).state := by
  have read := h.parse path text
  cases hp : Session.parse path text m with
  | done node m₀ =>
      rw [Session.state_run_of_parse hp]
      exact h.ends same ⟨node, m₀, hp, .refl⟩
  | failed e m₀ | halted m₀ =>
      rw [hp] at read
      rw [Session.run, Action.bind_eq_andThen, hp]
      exact read

theorem Settled.alike (h : m.Settled) : m.Alike m := by
  induction h with
  | boot sink host => exact alike_boot sink host
  | run _ path text ih => exact ih.run same path text

/-- **All machines that programs lead to are alike to themselves.** -/
theorem Reachable.alike (h : m.Reachable) : m.Alike m := by
  cases h with
  | settled h => exact h.alike same
  | begins h hx => exact ((h.alike same).begins same hx).machine
  | ends h hx => exact (h.alike same).ends same hx

end Machine

end

/-! ### Names of running programs -/

namespace Machine

variable {m : Machine}

/-- The names of a running program are sound. -/
theorem Reachable.sound_names (h : m.Reachable) : m.names.Sound := by
  let _ : Comparison := ⟨True⟩
  exact (h.alike trivial).valid.left

/-- **The instance variables of a running program** have names of its table. -/
theorem Reachable.has_ivar (h : m.Reachable) {o : ObjectId} {x : NameId}
    (hx : x ∈ (m.heap.object o).ivars.names) : m.names.Has x := by
  let _ : Comparison := ⟨True⟩
  exact (h.alike trivial).has_ivar hx

end Machine

end MiniRuby
