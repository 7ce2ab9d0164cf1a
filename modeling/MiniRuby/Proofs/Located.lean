import MiniRuby.Proofs.Evaluator.Places
import MiniRuby.Proofs.Token.Reads
import MiniRuby.Proofs.Typing.Boot

/-!
# Every failure is located

Whatever is wrong with a program, the user is shown where: an error of a text has a span in the
text, and so has a failure of a run that starts on the first machine.  The spans of tokens and of
errors of the lexer are within the text, those of nodes and of errors of the grammar are put
together from them, and a failure is noted at the span of a node.  A span that is within a text
touches a line of it, so that there is something to mark.

* `Lexer.within_of_error`, `LaidOut.within`: where the lexer finds errors and tokens.
* `Source.mark_ne_empty`: the mark of a span in a text says something.
* `failures_located`: every failure of a program has a span within the text, which can be marked.
-/

namespace MiniRuby

/-! ### Spans within a text -/

/-- Whether a span is within a text of `n` characters, the end of the text included. -/
structure Span.Within (n : Nat) (s : Span) : Prop where
  ordered : s.first ≤ s.last
  last_le : s.last ≤ n

namespace Span

variable {n : Nat}

theorem within_point {pos : Nat} (h : pos ≤ n) : (point pos).Within n := ⟨Nat.le_refl pos, h⟩

theorem closed_within (n : Nat) : Closed (Within n) where
  default := ⟨Nat.le_refl 0, Nat.zero_le n⟩
  merge ha hb := by
    refine ⟨?_, Nat.max_le.mpr ⟨ha.last_le, hb.last_le⟩⟩
    exact (Nat.min_le_left _ _).trans (ha.ordered.trans (Nat.le_max_left _ _))

end Span

/-! ### Tokens -/

/-- Tokens that are laid out in a text are within it. -/
theorem LaidOut.within {stop pos : Nat} {ts : List Token} (h : LaidOut stop pos ts) :
    ∀ t ∈ ts, t.span.Within stop := by
  induction h with
  | eof =>
      intro t ht
      obtain rfl := List.mem_singleton.mp ht
      exact Span.within_point (Nat.le_refl stop)
  | cons _ _ holds before _ ih =>
      intro t ht
      rcases List.mem_cons.mp ht with rfl | ht
      · exact ⟨holds, Nat.le_of_lt before⟩
      · exact ih t ht

namespace Lexer

variable {pos : Nat} {c : Char} {rest : List Char} {e : SyntaxError}

theorem within_of_scanNumber_error (h : scanNumber pos c rest = .error e) :
    e.span.Within (pos + 1 + rest.length) := by
  have tail : (numberTail false rest).length ≤ rest.length := numberTail_length_le
  have digits : Span.Within (pos + 1 + rest.length) ⟨pos, pos + (numberTail false rest).length⟩ :=
    ⟨Nat.le_add_right _ _, by dsimp only; omega⟩
  unfold scanNumber at h
  dsimp only at h
  split at h
  · split at h <;> cases h
    exact digits
  · split at h <;> cases h
    exact digits

theorem within_of_scanString_error {tail : Option StringTail}
    (h : scanString pos rest tail = .error e) : e.span.Within (pos + 1 + rest.length) := by
  cases tail with
  | some t => cases h
  | none =>
      cases h
      exact Span.within_point (Nat.le_refl _)

theorem within_of_scanSymbol_error (h : scanSymbol pos rest = .error e) :
    e.span.Within (pos + 1 + rest.length) := by
  unfold scanSymbol at h
  split at h
  · cases h
  · split at h <;> cases h
    · exact ⟨Nat.le_succ pos, by simp⟩
    · exact Span.within_point (by omega)

/-- A token that cannot be read: the error is at most at the end of the text. -/
theorem within_of_scan_error (h : scan pos c rest = .error e) :
    e.span.Within (pos + 1 + rest.length) := by
  have here : (Span.point pos).Within (pos + 1 + rest.length) := Span.within_point (by omega)
  unfold scan at h
  split at h
  · cases h
  split at h
  · exact within_of_scanNumber_error h
  split at h
  · exact within_of_scanString_error h
  split at h
  · exact within_of_scanString_error h
  split at h
  · split at h <;> cases h
    exact here
  split at h
  · exact within_of_scanSymbol_error h
  split at h
  · cases h
  split at h <;> cases h
  exact here

/-- **An error that the lexer finds is within the text.** -/
theorem within_of_error {broken : Bool} {text : List Char}
    (h : tokensFrom pos broken text = .error e) : e.span.Within (pos + text.length) := by
  -- The end of the text stays where it is when the reader moves on.
  have stop : ∀ {n n' : Nat}, e.span.Within n' → n' = n → e.span.Within n := fun h e => e ▸ h
  fun_induction tokensFrom pos broken text with
  | case1 => cases h
  | case2 pos broken c rest hc ih => exact stop (ih h) (by simp; omega)
  | case3 pos broken rest _ ih =>
      cases he : tokensFrom (pos + 1) true rest with
      | error e' =>
          rw [he] at h
          cases h
          exact stop (ih he) (by simp; omega)
      | ok ts =>
          rw [he] at h
          cases h
  | case4 pos broken c rest _ _ hj ih =>
      cases rest with
      | nil => simp [joinsLines] at hj
      | cons d rest => exact stop (ih h) (by simp; omega)
  | case5 pos broken rest =>
      rename_i ih
      have comment := takeWhile_length_le (· ≠ '\n') rest
      exact stop (ih h) (by simp only [List.length_drop, List.length_cons]; omega)
  | case6 pos broken c rest _ _ _ _ ih =>
      cases hs : scan pos c rest with
      | error e' =>
          rw [hs] at h
          cases h
          exact stop (within_of_scan_error hs) (by simp; omega)
      | ok r =>
          obtain ⟨kind, n⟩ := r
          have hn := (scan_append hs).1
          rw [hs] at h
          change ((tokensFrom (pos + 1 + n) false (rest.drop n)).bind fun ts =>
            .ok (⟨kind, ⟨pos, pos + n⟩⟩ :: ts)) = .error e at h
          cases he : tokensFrom (pos + 1 + n) false (rest.drop n) with
          | error e' =>
              rw [he] at h
              cases h
              exact stop (ih n he) (by simp only [List.length_drop, List.length_cons]; omega)
          | ok ts =>
              rw [he] at h
              cases h

end Lexer

/-! ### Marks -/

/-- Every position of a text is on a line of it. -/
theorem exists_line {number first pos p : Nat} {text : List Char} (hf : first ≤ p)
    (hp : p ≤ pos + text.length) :
    ∃ l ∈ linesFrom number first pos text, l.first ≤ p ∧ p ≤ l.stop := by
  induction text generalizing number first pos with
  | nil => exact ⟨_, List.mem_singleton.mpr rfl, hf, hp⟩
  | cons c text ih =>
      rw [List.length_cons] at hp
      rw [linesFrom]
      split
      · by_cases h : p ≤ pos
        · exact ⟨_, .head _, hf, h⟩
        · obtain ⟨l, hl, at_⟩ := @ih (number + 1) (pos + 1) (pos + 1) (by omega) (by omega)
          exact ⟨l, .tail _ hl, at_⟩
      · exact ih hf (by omega)

namespace Source

variable (s : Source) (columns : List Char → Nat) (span : Span)

/-- The mark of a line says something, if only its number. -/
theorem markLine_ne_empty (line : Line) : s.markLine columns span line ≠ "" := by
  intro h
  unfold markLine at h
  obtain ⟨-, last⟩ := String.append_eq_empty_iff.mp h
  exact absurd last (by decide)

/-- **What is within a text can be marked.** -/
theorem mark_ne_empty (h : span.Within s.code.length) : s.mark span columns ≠ "" := by
  have starts : span.first ≤ 0 + s.code.length := by
    rw [Nat.zero_add]
    exact h.ordered.trans h.last_le
  obtain ⟨line, hl, before, after⟩ := @exists_line 1 0 0 _ _ (Nat.zero_le _) starts
  have touched : touches span line = true := by
    simpa [touches] using ⟨after, before.trans h.ordered⟩
  have marked : s.markLine columns span line ∈
      (s.lines.filter (touches span)).map (s.markLine columns span) :=
    List.mem_map_of_mem (List.mem_filter.mpr ⟨hl, touched⟩)
  -- The text of one line is part of the whole.
  intro e
  have none := congrArg String.toList e
  rw [mark, String.toList_join] at none
  have empty := List.flatMap_eq_nil_iff.mp none _ marked
  exact markLine_ne_empty s columns span line (String.toList_eq_nil_iff.mp empty)

end Source

/-! ### Runs -/

variable {path text : String} {sink : Sink} {host : Host} {m m' : Machine}

/-- **A text that can be read is well built**, and an error in one that cannot is within it. -/
theorem gave_parse (path text : String) (m : Machine) :
    match Session.parse path text m with
    | .done node _ => node.WellBuilt (Span.Within text.length)
    | .failed e _ => ∃ span, e.span? = some span ∧ span.Within text.length
    | .halted _ => True := by
  rw [← String.length_toList]
  unfold Session.parse
  cases ht : tokenize text.toList with
  | error e =>
      have within := Lexer.within_of_error ht
      rw [Nat.zero_add] at within
      exact ⟨e.span, rfl, within⟩
  | ok tokens =>
      have laid := (Lexer.reads_of_eq ht).laidOut
      rw [Nat.zero_add] at laid
      have gave := gave_parseTokens (Span.closed_within _) laid.within m.names (m.frames.names .top)
      dsimp only
      cases hp : parseTokens tokens m.names (m.frames.names .top) with
      | done node c =>
          rw [hp] at gave
          exact gave
      | failed e c =>
          rw [hp] at gave
          exact ⟨e.span, rfl, gave⟩
      | halted c => trivial

/-- A run leaves the text that was read as the one in which failures are marked. -/
theorem source?_run (path text : String) (m : Machine) :
    (Session.run path text m).state.source? = some (Source.ofText path text) := by
  obtain ⟨names, read⟩ := Session.state_parse path text m
  cases hp : Session.parse path text m with
  | done node m₀ =>
      rw [hp] at read
      obtain rfl : m₀ = _ := read
      rw [Session.state_run_of_parse hp]
      exact (perform_evolves _ _ _).source?
  | failed e m₀ | halted m₀ =>
      rw [hp] at read
      obtain rfl : m₀ = _ := read
      rw [Session.run, Action.bind_eq_andThen, hp]
      rfl

/-- The span of an error is within the text. -/
theorem within_of_run_failed {e : ProgramError}
    (h : Session.run path text (Machine.boot sink host) = .failed e m') :
    ∃ span, e.span? = some span ∧ span.Within text.length := by
  have gave := gave_parse path text (Machine.boot sink host)
  cases hp : Session.parse path text (Machine.boot sink host) with
  | done node m₀ =>
      rw [hp] at gave
      have ready := (ready_of_parse hp gave).1
      rw [Session.run_of_parse hp] at h
      cases ho : (Moment.start node m₀).outcome with
      | done v s | halted s =>
          rw [ho] at h
          cases h
      | failed f s =>
          obtain ⟨span, noted, within⟩ := perform_blames budget ready ho
          rw [ho] at h
          obtain ⟨signal, place?⟩ := f
          cases signal <;> cases h <;> exact ⟨span, noted, within⟩
  | failed e' m₀ =>
      rw [hp] at gave
      rw [Session.run, Action.bind_eq_andThen, hp] at h
      cases h
      exact gave
  | halted m₀ =>
      rw [Session.run, Action.bind_eq_andThen, hp] at h
      cases h

/-- **Every failure is located.**  When a text is run on the first machine, wherever its output
goes and whatever the host, and there is an error, be it one of the text, a fault or an exception
that was raised: the error has a span, which begins no later than it ends and ends no later than the
text, and the lines that it touches are there to be shown. -/
theorem failures_located (path text : String) (sink : Sink) (host : Host) (e : ProgramError)
    (m' : Machine) (h : Session.run path text (Machine.boot sink host) = .failed e m') :
    ∃ span, e.span? = some span ∧ span.first ≤ span.last ∧ span.last ≤ text.length ∧
      m'.mark span ≠ "" := by
  obtain ⟨span, noted, within⟩ := within_of_run_failed h
  have read := source?_run path text (Machine.boot sink host)
  rw [h] at read
  refine ⟨span, noted, within.ordered, within.last_le, ?_⟩
  have shown : m'.mark span = (Source.ofText path text).mark span m'.host.columns := by
    rw [Machine.mark, show m'.source? = _ from read]
  rw [shown]
  exact Source.mark_ne_empty _ _ _ (by rwa [Source.ofText, String.length_toList])

/-- A `break` outside of all loops, on a machine that refuses all output. -/
theorem failures_located_break : ∃ span m',
    Session.run "" "break" (Machine.boot (.refusing "closed")) =
      .failed (.failed ⟨.fault .strayBreak, some span⟩) m' ∧
    span.first ≤ span.last ∧ span.last ≤ 5 ∧ m'.mark span ≠ "" := by
  have read : tokenize "break".toList = .ok [⟨.keyword .kBreak, ⟨0, 4⟩⟩, ⟨.eof, .point 5⟩] := by
    with_unfolding_all rfl
  have stray : ∀ m : Machine, ∃ m', Session.run "" "break" m =
      .failed (.failed ⟨.fault .strayBreak, some ⟨0, 4⟩⟩) m' := by
    intro m
    rw [Session.run_of_parse (Session.parse_of_tokens "" read rfl)]
    exact ⟨_, rfl⟩
  obtain ⟨m', fails⟩ := stray (Machine.boot (.refusing "closed"))
  obtain ⟨span, noted, ordered, bounded, marked⟩ := failures_located "" "break" _ _ _ m' fails
  cases noted
  exact ⟨_, m', fails, ordered, bounded, marked⟩

end MiniRuby
