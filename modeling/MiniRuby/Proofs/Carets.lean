import Mathlib.Data.List.Sort
import Mathlib.Order.Bounds.Basic
import MiniRuby.Source

/-!
# Lines and carets

A position lies on the line whose number is one more than the line breaks before it, and what is
printed for a span are the lines from that of its first position to that of its last one.

The lines of a text are told by where they begin and end (`Line.Of`): a line begins at the start or
after a line break, ends at a line break or at the end, and has none in between.  So a position lies
between both ends of a line exactly when as many line breaks come before it as before the line, and
everything that is said about lines is a matter of counting line breaks.

* `Source.lineNumber_eq`: the number of the line that holds a position.
* `Line.Of.touches_iff`: which lines a span touches.
* `Source.points_of_touches`: the row below such a line.
* `mark_shows`: what is printed for a span.
-/

namespace MiniRuby

/-- Whether each character takes up one column, in all stretches of a text. -/
def Text.OneColumnEach (columns : List Char → Nat) (text : List Char) : Prop :=
  ∀ part, part <:+: text → columns part = part.length

/-- How many line breaks come before a position. -/
def breaks (code : List Char) (pos : Nat) : Nat := (code.take pos).count '\n'

namespace Source

/-- The characters that stand between the start of a line and a position on it. -/
def column (s : Source) (pos : Nat) : Nat :=
  ((s.code.take pos).reverse.takeWhile (· ≠ '\n')).length

/-- The positions of a span on the line with number `k`. -/
def Covers (s : Source) (span : Span) (k pos : Nat) : Prop :=
  span.first ≤ pos ∧ pos ≤ span.last ∧ s.lineNumber pos = k

/-- Those at which a character of the line stands. -/
def Marks (s : Source) (span : Span) (k pos : Nat) : Prop :=
  s.Covers span k pos ∧ ∃ c, s.code[pos]? = some c ∧ c ≠ '\n'

/-- Whether the carets of a row stand below the characters of line `k` in the span, and below
nothing else.  If there are none, one caret stands at the first position of the span on the line,
which is that of the line break or of the end of the text. -/
def Points (s : Source) (span : Span) (k : Nat) (row : String) : Prop :=
  ∃ lead more, row = blanks lead ++ carets (more + 1) ∧
    ((∃ pos, s.Marks span k pos) →
      ∀ j, lead ≤ j ∧ j ≤ lead + more ↔ ∃ pos, s.Marks span k pos ∧ s.column pos = j) ∧
    ((¬∃ pos, s.Marks span k pos) →
      more = 0 ∧ ∃ pos, IsLeast {pos | s.Covers span k pos} pos ∧ s.column pos = lead)

/-- What is drawn below a line. -/
def row (s : Source) (columns : List Char → Nat) (span : Span) (l : Line) : String :=
  let start := max span.first l.first
  let stop := min (span.last + 1) l.stop
  blanks (columns (s.slice l.first start)) ++
    carets (max (if start < stop then columns (s.slice start stop) else 1) 1)

/-- What is written above a line: its number, after the path if there is one. -/
def title (s : Source) (k : Nat) : String :=
  if s.path.isEmpty then toString k else s.path ++ ":" ++ toString k

/-- Whether an entry shows line `k` and, if each of its characters takes up one column, the part of
it in the span. -/
def Shows (s : Source) (columns : List Char → Nat) (span : Span) (k : Nat) (entry : String) :
    Prop :=
  ∃ text row, (s.code.splitOn '\n')[k - 1]? = some text ∧
    entry = s.title k ++ "\n" ++ String.ofList text ++ "\n" ++ row ++ "\n" ∧
    (Text.OneColumnEach columns text → s.Points span k row)

/-- Whether the positions from `first` up to `stop` are a stretch of the text. -/
def InRange (s : Source) (first stop : Nat) : Prop := first ≤ stop ∧ stop ≤ s.code.length

/-- Whether this holds of all that is cut out of the text to show a line: its text, what comes
before the carets, and what they stand below, if that is anything. -/
def CutsInRange (s : Source) (span : Span) (l : Line) : Prop :=
  s.InRange l.first l.stop ∧ s.InRange l.first (max span.first l.first) ∧
    (max span.first l.first < min (span.last + 1) l.stop →
      s.InRange (max span.first l.first) (min (span.last + 1) l.stop))

end Source

/-! ### Counting line breaks -/

section Breaks

variable {code : List Char} {p q : Nat}

/-- The further, the more line breaks. -/
theorem breaks_mono (code : List Char) (h : p ≤ q) : breaks code p ≤ breaks code q :=
  (List.take_sublist_take_left h).count_le _

theorem breaks_succ (h : code[p]? = some '\n') : breaks code (p + 1) = breaks code p + 1 := by
  rw [breaks, breaks, List.take_add_one, h, List.count_append]
  rfl

/-- A position past a line break has more of them before it. -/
theorem breaks_lt (h : code[p]? = some '\n') (hpq : p < q) : breaks code p < breaks code q :=
  calc breaks code p < breaks code (p + 1) := by rw [breaks_succ h]; exact Nat.lt_succ_self _
    _ ≤ breaks code q := breaks_mono code hpq

end Breaks

/-- Whether a line is one of the text: where it begins, where it ends, and the number it has. -/
structure Line.Of (code : List Char) (l : Line) : Prop where
  number : l.number = breaks code l.first + 1
  ordered : l.first ≤ l.stop
  bounded : l.stop ≤ code.length
  opened : l.first = 0 ∨ code[l.first - 1]? = some '\n'
  unbroken : '\n' ∉ (code.drop l.first).take (l.stop - l.first)
  closed : l.stop = code.length ∨ code[l.stop]? = some '\n'

namespace Line.Of

variable {code : List Char} {l : Line} {p : Nat}

/-- No line break comes between the start of a line and a position on it. -/
theorem unbroken_to (h : l.Of code) (hs : p ≤ l.stop) :
    '\n' ∉ (code.drop l.first).take (p - l.first) := fun mem =>
  h.unbroken ((List.take_sublist_take_left (by omega)).subset mem)

/-- A text up to a point of a line is what is before the line, and the line up to there. -/
theorem take_eq (hf : l.first ≤ p) :
    code.take p = code.take l.first ++ (code.drop l.first).take (p - l.first) := by
  rw [← List.take_add, Nat.add_sub_cancel' hf]

/-- The characters of a line are no line breaks. -/
theorem not_break (h : l.Of code) (hf : l.first ≤ p) (hs : p < l.stop) :
    code[p]? ≠ some '\n' := fun hc => h.unbroken <| by
  refine List.mem_iff_getElem?.mpr ⟨p - l.first, ?_⟩
  rw [List.getElem?_take_of_lt (by omega), List.getElem?_drop, Nat.add_sub_cancel' hf, hc]

/-- All positions on a line come after the same line breaks. -/
theorem breaks_eq (h : l.Of code) (hf : l.first ≤ p) (hs : p ≤ l.stop) :
    breaks code p + 1 = l.number := by
  rw [h.number, breaks, take_eq hf, List.count_append, List.count_eq_zero.mpr (h.unbroken_to hs)]
  rfl

/-- A position is before the end of a line if it has no more line breaks before it. -/
theorem le_stop_iff (h : l.Of code) (hp : p ≤ code.length) :
    p ≤ l.stop ↔ breaks code p + 1 ≤ l.number := by
  have last := h.breaks_eq h.ordered le_rfl
  constructor
  · intro hs
    have := breaks_mono code hs
    omega
  · intro few
    by_contra past
    rcases h.closed with ends | ends
    · omega
    · have := breaks_lt ends (Nat.lt_of_not_le past)
      omega

/-- It is behind the start of the line if it has no fewer. -/
theorem first_le_iff (h : l.Of code) : l.first ≤ p ↔ l.number ≤ breaks code p + 1 := by
  have head := h.number
  constructor
  · intro hf
    have := breaks_mono code hf
    omega
  · intro many
    by_contra before
    rcases h.opened with opens | opens
    · omega
    · have fewer := breaks_lt (q := l.first) opens (by omega)
      have := breaks_mono code (show p ≤ l.first - 1 by omega)
      omega

/-- A position lies on a line if and only if it comes after as many line breaks. -/
theorem holds_iff (h : l.Of code) (hp : p ≤ code.length) :
    breaks code p + 1 = l.number ↔ l.first ≤ p ∧ p ≤ l.stop := by
  rw [h.le_stop_iff hp, h.first_le_iff]
  omega

/-- **The lines that a span touches** are those from the line of its first position to the line of
its last one. -/
theorem touches_iff (h : l.Of code) {span : Span} (hs : span.first ≤ span.last)
    (hn : span.last ≤ code.length) : Source.touches span l = true ↔
      breaks code span.first + 1 ≤ l.number ∧ l.number ≤ breaks code span.last + 1 := by
  rw [Source.touches, Bool.and_eq_true, decide_eq_true_iff, decide_eq_true_iff,
    h.le_stop_iff (hs.trans hn), h.first_le_iff]

end Line.Of

/-! ### The lines of a text -/

section Lines

variable {code pre cs : List Char} {number first pos : Nat} {l : Line}

/-- The stretch from the start of the current line to the end of what has been read. -/
theorem stretch_of_read (split : code = pre ++ cs) (hf : first ≤ pre.length) :
    (code.drop first).take (pre.length - first) = pre.drop first := by
  rw [split, List.drop_append_of_le_length hf, List.take_left' List.length_drop]

/-- What has been read since the start of a line is a line, once a line break or the end comes. -/
theorem Line.of_read (split : code = pre ++ cs) (hf : first ≤ pre.length)
    (opened : first = 0 ∨ code[first - 1]? = some '\n') (unbroken : '\n' ∉ pre.drop first)
    (closed : pre.length = code.length ∨ code[pre.length]? = some '\n') :
    Line.Of code ⟨pre.count '\n' + 1, first, pre.length⟩ where
  number := by
    have all : (pre.take first ++ pre.drop first).count '\n' = (pre.take first).count '\n' := by
      rw [List.count_append, List.count_eq_zero.mpr unbroken, Nat.add_zero]
    rw [breaks, split, List.take_append_of_le_length hf, ← all, List.take_append_drop]
  ordered := hf
  bounded := by simp [split]
  opened := opened
  unbroken := by rwa [stretch_of_read split hf]
  closed := closed

/-- The lines that are found from a position on are lines of the text, if `pre` is what comes
before it. -/
theorem of_mem_linesFrom (split : code = pre ++ cs) (hn : number = pre.count '\n' + 1)
    (hp : pos = pre.length) (hf : first ≤ pre.length)
    (opened : first = 0 ∨ code[first - 1]? = some '\n') (unbroken : '\n' ∉ pre.drop first)
    (hl : l ∈ linesFrom number first pos cs) : l.Of code := by
  induction cs generalizing pre number first pos with
  | nil =>
    rw [linesFrom, List.mem_singleton] at hl
    subst hl hn hp
    exact Line.of_read split hf opened unbroken (.inl (by simp [split]))
  | cons c cs ih =>
    have front : code = (pre ++ [c]) ++ cs := by simp [split]
    have length : pos + 1 = (pre ++ [c]).length := by simp [hp]
    rw [linesFrom] at hl
    split at hl
    next hc =>
      subst hc
      have ends : code[pre.length]? = some '\n' := by simp [split]
      rcases List.mem_cons.mp hl with rfl | hl
      · subst hn hp
        exact Line.of_read split hf opened unbroken (.inr ends)
      · refine ih front (by simp [hn]) length length.le (.inr ?_) ?_ hl
        · rwa [Nat.add_sub_cancel, hp]
        · rw [length, List.drop_length]
          exact List.not_mem_nil
    next hc =>
      refine ih front (by simp [hn, hc]) length (by simp; omega) opened ?_ hl
      rw [List.drop_append_of_le_length hf, List.mem_append, List.mem_singleton]
      exact fun mem => mem.elim unbroken (hc ·.symm)

/-- Lines are numbered one after the other, and there is one more than there are breaks. -/
theorem map_number_linesFrom :
    (linesFrom number first pos cs).map (·.number) = List.range' number (cs.count '\n' + 1) := by
  induction cs generalizing number first pos with
  | nil => rfl
  | cons c cs ih =>
    rw [linesFrom]
    split
    next hc =>
      rw [List.map_cons, ih, hc, List.count_cons_self]
      rfl
    next hc => rw [ih, List.count_cons_of_ne hc]

/-- Each position from the start of the current line on lies on a line. -/
theorem exists_linesFrom (hf : first ≤ p) (hp : p ≤ pos + cs.length) :
    ∃ l ∈ linesFrom number first pos cs, l.first ≤ p ∧ p ≤ l.stop := by
  induction cs generalizing number first pos with
  | nil => exact ⟨_, List.mem_singleton_self _, hf, hp⟩
  | cons c cs ih =>
    have hp : p ≤ pos + 1 + cs.length := by simp at hp; omega
    rw [linesFrom]
    split
    · rcases Nat.lt_or_ge pos p with later | here
      · obtain ⟨l, hl, hold⟩ := ih later hp
        exact ⟨l, List.mem_cons_of_mem _ hl, hold⟩
      · exact ⟨_, List.mem_cons_self, hf, here⟩
    · exact ih hf hp

/-- The texts of the lines are what the line breaks split the text into. -/
theorem map_text_linesFrom (split : code = pre ++ cs) (hp : pos = pre.length)
    (hf : first ≤ pre.length) :
    (linesFrom number first pos cs).map (fun l => (code.drop l.first).take (l.stop - l.first)) =
      (cs.splitOn '\n').modifyHead (pre.drop first ++ ·) := by
  subst hp
  induction cs generalizing pre number first with
  | nil => simp [linesFrom, stretch_of_read split hf]
  | cons c cs ih =>
    have front : code = (pre ++ [c]) ++ cs := by simp [split]
    have length : pre.length + 1 = (pre ++ [c]).length := by simp
    rw [linesFrom, List.splitOn, List.splitOnP_cons_eq_if_modifyHead, ← List.splitOn, length]
    by_cases hc : c = '\n'
    · rw [if_pos hc, if_pos (by simp [hc]), List.map_cons, stretch_of_read split hf,
        ih front le_rfl, List.drop_length]
      exact congrArg₂ List.cons (by simp) (congrFun List.modifyHead_id _)
    · rw [if_neg hc, if_neg (by simp [hc]), ih front (by simp; omega), List.modifyHead_modifyHead,
        List.drop_append_of_le_length hf]
      congr 1
      funext text
      simp

end Lines

namespace Source

variable {s : Source} {span : Span} {l : Line} {pos : Nat}

/-- What is listed as a line is one. -/
theorem of_mem_lines (hl : l ∈ s.lines) : l.Of s.code :=
  of_mem_linesFrom (show s.code = [] ++ s.code from rfl) rfl rfl le_rfl (.inl rfl)
    List.not_mem_nil hl

/-- **The number of the line that holds a position** is one more than the line breaks before it. -/
theorem lineNumber_eq (hp : pos ≤ s.code.length) : s.lineNumber pos = 1 + breaks s.code pos := by
  obtain ⟨l, hl, hf, hs⟩ : ∃ l ∈ s.lines, l.first ≤ pos ∧ pos ≤ l.stop :=
    exists_linesFrom (Nat.zero_le pos) (by omega)
  rw [lineNumber]
  split
  next found find =>
    have holds := List.find?_some find
    rw [Bool.and_eq_true, decide_eq_true_iff, decide_eq_true_iff] at holds
    have := (of_mem_lines (List.mem_of_find?_eq_some find)).breaks_eq holds.1 holds.2
    omega
  next none =>
    have := List.find?_eq_none.mp none l hl
    simp [hf, hs] at this

/-- The lines of a source are numbered from one on. -/
theorem map_number_lines (s : Source) : s.lines.map (·.number) =
    List.range' 1 (s.code.count '\n' + 1) :=
  map_number_linesFrom

/-- The text of a line is what stands between the line breaks. -/
theorem getElem?_splitOn (hl : l ∈ s.lines) :
    (s.code.splitOn '\n')[l.number - 1]? = some (s.slice l.first l.stop) := by
  have texts : s.lines.map (fun l => s.slice l.first l.stop) = s.code.splitOn '\n' :=
    (map_text_linesFrom (show s.code = [] ++ s.code from rfl) rfl le_rfl).trans
      (congrFun List.modifyHead_id _)
  have length : (s.code.splitOn '\n').length = s.code.count '\n' + 1 := by
    have numbers := congrArg List.length s.map_number_lines
    rwa [List.length_map, List.length_range', ← List.length_map, texts] at numbers
  have pairs : s.lines.map (fun l => (s.slice l.first l.stop, l.number)) =
      (s.code.splitOn '\n').zipIdx 1 := by
    rw [List.zipIdx_eq_zip_range', length, ← texts, ← map_number_lines, List.zip_map']
  have mem := pairs ▸ List.mem_map_of_mem hl
  exact (List.mem_zipIdx_iff_le_and_getElem?_sub.mp mem).2

/-- The numbers of the lines that a span touches, in order. -/
theorem map_number_touched (hs : span.first ≤ span.last) (hn : span.last ≤ s.code.length) :
    (s.lines.filter (touches span)).map (·.number) =
      List.range' (s.lineNumber span.first)
        (s.lineNumber span.last + 1 - s.lineNumber span.first) := by
  rw [lineNumber_eq hn, lineNumber_eq (hs.trans hn)]
  have ordered : (s.lines.map (·.number)).Pairwise (· < ·) := by
    rw [map_number_lines]
    exact List.pairwise_lt_range'
  refine List.Pairwise.eq_of_mem_iff (r := (· < ·))
    (ordered.sublist (List.filter_sublist.map _)) List.pairwise_lt_range' fun k => ?_
  have most : breaks s.code span.last ≤ s.code.count '\n' := (List.take_sublist _ _).count_le _
  have numbers : k ∈ s.lines.map (·.number) ↔ 1 ≤ k ∧ k ≤ s.code.count '\n' + 1 := by
    rw [map_number_lines, List.mem_range'_1]
    omega
  have mono := breaks_mono s.code hs
  rw [List.mem_range'_1]
  constructor
  · intro mem
    obtain ⟨l, hl, rfl⟩ := List.mem_map.mp mem
    have ⟨hl, touched⟩ := List.mem_filter.mp hl
    have := ((of_mem_lines hl).touches_iff hs hn).mp touched
    omega
  · intro within
    obtain ⟨l, hl, rfl⟩ := List.mem_map.mp (numbers.mpr (by omega))
    refine List.mem_map_of_mem (List.mem_filter.mpr ⟨hl, ?_⟩)
    exact ((of_mem_lines hl).touches_iff hs hn).mpr (by omega)

/-! ### The row below a line -/

/-- How far a position is from the start of its line. -/
theorem column_eq (h : l.Of s.code) (hf : l.first ≤ pos) (hs : pos ≤ l.stop) :
    s.column pos = pos - l.first := by
  have clear := h.unbroken_to hs
  have ends : (s.code.take l.first).reverse.takeWhile (· ≠ '\n') = [] := by
    rcases h.opened with opens | opens
    · simp [opens]
    · cases hl : l.first with
      | zero => rfl
      | succ k =>
        rw [hl, Nat.add_sub_cancel] at opens
        simp [List.take_add_one, opens]
  rw [column, Line.Of.take_eq hf, List.reverse_append, List.takeWhile_append_of_pos, ends]
  · have := h.bounded
    simp
    omega
  · intro c hc
    simp only [ne_eq, decide_eq_true_eq]
    rintro rfl
    exact clear (List.mem_reverse.mp hc)

/-- Where the characters of a line stand that lie in a span. -/
theorem marks_iff (h : l.Of s.code) : s.Marks span l.number pos ↔
    max span.first l.first ≤ pos ∧ pos < min (span.last + 1) l.stop := by
  constructor
  · rintro ⟨⟨hs, he, number⟩, c, hc, hne⟩
    have inside : pos < s.code.length := (List.getElem?_eq_some_iff.mp hc).1
    rw [lineNumber_eq inside.le, Nat.add_comm, h.holds_iff inside.le] at number
    have : pos ≠ l.stop := by
      rintro rfl
      rcases h.closed with ends | ends
      · omega
      · exact hne (Option.some.inj (hc.symm.trans ends))
    omega
  · intro within
    have hf : l.first ≤ pos := by omega
    have hs : pos < l.stop := by omega
    have inside : pos < s.code.length := hs.trans_le h.bounded
    refine ⟨⟨by omega, by omega, ?_⟩, s.code[pos], List.getElem?_eq_getElem inside, fun hc => ?_⟩
    · rw [lineNumber_eq inside.le, Nat.add_comm, h.breaks_eq hf hs.le]
    · exact h.not_break hf hs (hc ▸ List.getElem?_eq_getElem inside)

/-- **A span covers** what it has in common with the line. -/
theorem covers_iff (h : l.Of s.code) (hn : span.last ≤ s.code.length) :
    s.Covers span l.number pos ↔
      max span.first l.first ≤ pos ∧ pos ≤ min span.last l.stop := by
  constructor
  · rintro ⟨hs, he, number⟩
    rw [lineNumber_eq (he.trans hn), Nat.add_comm, h.holds_iff (he.trans hn)] at number
    omega
  · intro within
    refine ⟨by omega, by omega, ?_⟩
    rw [lineNumber_eq (by omega), Nat.add_comm, h.breaks_eq (by omega) (by omega)]

/-- What is cut out of a line is a stretch of it. -/
theorem slice_slice {first stop first' stop' : Nat} (hf : first ≤ first') (hs : stop' ≤ stop) :
    s.slice first' stop' <:+: s.slice first stop := by
  have cut : s.slice first' stop' =
      ((s.slice first stop).drop (first' - first)).take (stop' - first') := by
    rw [slice, slice, List.drop_take, List.drop_drop, List.take_take]
    congr 2 <;> omega
  rw [cut]
  exact (List.take_prefix _ _).isInfix.trans (List.drop_suffix _ _).isInfix

/-- A part of a line is as wide as it is long, where each character has one column. -/
theorem columns_slice {columns : List Char → Nat}
    (each : Text.OneColumnEach columns (s.slice l.first l.stop)) (h : l.Of s.code)
    {first stop : Nat} (hf : l.first ≤ first) (hs : stop ≤ l.stop) :
    columns (s.slice first stop) = stop - first := by
  have := h.bounded
  rw [each _ (slice_slice hf hs), slice, List.length_take, List.length_drop]
  omega

/-- **The row below a line that a span touches** marks its characters in the span. -/
theorem points_of_touches {columns : List Char → Nat}
    (each : Text.OneColumnEach columns (s.slice l.first l.stop)) (h : l.Of s.code)
    (hs : span.first ≤ span.last) (hn : span.last ≤ s.code.length)
    (touched : touches span l = true) : s.Points span l.number (s.row columns span l) := by
  rw [touches, Bool.and_eq_true, decide_eq_true_iff, decide_eq_true_iff] at touched
  obtain ⟨reaches, begins⟩ := touched
  have ordered := h.ordered
  rw [row, columns_slice each h le_rfl (by omega), columns_slice each h (by omega) (by omega)]
  by_cases some : max span.first l.first < min (span.last + 1) l.stop
  · refine ⟨max span.first l.first - l.first,
      min (span.last + 1) l.stop - max span.first l.first - 1, ?_, fun _ j => ?_, fun none => ?_⟩
    · rw [if_pos some]
      congr 2
      omega
    · constructor
      · intro hj
        have mark : s.Marks span l.number (l.first + j) := (marks_iff h).mpr (by omega)
        refine ⟨_, mark, ?_⟩
        rw [column_eq h (by omega) (by omega)]
        omega
      · rintro ⟨pos, mark, rfl⟩
        rw [marks_iff h] at mark
        rw [column_eq h (by omega) (by omega)]
        omega
    · exact absurd ⟨max span.first l.first, (marks_iff h).mpr ⟨le_rfl, some⟩⟩ none
  · refine ⟨max span.first l.first - l.first, 0, ?_, fun ⟨pos, mark⟩ => ?_, fun _ => ⟨rfl, ?_⟩⟩
    · rw [if_neg some]
      rfl
    · rw [marks_iff h] at mark
      omega
    · refine ⟨max span.first l.first, ⟨(covers_iff h hn).mpr (by omega), fun pos covered => ?_⟩,
        column_eq h (by omega) (by omega)⟩
      exact ((covers_iff h hn).mp covered).1

end Source

/-! ### Texts with one column for each character -/

namespace Text

/-- The characters from the blank to the tilde. -/
def IsAscii (c : Char) : Prop := 0x20 ≤ c.toNat ∧ c.toNat ≤ 0x7e

instance (c : Char) : Decidable (IsAscii c) := inferInstanceAs (Decidable (_ ∧ _))

theorem IsAscii.ne {c d : Char} (h : IsAscii c) (hd : d.toNat < 0x20 ∨ 0x7e < d.toNat) :
    c ≠ d := by
  rintro rfl
  have ⟨_, _⟩ := h
  omega

theorem IsAscii.not_pictorial {c : Char} (h : IsAscii c) : pictorial.contains c = false := by
  have high : ∀ r ∈ pictorial.ranges, 0x7e < r.1 := by decide
  refine Bool.eq_false_iff.mpr fun mem => ?_
  obtain ⟨r, hr, low, -⟩ := CharSet.contains_iff.mp mem
  exact absurd (low.trans h.2) (Nat.not_le_of_lt (high r hr))

theorem IsAscii.not_tone {c : Char} (h : IsAscii c) : isTone c = false := by
  have high : ¬ 0x1f3fb ≤ c.toNat := fun low => absurd (low.trans h.2) (by decide)
  simp [isTone, high]

/-- A character of ASCII has one column, and joins with nothing. -/
theorem IsAscii.stepColumns {c : Char} (h : IsAscii c) :
    stepColumns c .nothing = (1, .nothing) := by
  have one : charColumns c = 1 := if_pos (h.2.trans (by decide))
  simp [Text.stepColumns, h.not_pictorial, h.not_tone, one, h.ne (d := '\n') (by decide),
    h.ne (d := '\ufe0f') (by decide), h.ne (d := '\ufe0e') (by decide)]

/-- **These characters take up one column each**, in whatever order they come. -/
theorem columns_eq_length {cs : List Char} (h : ∀ c ∈ cs, IsAscii c) : columns cs = cs.length := by
  have unescaped (n : Nat) : ∀ {cs : List Char}, (∀ c ∈ cs, IsAscii c) → cs.length = n →
      stripEscapes n cs = cs := by
    induction n with
    | zero => exact fun _ length => (List.length_eq_zero_iff.mp length) ▸ rfl
    | succ n ih =>
      rintro (_ | ⟨c, cs⟩) h length
      · cases length
      · have ⟨hc, hcs⟩ := List.forall_mem_cons.mp h
        simp [stripEscapes, hc.ne (d := '\x1b') (by decide), hc.ne (d := '\u009b') (by decide),
          ih hcs (Nat.succ.inj length)]
  have measured : measure cs = (cs.length, .nothing) := by
    clear unescaped
    induction cs with
    | nil => rfl
    | cons c cs ih =>
      have ⟨hc, hcs⟩ := List.forall_mem_cons.mp h
      simp [measure, ih hcs, hc.stepColumns, Nat.add_comm]
  rw [columns, unescaped _ h rfl, plainColumns, measured]

/-- **A text in ASCII** has one column for each character. -/
theorem oneColumnEach_of_ascii {text : List Char} (h : text.all fun c => IsAscii c) :
    OneColumnEach columns text := fun _ stretch =>
  columns_eq_length fun c mem =>
    of_decide_eq_true (List.all_eq_true.mp h c (stretch.subset mem))

end Text

/-! ### What is printed for a span -/

/-- A line that a span touches is cut inside the text. -/
theorem cutsInRange_of_touches {s : Source} {span : Span} {l : Line} (h : l.Of s.code)
    (touched : Source.touches span l = true) : s.CutsInRange span l := by
  rw [Source.touches, Bool.and_eq_true, decide_eq_true_iff, decide_eq_true_iff] at touched
  obtain ⟨reaches, begins⟩ := touched
  have ordered := h.ordered
  have bounded := h.bounded
  refine ⟨⟨ordered, bounded⟩, ⟨le_max_right _ _, by omega⟩, fun some => ⟨some.le, by omega⟩⟩

/-- **A line is printed** with marks below what the span covers. -/
theorem shows_markLine {s : Source} {columns : List Char → Nat} {span : Span} {l : Line}
    (hl : l ∈ s.lines) (hs : span.first ≤ span.last) (hn : span.last ≤ s.code.length)
    (touched : Source.touches span l = true) :
    s.Shows columns span l.number (s.markLine columns span l) := by
  refine ⟨_, s.row columns span l, Source.getElem?_splitOn hl, ?_, fun each =>
    Source.points_of_touches each (Source.of_mem_lines hl) hs hn touched⟩
  have title : (if s.path.isEmpty then "" else s.path ++ ":") ++ toString l.number =
      s.title l.number := by
    rw [Source.title]
    split
    · exact String.empty_append
    · rfl
  rw [Source.markLine, Source.row, ← title]
  simp only [String.append_assoc]

/-- **What is printed for a span** are the lines from that of its first position to that of its last
one, each with its number and its text and a row of carets below it; and all that is looked up
on the way is part of the text.  This is so however many columns texts take up; where each character
takes up one, the carets stand below the span. -/
theorem mark_shows (s : Source) (columns : List Char → Nat) (span : Span)
    (hs : span.first ≤ span.last) (hn : span.last ≤ s.code.length) :
    (∀ pos ≤ s.code.length, s.lineNumber pos = 1 + (s.code.take pos).count '\n') ∧
    (∃ entries, s.mark span columns = String.join entries ∧
      List.Forall₂ (s.Shows columns span) (List.range' (s.lineNumber span.first)
        (s.lineNumber span.last + 1 - s.lineNumber span.first)) entries) ∧
    ∀ l ∈ s.lines, Source.touches span l = true → s.CutsInRange span l := by
  refine ⟨fun pos => Source.lineNumber_eq, ⟨_, rfl, ?_⟩,
    fun l hl => cutsInRange_of_touches (Source.of_mem_lines hl)⟩
  rw [← Source.map_number_touched hs hn, List.forall₂_map_left_iff, List.forall₂_map_right_iff,
    List.forall₂_same]
  intro l mem
  have ⟨hl, touched⟩ := List.mem_filter.mp mem
  exact shows_markLine hl hs hn touched

theorem mark_shows_lines :
    let s := Source.ofText "a.rb" "a = 1\nfoo bar\n"
    let span := Span.mk 4 8
    span.first ≤ span.last ∧ span.last ≤ s.code.length ∧
      (∃ entries, s.mark span = String.join entries ∧
        List.Forall₂ (s.Shows Text.columns span) [1, 2] entries) ∧
      Text.OneColumnEach Text.columns "a = 1".toList ∧
      Text.OneColumnEach Text.columns "foo bar".toList :=
  ⟨by decide, by decide, (mark_shows _ Text.columns ⟨4, 8⟩ (by decide) (by decide)).2.1,
    Text.oneColumnEach_of_ascii (by decide), Text.oneColumnEach_of_ascii (by decide)⟩

end MiniRuby
