import Mathlib.Algebra.Order.Ring.Int
import MiniRuby.Proofs.Growth

/-!
# Names and their positions

However many names are looked up in the first table, names and positions correspond one to one, and
what corresponds once does so for good.

A table is a row of names, in which a name is searched for.  An index of names (`NameIndex`) finds
them by hashing: it is the row together with a map from names to words of 32 bits.  Whatever is
looked up, the map says where the names stand in the row, as far as words are wide enough to say it
(`NameIndex.Mirrors`).  They are as long as there are at most 2^32 names, so for as many look-ups,
with those of the first names among them: the name after these gets the word of the first one.

* `NameTable.find?_internAll`: the names of a table are those that were looked up, and those that
  it had.
* `NameTable.Sound.find?_eq_some_iff`: a name is found where it stands, and only there.
* `NameIndex.Mirrors.internAll`: an index goes on saying where the names of a table stand.
* `NameIndex.Mirrors.find?_eq_some_iff`: with few enough names, words are as good as positions.
* `names_registered`: what is known of tables and indexes that any names were looked up in.
* `NameIndex.words_registered`: with fewer than 2^32 look-ups, those of the first names counted, an
  index alone is all that is needed.
-/

namespace MiniRuby

namespace NameId

/-- The positions that the interpreter refers to, with the names that it means by them. -/
def meanings : List (NameId × String) :=
  [(.setup, "initialize"), (.new, "new"), (.toS, "to_s"), (.inspect, "inspect"), (.equals, "=="),
    (.differs, "!="), (.negate, "!"), (.methodMissing, "method_missing"), (.message, "@message"),
    (.subscript, "[]"), (.subscriptAssign, "[]="), (.minus, "-@")]

/-- A position as a word of 32 bits. -/
def word (id : NameId) : UInt32 := .ofNat id.index

end NameId

namespace NameTable

variable {t : NameTable} {name : String} {id : NameId}

/-- **The names of a table** are those that it had, and those that were looked up. -/
theorem find?_internAll (t : NameTable) (names : List String) (name : String) :
    ((t.internAll names).find? name).isSome ↔ (t.find? name).isSome ∨ name ∈ names := by
  induction names generalizing t with
  | nil => simp [internAll]
  | cons first names ih =>
      rw [internAll, List.foldl_cons, ← internAll, ih, find?_intern, List.mem_cons]
      by_cases same : first = name
      · simp [same]
      · simp [same, Ne.symm same]

/-- A look-up adds one name at most. -/
theorem size_internAll_le (t : NameTable) (names : List String) :
    (t.internAll names).entries.size ≤ t.entries.size + names.length := by
  induction names generalizing t with
  | nil => exact Nat.le_refl _
  | cons name names ih =>
      have one : (t.intern name).2.entries.size ≤ t.entries.size + 1 := by
        cases h : t.find? name <;> simp [intern, h]
      have rest := ih (t.intern name).2
      rw [internAll, List.foldl_cons, ← internAll, List.length_cons]
      omega

/-- **A name is found where it stands**, and only there. -/
theorem Sound.find?_eq_some_iff (h : t.Sound) :
    t.find? name = some id ↔ t.Has id ∧ t.text id = name := by
  constructor
  · exact text_of_find?
  · rintro ⟨there, rfl⟩
    exact h.find?_of_text there

theorem Sound.find?_meanings (h : t.Sound) :
    ∀ p ∈ NameId.meanings, t.find? p.2 = some p.1 ∧ t.text p.1 = p.2 := by
  have first : ∀ p ∈ NameId.meanings, initial.Has p.1 ∧ initial.text p.1 = p.2 := by decide
  intro p hp
  obtain ⟨there, same⟩ := first p hp
  have kept : t.text p.1 = p.2 := (h.first.text_eq p.1 there).trans same
  exact ⟨h.find?_eq_some_iff.mpr ⟨h.first.has there, kept⟩, kept⟩

end NameTable

/-! ### Names found by hashing -/

/-- Names in a row, and a map that says where they stand. -/
structure NameIndex where
  words : Std.HashMap String UInt32
  texts : Array String

namespace NameIndex

def empty : NameIndex := ⟨∅, #[]⟩

def find? (x : NameIndex) (name : String) : Option UInt32 := x.words[name]?

/-- The word of a name, which is added at the end of the row if it is new. -/
def intern (x : NameIndex) (name : String) : UInt32 × NameIndex :=
  match x.find? name with
  | some w => (w, x)
  | none =>
    let w := UInt32.ofNat x.texts.size
    (w, ⟨x.words.insert name w, x.texts.push name⟩)

def text (x : NameIndex) (w : UInt32) : String := (x.texts[w.toNat]?).getD "<unknown>"

/-- The index after names were looked up in it, one after another. -/
def internAll (x : NameIndex) (names : List String) : NameIndex :=
  names.foldl (fun x name => (x.intern name).2) x

/-- The index of the names that are known from the start, which are looked up in order. -/
def initial : NameIndex := empty.internAll NameTable.predefined.toList

section Lookup

variable {x : NameIndex} {name : String}

theorem intern_of_find? {w : UInt32} (h : x.find? name = some w) : x.intern name = (w, x) := by
  simp [intern, h]

theorem intern_of_find?_eq_none (h : x.find? name = none) :
    x.intern name = (.ofNat x.texts.size,
      ⟨x.words.insert name (.ofNat x.texts.size), x.texts.push name⟩) := by
  simp [intern, h]

/-- What is found after a look-up: the name itself, and what was found before. -/
theorem find?_intern (x : NameIndex) (name other : String) :
    (x.intern name).2.find? other =
      if name = other then some (x.intern name).1 else x.find? other := by
  cases h : x.find? name with
  | some w =>
      rw [intern_of_find? h]
      split
      · rename_i same
        rw [← same, h]
      · rfl
  | none =>
      rw [intern_of_find?_eq_none h, find?, Std.HashMap.getElem?_insert]
      simp [find?]

end Lookup

/-- Whether an index says where the names of a table stand, as far as words can say it. -/
structure Mirrors (x : NameIndex) (t : NameTable) : Prop where
  texts : x.texts = t.entries
  words : ∀ name, x.find? name = (t.find? name).map NameId.word

namespace Mirrors

variable {x : NameIndex} {t : NameTable}

theorem empty : NameIndex.empty.Mirrors ⟨#[]⟩ where
  texts := rfl
  words name := by simp [find?, NameIndex.empty, NameTable.find?]

/-- Both answer the same to a look-up. -/
theorem word_intern (h : x.Mirrors t) (name : String) :
    (x.intern name).1 = (t.intern name).1.word := by
  have found := h.words name
  cases ht : t.find? name with
  | some id =>
      rw [ht] at found
      rw [NameTable.intern_of_find? ht, intern_of_find? found]
  | none =>
      rw [ht] at found
      rw [NameTable.intern_of_find?_eq_none ht, intern_of_find?_eq_none found, h.texts]
      rfl

theorem intern (h : x.Mirrors t) (name : String) : (x.intern name).2.Mirrors (t.intern name).2 where
  texts := by
    have found := h.words name
    cases ht : t.find? name with
    | some id =>
        rw [ht] at found
        rw [NameTable.intern_of_find? ht, intern_of_find? found]
        exact h.texts
    | none =>
        rw [ht] at found
        rw [NameTable.intern_of_find?_eq_none ht, intern_of_find?_eq_none found]
        exact congrArg (·.push name) h.texts
  words other := by
    rw [find?_intern, NameTable.find?_intern, h.word_intern, h.words]
    split <;> rfl

theorem internAll (h : x.Mirrors t) (names : List String) :
    (x.internAll names).Mirrors (t.internAll names) := by
  induction names generalizing x t with
  | nil => exact h
  | cons name names ih => exact ih (h.intern name)

end Mirrors

/-- **The first index says where the names of the first table stand.** -/
theorem mirrors_initial : initial.Mirrors .initial := by
  rw [NameTable.initial_eq]
  exact Mirrors.empty.internAll _

end NameIndex

/-! ### Words for positions -/

theorem NameId.toNat_word {id : NameId} (h : id.index < 2 ^ 32) : id.word.toNat = id.index := by
  rw [word, UInt32.toNat_ofNat']
  exact Nat.mod_eq_of_lt h

namespace NameIndex.Mirrors

variable {x : NameIndex} {t : NameTable}

theorem text_eq (h : x.Mirrors t) (w : UInt32) : x.text w = t.text ⟨w.toNat⟩ := by
  rw [NameIndex.text, NameTable.text, h.texts]

/-- As long as there are at most 2^32 names, a name is found under the word that it stands at. -/
theorem find?_eq_some_iff (h : x.Mirrors t) (sound : t.Sound) (few : t.entries.size ≤ 2 ^ 32)
    (name : String) (w : UInt32) :
    x.find? name = some w ↔ w.toNat < x.texts.size ∧ x.text w = name := by
  rw [h.words, Option.map_eq_some_iff, h.text_eq, h.texts]
  constructor
  · rintro ⟨id, found, rfl⟩
    obtain ⟨there, same⟩ := NameTable.text_of_find? found
    rw [NameId.toNat_word (Nat.lt_of_lt_of_le there few)]
    exact ⟨there, same⟩
  · intro stands
    exact ⟨⟨w.toNat⟩, sound.find?_eq_some_iff.mpr stands, UInt32.ofNat_toNat⟩

/-- The name after 2^32 others is found under a word at which another name stands. -/
theorem size_le_of_inverse (h : x.Mirrors t) (sound : t.Sound)
    (inverse : ∀ name w, x.find? name = some w → x.text w = name) : t.entries.size ≤ 2 ^ 32 := by
  refine Nat.le_of_not_lt fun (many : 2 ^ 32 < t.entries.size) => ?_
  -- The word of position 2^32 is 0, which is that of the first position.
  have found := h.words (t.text ⟨2 ^ 32⟩)
  have last : t.Has ⟨2 ^ 32⟩ := many
  rw [sound.find?_of_text last] at found
  have same : t.text ⟨0⟩ = t.text ⟨2 ^ 32⟩ := (h.text_eq 0).symm.trans (inverse _ _ found)
  have first : t.Has ⟨0⟩ := Nat.lt_trans (by decide) many
  exact absurd (sound.distinct _ _ first last same) (by decide)

/-- What is found under a word stands there, and goes on doing so, as long as there are few enough
names. -/
theorem text_of_find? (h : x.Mirrors t) (sound : t.Sound) (few : t.entries.size ≤ 2 ^ 32)
    {name : String} {w : UInt32} (found : x.find? name = some w) : x.text w = name :=
  ((h.find?_eq_some_iff sound few name w).mp found).2

end NameIndex.Mirrors

/-- **Names and positions correspond one to one, for good.**  Whatever names were looked up in the
first table:

* the positions of the table are those below its size, and its names are those that the interpreter
  refers to and those that were looked up;
* a name is found where it stands, and only there;
* a look-up answers where the name stands from then on, and to look it up again changes nothing;
* what is found is found at the same place, and stands there, whatever is looked up later;
* the names that the interpreter refers to stand where it expects them;
* an index answers with the words of these positions, and they correspond to names one to one
  exactly as long as there are at most 2^32 names, of which each look-up adds one at most. -/
theorem names_registered (names : List String) :
    let t := NameTable.initial.internAll names
    let x := NameIndex.initial.internAll names
    (∀ id, (∃ name, t.find? name = some id) ↔ id.index < t.entries.size) ∧
    (∀ name, (∃ id, t.find? name = some id) ↔ name ∈ NameTable.predefined ∨ name ∈ names) ∧
    (∀ name id, t.find? name = some id ↔ id.index < t.entries.size ∧ t.text id = name) ∧
    (∀ name, (t.intern name).2.find? name = some (t.intern name).1 ∧
      (t.intern name).2.text (t.intern name).1 = name ∧
      (t.intern name).2.intern name = t.intern name) ∧
    (∀ later name id, t.find? name = some id → (t.internAll later).find? name = some id ∧
      (t.internAll later).text id = name) ∧
    (∀ p ∈ NameId.meanings, t.find? p.2 = some p.1 ∧ t.text p.1 = p.2) ∧
    x.Mirrors t ∧ (∀ name, (x.intern name).1 = (t.intern name).1.word) ∧
    t.entries.size ≤ NameTable.predefined.size + names.length ∧
    (t.entries.size ≤ 2 ^ 32 ↔
      ∀ name w, x.find? name = some w ↔ w.toNat < x.texts.size ∧ x.text w = name) := by
  intro t x
  have grown : NameTable.initial.Grows t := NameTable.grows_internAll _ names
  have sound : t.Sound := grown.sound NameTable.sound_initial
  have mirrors : x.Mirrors t := NameIndex.mirrors_initial.internAll names
  refine ⟨fun id => ?_, fun name => ?_, fun name id => sound.find?_eq_some_iff, fun name => ?_,
    fun later name id found => ?_, sound.find?_meanings, mirrors, mirrors.word_intern,
    NameTable.size_internAll_le _ names, mirrors.find?_eq_some_iff sound, fun inverse =>
      mirrors.size_le_of_inverse sound fun name w found => ((inverse name w).mp found).2⟩
  · constructor
    · rintro ⟨name, found⟩
      exact (NameTable.text_of_find? found).1
    · intro there
      exact ⟨t.text id, sound.find?_of_text there⟩
  · rw [← Option.isSome_iff_exists, NameTable.find?_internAll]
    simp [NameTable.find?, NameTable.initial]
  · have found := t.find?_intern_self name
    exact ⟨found, (NameTable.text_of_find? found).2, NameTable.intern_of_find? found⟩
  · have kept := (t.grows_internAll later).find?_eq found
    exact ⟨kept, (NameTable.text_of_find? kept).2⟩

namespace NameIndex

theorem internAll_append (x : NameIndex) (names later : List String) :
    x.internAll (names ++ later) = (x.internAll names).internAll later :=
  List.foldl_append

/-- An index never loses what is found in it. -/
theorem find?_internAll {x : NameIndex} {name : String} {w : UInt32} (found : x.find? name = some w)
    (later : List String) : (x.internAll later).find? name = some w := by
  induction later generalizing x with
  | nil => exact found
  | cons other later ih =>
      refine ih ?_
      rw [find?_intern]
      split
      · rename_i same
        rw [intern_of_find? (same ▸ found)]
      · exact found

/-- **Words for names.**  If an index is asked fewer than 2^32 times, with the look-ups of the first
names counted, then it is a correspondence of names and words by itself: a name is found under the
word that it stands at, and only there; a look-up answers a word that the name stands at, and to
look it up again changes nothing; as long as the look-ups stay that few, a name keeps its word; and
the first names have the words that the interpreter knows. -/
theorem words_registered (names : List String)
    (few : NameTable.predefined.size + names.length < 2 ^ 32) :
    let x := NameIndex.initial.internAll names
    (∀ name w, x.find? name = some w ↔ w.toNat < x.texts.size ∧ x.text w = name) ∧
    (∀ name, (x.intern name).2.find? name = some (x.intern name).1 ∧
      (x.intern name).2.text (x.intern name).1 = name ∧
      (x.intern name).2.intern name = x.intern name) ∧
    (∀ later, NameTable.predefined.size + names.length + later.length < 2 ^ 32 →
      ∀ name w, x.find? name = some w →
        (x.internAll later).find? name = some w ∧ (x.internAll later).text w = name) ∧
    ∀ p ∈ NameId.meanings, x.find? p.2 = some p.1.word := by
  intro x
  have sound (names : List String) : (NameTable.initial.internAll names).Sound :=
    (NameTable.grows_internAll _ names).sound NameTable.sound_initial
  have mirrors (names : List String) := mirrors_initial.internAll names
  have bounded (names : List String) : (NameTable.initial.internAll names).entries.size ≤
      NameTable.predefined.size + names.length := NameTable.size_internAll_le _ names
  refine ⟨(mirrors names).find?_eq_some_iff (sound names) (by have := bounded names; omega),
    fun name => ?_, fun later fewer name w found => ?_, fun p hp => ?_⟩
  · have all : NameIndex.initial.internAll (names ++ [name]) = (x.intern name).2 :=
      internAll_append _ names [name]
    have found : (x.intern name).2.find? name = some (x.intern name).1 := by
      rw [find?_intern, if_pos rfl]
    refine ⟨found, ?_, intern_of_find? found⟩
    have size := bounded (names ++ [name])
    rw [List.length_append, List.length_singleton] at size
    rw [← all] at found ⊢
    exact (mirrors _).text_of_find? (sound _) (by omega) found
  · have found := find?_internAll found later
    refine ⟨found, ?_⟩
    have size := bounded (names ++ later)
    rw [List.length_append] at size
    rw [← internAll_append] at found ⊢
    exact (mirrors _).text_of_find? (sound _) (by omega) found
  · rw [(mirrors names).words, ((sound names).find?_meanings p hp).1]
    rfl

end NameIndex

end MiniRuby
