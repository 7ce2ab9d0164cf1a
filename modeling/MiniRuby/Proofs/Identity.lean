import Mathlib.Algebra.Order.Ring.Int
import Mathlib.Data.Fintype.EquivFin
import MiniRuby.Library
import MiniRuby.Boot

/-!
# Numbers for values that are known by what they are

The number of a value is meant to tell it from others.  For `nil`, the booleans, symbols and
classes it does: the numbers of the constants, of integers, of symbols and of classes never meet,
and symbols and classes are numbered by their positions.  An integer is doubled before the one is
added, and the product is cut to a word, so the highest bit is lost: two integers that are half the
range apart share their number.  Some values have to share theirs, whatever the numbering: there
are as many integers as numbers, and `nil` is one more.

* `objectId_eq_iff`: when two such values have the same number.
* `numbers_run_out`: no numbering tells all integers and `nil` apart.
-/

namespace MiniRuby

/-- Values that do not live in the heap and whose identity is no matter of bits: constants,
integers, and the symbols and classes of a machine. -/
def Value.Immediate (m : Machine) : Value → Prop
  | .nil | .bool _ | .int _ => True
  | .sym name => name.index < m.names.entries.size
  | .cls id => id.index < m.classes.classes.size
  | .float _ | .str _ | .arr _ | .obj _ | .bound _ => False

/-- Two integers at half the range from each other. -/
def Value.HalfApart (v w : Value) : Prop :=
  ∃ i j : Int64, v = .int i ∧ w = .int j ∧ (i.toInt - j.toInt).natAbs = 2 ^ 63

/-! ### The numbers of one kind of value -/

/-- An integer read as a number without a sign: the negative ones come last. -/
theorem toNat_toUInt64 (i : Int64) :
    (i.toUInt64.toNat : Int) = if i.toInt < 0 then i.toInt + 2 ^ 64 else i.toInt := by
  have signed : i.toInt = i.toUInt64.toBitVec.toInt := rfl
  have small := i.toUInt64.toNat_lt
  rw [signed, BitVec.toInt_eq_toNat_cond, UInt64.toNat_toBitVec]
  split <;> split <;> omega

/-- Of the number of an integer only the highest bit is lost. -/
theorem objectId_int_eq_iff (i j : Int64) : (Value.int i).objectId = (Value.int j).objectId ↔
    i = j ∨ (i.toInt - j.toInt).natAbs = 2 ^ 63 := by
  have unsigned := toNat_toUInt64 i
  have unsigned' := toNat_toUInt64 j
  have := i.le_toInt
  have := i.toInt_lt
  have := j.le_toInt
  have := j.toInt_lt
  rw [Value.objectId, Value.objectId, ← UInt64.toNat_inj, ← Int64.toInt_inj]
  simp only [UInt64.toNat_add, UInt64.toNat_mul, UInt64.toNat_ofNat]
  split at unsigned <;> split at unsigned' <;> omega

/-- The numbers of positions are apart as long as the positions are below 2^32. -/
theorem position_number_eq_iff {x y : Nat} {k : UInt64} (hx : x < 2 ^ 32) (hy : y < 2 ^ 32) :
    UInt64.ofNat x * 256 + k = UInt64.ofNat y * 256 + k ↔ x = y := by
  rw [UInt64.add_left_inj, ← UInt64.toNat_inj]
  simp only [UInt64.toNat_mul, UInt64.toNat_ofNat', UInt64.toNat_ofNat]
  omega

/-! ### The numbers of different kinds -/

theorem position_number_mod {n : Nat} {k : UInt64} (hk : k.toNat < 256) :
    (UInt64.ofNat n * 256 + k).toNat % 256 = k.toNat := by
  simp only [UInt64.toNat_add, UInt64.toNat_mul, UInt64.toNat_ofNat', UInt64.toNat_ofNat]
  omega

theorem objectId_int_odd (i : Int64) : (Value.int i).objectId.toNat % 2 = 1 := by
  simp only [Value.objectId, UInt64.toNat_add, UInt64.toNat_mul, UInt64.toNat_ofNat]
  omega

/-- The kinds of values with what their numbers leave modulo 256. -/
theorem Value.Immediate.kind {m : Machine} {v : Value} (hv : v.Immediate m) :
    v = .nil ∧ v.objectId.toNat % 256 = 8 ∨
    v = .bool false ∧ v.objectId.toNat % 256 = 0 ∨
    v = .bool true ∧ v.objectId.toNat % 256 = 20 ∨
    (∃ i, v = .int i) ∧ v.objectId.toNat % 2 = 1 ∨
    (∃ name, v = .sym name) ∧ v.objectId.toNat % 256 = 12 ∨
    (∃ id, v = .cls id) ∧ v.objectId.toNat % 256 = 16 := by
  match v, hv with
  | .nil, _ => exact .inl ⟨rfl, by decide⟩
  | .bool false, _ => exact .inr (.inl ⟨rfl, by decide⟩)
  | .bool true, _ => exact .inr (.inr (.inl ⟨rfl, by decide⟩))
  | .int i, _ => exact .inr (.inr (.inr (.inl ⟨⟨i, rfl⟩, objectId_int_odd i⟩)))
  | .sym name, _ =>
    exact .inr (.inr (.inr (.inr (.inl ⟨⟨name, rfl⟩, position_number_mod (by decide)⟩))))
  | .cls id, _ =>
    exact .inr (.inr (.inr (.inr (.inr ⟨⟨id, rfl⟩, position_number_mod (by decide)⟩))))

/-- Values with the same number are of one kind. -/
theorem Value.Immediate.same_kind {m : Machine} {v w : Value} (hv : v.Immediate m)
    (hw : w.Immediate m) (h : v.objectId = w.objectId) :
    v = w ∨ (∃ i j, v = .int i ∧ w = .int j) ∨ (∃ x y, v = .sym x ∧ w = .sym y) ∨
      (∃ c d, v = .cls c ∧ w = .cls d) := by
  have left := hv.kind
  have right := hw.kind
  rw [← h] at right
  rcases left with
      ⟨rfl, _⟩ | ⟨rfl, _⟩ | ⟨rfl, _⟩ | ⟨⟨i, rfl⟩, _⟩ | ⟨⟨x, rfl⟩, _⟩ | ⟨⟨c, rfl⟩, _⟩ <;>
    rcases right with
      ⟨rfl, _⟩ | ⟨rfl, _⟩ | ⟨rfl, _⟩ | ⟨⟨j, rfl⟩, _⟩ | ⟨⟨y, rfl⟩, _⟩ | ⟨⟨d, rfl⟩, _⟩ <;>
    first | omega | simp

/-! ### Numbers and identity -/

theorem Value.eq_of_identical {m : Machine} {v w : Value} (hv : v.Immediate m)
    (h : v.identical w = true) : v = w := by
  cases v <;> cases w <;> simp_all [Value.identical, Value.Immediate]

/-- **When two values have the same number**: when they are identical, or integers at half the
range from each other. -/
theorem objectId_eq_iff {m : Machine} (names : m.names.entries.size < 2 ^ 32)
    (classes : m.classes.classes.size < 2 ^ 32) {v w : Value} (hv : v.Immediate m)
    (hw : w.Immediate m) :
    v.objectId = w.objectId ↔ v.identical w = true ∨ v.HalfApart w := by
  constructor
  · intro same
    rcases hv.same_kind hw same with rfl | ⟨i, j, rfl, rfl⟩ | ⟨x, y, rfl, rfl⟩ | ⟨c, d, rfl, rfl⟩
    · exact .inl v.identical_self
    · rcases (objectId_int_eq_iff i j).mp same with rfl | far
      · exact .inl (Value.identical_self _)
      · exact .inr ⟨i, j, rfl, rfl, far⟩
    · have index := (position_number_eq_iff (hv.trans names) (hw.trans names)).mp same
      exact .inl (beq_iff_eq.mpr (congrArg NameId.mk index))
    · have index := (position_number_eq_iff (hv.trans classes) (hw.trans classes)).mp same
      exact .inl (beq_iff_eq.mpr (congrArg ClassId.mk index))
  · rintro (same | ⟨i, j, rfl, rfl, far⟩)
    · rw [Value.eq_of_identical hv same]
    · exact (objectId_int_eq_iff i j).mpr (.inr far)

theorem objectId_eq_iff_least :
    let m := Machine.bare (.collecting "")
    let v := Value.int 0
    let w := Value.int Int64.minValue
    m.names.entries.size < 2 ^ 32 ∧ m.classes.classes.size < 2 ^ 32 ∧ v.Immediate m ∧
      w.Immediate m ∧ v.HalfApart w ∧ v.objectId = w.objectId := by
  have names : (Machine.bare (.collecting "")).names.entries.size < 2 ^ 32 := by decide +kernel
  have classes : (Machine.bare (.collecting "")).classes.classes.size < 2 ^ 32 := by decide +kernel
  have far : (Value.int 0).HalfApart (.int Int64.minValue) := ⟨_, _, rfl, rfl, by decide⟩
  exact ⟨names, classes, trivial, trivial, far,
    (objectId_eq_iff (v := .int 0) (w := .int _) names classes trivial trivial).mpr (.inr far)⟩

/-- Zero and the least integer share a number, and are not identical. -/
theorem least_shares_number_of_zero :
    ¬ ∀ (m : Machine) (v w : Value), m.names.entries.size < 2 ^ 32 →
      m.classes.classes.size < 2 ^ 32 → v.Immediate m → w.Immediate m →
      (v.objectId = w.objectId ↔ v.identical w = true) := by
  intro apart
  have same := (apart (Machine.bare (.collecting "")) (.int 0) (.int Int64.minValue)
    (by decide +kernel) (by decide +kernel) trivial trivial).mp (by decide)
  exact absurd same (by decide)

/-- **No numbering tells all integers and `nil` apart**, so some values share their number whatever
it is. -/
theorem numbers_run_out (m : Machine) :
    ¬ ∃ number : Value → UInt64, ∀ v w : Value, v.Immediate m → w.Immediate m →
      (number v = number w ↔ v.identical w = true) := by
  rintro ⟨number, apart⟩
  let ofWord (u : UInt64) : UInt64 := number (.int u.toInt64)
  have injective : Function.Injective ofWord := by
    intro u u' h
    have same := (apart (.int u.toInt64) (.int u'.toInt64) trivial trivial).mp h
    have equal : u.toInt64 = u'.toInt64 := beq_iff_eq.mp same
    exact congrArg Int64.toUInt64 equal
  have : Finite UInt64 := Finite.of_injective UInt64.toFin fun _ _ h => UInt64.toFin_inj.mp h
  obtain ⟨u, hu⟩ := Finite.surjective_of_injective injective (number .nil)
  have same := (apart (.int u.toInt64) .nil trivial trivial).mp hu
  exact absurd same (by simp [Value.identical])

end MiniRuby
