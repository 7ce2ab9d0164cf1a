import Mathlib.Logic.ExistsUnique
import MiniRuby.Scope

/-!
# Variables are looked up where they are written

Scopes form a tree: each but the top one was opened inside another one.  Variables are bound in any
of them at any time, also after scopes have been opened inside.  What a variable holds in a scope is
told by what has been done to the tree (`ScopeEvent`), without regard to how frames are kept: it is
looked for on the way out from the scope to the top (`ScopeTree.Way`), and the first scope there
that has bound it tells, by what it has bound it to last.

The frames that a scope carries along are those of the scopes on its way out, and each frame holds
what was bound last in its scope.  Opening a scope and binding a variable keep this so
(`ScopeTree.Reflects`).

* `ScopeTree.reflects_after`: a tree reflects what has been done to it.
* `ScopeTree.get?_eq_findSome?`: what a variable holds in a scope.
* `lookup_lexical`: the way out ends, the nearest binding counts, and binding a variable shows
  where it is the nearest.
-/

namespace MiniRuby

/-- What is done to a tree of scopes.  A scope is known by how many others were there before it, so
the top one is known by 0. -/
inductive ScopeEvent where
  /-- A scope is opened inside another one. -/
  | opens (scope : Nat)
  /-- A variable is bound in a scope. -/
  | binds (scope : Nat) (name : NameId) (v : Value)

namespace ScopeEvent

/-- The scope that something is done to. -/
def scope : ScopeEvent → Nat
  | .opens s | .binds s _ _ => s

/-- The scope inside which one is opened. -/
def outer? : ScopeEvent → Option Nat
  | .opens s => some s
  | .binds .. => none

/-- What a variable of a scope is bound to. -/
def value? (s : Nat) (x : NameId) : ScopeEvent → Option Value
  | .opens _ => none
  | .binds s' x' v => if s' = s ∧ x' = x then some v else none

end ScopeEvent

/-- A store of frames with the scopes that have been opened on it, in the order of their opening. -/
structure ScopeTree where
  store : FrameStore
  scopes : Array Scope

/-- What a list of frames holds for a name is what the first one holds that holds anything. -/
theorem FrameStore.find_eq_findSome? (t : FrameStore) (name : NameId) (ids : List FrameId) :
    t.find name ids = ids.findSome? fun id => (t.frame id).get? name := by
  induction ids with
  | nil => rfl
  | cons id ids ih =>
      rw [find, List.findSome?_cons, ih]
      cases (t.frame id).get? name <;> rfl

namespace ScopeTree

/-- The tree of the top scope alone. -/
def top : ScopeTree := ⟨.initial, #[.top]⟩

def scope (t : ScopeTree) (s : Nat) : Scope := (t.scopes[s]?).getD .top

def step (t : ScopeTree) : ScopeEvent → ScopeTree
  | .opens s => ⟨(t.store.child (t.scope s)).2, t.scopes.push (t.store.child (t.scope s)).1⟩
  | .binds s x v => { t with store := t.store.set (t.scope s) x v }

/-- A scope that is opened carries its own frame and those of the scope around it. -/
theorem scope_opens_new (t : ScopeTree) (s : Nat) :
    (t.step (.opens s)).scope t.scopes.size = ⟨⟨t.store.frames.size⟩, (t.scope s).path⟩ := by
  simp [step, scope, FrameStore.child]

theorem scope_opens_old (t : ScopeTree) (s : Nat) {s' : Nat} (hs : s' < t.scopes.size) :
    (t.step (.opens s)).scope s' = t.scope s' := by
  simp [step, scope, Array.getElem?_push, Nat.ne_of_lt hs]

/-- The tree that comes of a history. -/
def after (h : List ScopeEvent) : ScopeTree := h.foldl step top

/-- What a variable holds in a scope. -/
def get? (t : ScopeTree) (s : Nat) (x : NameId) : Option Value := t.store.get? (t.scope s) x

/-! ### What a history says -/

/-- The scopes that others were opened in: the one of scope 1, of scope 2, and so on. -/
def outers (h : List ScopeEvent) : List Nat := h.filterMap (·.outer?)

/-- The number of scopes. -/
def size (h : List ScopeEvent) : Nat := (outers h).length + 1

/-- What a variable was bound to last in a scope itself, if it ever was. -/
def last? (h : List ScopeEvent) (s : Nat) (x : NameId) : Option Value :=
  h.reverse.findSome? (·.value? s x)

/-- A history in which things are only done to scopes that are there. -/
inductive Valid : List ScopeEvent → Prop where
  | nil : Valid []
  | snoc {h : List ScopeEvent} {e : ScopeEvent} (valid : Valid h) (there : e.scope < size h) :
      Valid (h ++ [e])

/-- The way out from a scope: the scope itself, the one that it was opened in, and so on up to the
top one. -/
inductive Way (h : List ScopeEvent) : Nat → List Nat → Prop where
  | top : Way h 0 [0]
  | inside {s p : Nat} {way : List Nat} (opened : (outers h)[s]? = some p) (rest : Way h p way) :
      Way h (s + 1) ((s + 1) :: way)

/-- Whether a variable of scope `s` is looked for in scope `p`: it is on the way out, and the scopes
nearer to `s` have never bound the variable. -/
def Sees (h : List ScopeEvent) (s : Nat) (x : NameId) (p : Nat) : Prop :=
  ∃ near far, Way h s (near ++ p :: far) ∧ ∀ q ∈ near, last? h q x = none

/-- On the way out to a scope in which a variable is looked for, it is looked for in every scope. -/
theorem Sees.of_nearer {h : List ScopeEvent} {s p q : Nat} {x : NameId} {near far : List Nat}
    (hw : Way h s (near ++ p :: far)) (unbound : ∀ q ∈ near, last? h q x = none) (hq : q ∈ near) :
    Sees h s x q := by
  obtain ⟨before, between, rfl⟩ := List.append_of_mem hq
  exact ⟨before, between ++ p :: far, by simpa using hw, fun r hr =>
    unbound r (List.mem_append_left _ hr)⟩

section History

variable {h : List ScopeEvent} {s p : Nat} {way way' : List Nat}

@[simp] theorem outers_snoc (h : List ScopeEvent) (e : ScopeEvent) :
    outers (h ++ [e]) = outers h ++ e.outer?.toList := by
  cases e <;> simp [outers, ScopeEvent.outer?]

@[simp] theorem last?_snoc (h : List ScopeEvent) (e : ScopeEvent) (s : Nat) (x : NameId) :
    last? (h ++ [e]) s x = (e.value? s x).or (last? h s x) := by
  cases hv : e.value? s x <;> simp [last?, hv]

/-- A scope was opened in one that was there before it. -/
theorem Valid.outer_le (valid : Valid h) (opened : (outers h)[s]? = some p) : p ≤ s := by
  induction valid with
  | nil => simp [outers] at opened
  | @snoc h e _ there ih =>
      rw [outers_snoc] at opened
      by_cases old : s < (outers h).length
      · exact ih (by rwa [List.getElem?_append_left old] at opened)
      · rw [List.getElem?_append_right (Nat.le_of_not_lt old)] at opened
        have outer : e.outer? = some p := by simpa using List.mem_of_getElem? opened
        cases e with
        | opens _ =>
            cases outer
            simp only [ScopeEvent.scope, size] at there
            omega
        | binds _ _ _ => cases outer

namespace Way

/-- There is one way out. -/
theorem unique (hw : Way h s way) (hw' : Way h s way') : way = way' := by
  induction hw generalizing way' with
  | top =>
      cases hw'
      rfl
  | inside opened _ ih =>
      cases hw' with
      | inside opened' rest' =>
          rw [opened] at opened'
          cases opened'
          rw [ih rest']

/-- Scopes stay inside those that they were opened in. -/
theorem snoc (hw : Way h s way) (e : ScopeEvent) : Way (h ++ [e]) s way := by
  induction hw with
  | top => exact .top
  | inside opened _ ih =>
      refine .inside ?_ ih
      rw [outers_snoc, List.getElem?_append_left (List.getElem?_eq_some_iff.mp opened).1, opened]

/-- The way out from a scope that has just been opened. -/
theorem opens (hw : Way h s way) : Way (h ++ [.opens s]) (size h) (size h :: way) := by
  refine .inside ?_ (hw.snoc _)
  simp [ScopeEvent.outer?]

/-- The way out leads to scopes that were there before. -/
theorem pairwise (valid : Valid h) (hw : Way h s way) :
    way.Pairwise (· > ·) ∧ ∀ p ∈ way, p ≤ s := by
  induction hw with
  | top => simp
  | @inside s p way opened _ ih =>
      obtain ⟨falling, below⟩ := ih
      have before : ∀ q ∈ way, q ≤ s := fun q hq =>
        Nat.le_trans (below q hq) (valid.outer_le opened)
      refine ⟨falling.cons fun q hq => Nat.lt_succ_of_le (before q hq), fun q hq => ?_⟩
      rcases List.mem_cons.mp hq with rfl | hq
      · exact Nat.le_refl _
      · exact Nat.le_succ_of_le (before q hq)

end Way

end History

/-! ### What a tree holds -/

/-- Whether a tree is as a history says: a scope carries the frames of the scopes on its way out,
and a frame holds what was bound last in its scope. -/
structure Reflects (h : List ScopeEvent) (t : ScopeTree) : Prop where
  scopes : t.scopes.size = size h
  frames : t.store.frames.size = size h
  path : ∀ s < size h, ∃ way, Way h s way ∧ (t.scope s).path = way.map FrameId.mk
  held : ∀ s x, (t.store.frame ⟨s⟩).get? x = last? h s x

namespace Reflects

variable {h : List ScopeEvent} {t : ScopeTree} {s : Nat}

theorem top : Reflects [] top where
  scopes := rfl
  frames := rfl
  path s hs := by
    obtain rfl : s = 0 := by simpa [size, outers] using hs
    exact ⟨[0], .top, rfl⟩
  held s x := by
    cases s <;> rfl

/-- The innermost frame of a scope is its own. -/
theorem inner (ht : Reflects h t) (hs : s < size h) : (t.scope s).inner = ⟨s⟩ := by
  obtain ⟨way, hw, path⟩ := ht.path s hs
  cases hw <;> exact (List.cons.inj path).1

theorem opens (ht : Reflects h t) (hs : s < size h) :
    Reflects (h ++ [.opens s]) (t.step (.opens s)) where
  scopes := by simp [step, ht.scopes, size, ScopeEvent.outer?]
  frames := by simp [step, FrameStore.child, ht.frames, size, ScopeEvent.outer?]
  path s' hs' := by
    have there : s' < size h + 1 := by simpa [size, ScopeEvent.outer?] using hs'
    rcases Nat.lt_succ_iff_lt_or_eq.mp there with old | rfl
    · obtain ⟨way, hw, path⟩ := ht.path s' old
      have carried := t.scope_opens_old s (ht.scopes ▸ old)
      exact ⟨way, hw.snoc _, (congrArg Scope.path carried).trans path⟩
    · -- Scopes and frames are opened together, so the new ones have the same position.
      obtain ⟨way, hw, path⟩ := ht.path s hs
      refine ⟨size h :: way, hw.opens, ?_⟩
      have carried := t.scope_opens_new s
      rw [ht.scopes, ht.frames] at carried
      exact (congrArg Scope.path carried).trans (congrArg (FrameId.mk (size h) :: ·) path)
  held s' x := by
    rw [last?_snoc]
    exact (congrArg (·.get? x) (t.store.frame_child (t.scope s) ⟨s'⟩)).trans (ht.held s' x)

theorem binds (ht : Reflects h t) (hs : s < size h) (x : NameId) (v : Value) :
    Reflects (h ++ [.binds s x v]) (t.step (.binds s x v)) where
  scopes := by simp [step, ht.scopes, size, ScopeEvent.outer?]
  frames := by simp [step, FrameStore.set, ht.frames, size, ScopeEvent.outer?]
  path s' hs' := by
    obtain ⟨way, hw, path⟩ := ht.path s' (by simpa [size, ScopeEvent.outer?] using hs')
    exact ⟨way, hw.snoc _, path⟩
  held s' y := by
    rw [last?_snoc, step, FrameStore.frame_set, ht.inner hs, ht.frames]
    by_cases here : s' = s
    · subst here
      rw [if_pos ⟨rfl, hs⟩, Bindings.get?_insert, ht.held]
      by_cases same : x = y <;> simp [ScopeEvent.value?, same]
    · rw [if_neg fun h => here (congrArg FrameId.index h.1), ht.held]
      simp [ScopeEvent.value?, Ne.symm here]

end Reflects

/-! ### Looking a variable up -/

section Lookup

variable {h : List ScopeEvent} {s p : Nat} {x y : NameId} {v : Value} {way : List Nat}

/-- **A tree reflects what has been done to it.** -/
theorem reflects_after (valid : Valid h) : Reflects h (after h) := by
  induction valid with
  | nil => exact .top
  | @snoc h e _ there ih =>
      rw [after, List.foldl_append]
      cases e with
      | opens s => exact ih.opens there
      | binds s x v => exact ih.binds there x v

/-- The first scope on the way out that has bound a variable tells what it holds. -/
theorem get?_eq_findSome? (valid : Valid h) (there : s < size h) (hw : Way h s way) :
    (after h).get? s x = way.findSome? (last? h · x) := by
  have reflects := reflects_after valid
  obtain ⟨_, hw', path⟩ := reflects.path s there
  cases hw.unique hw'
  rw [get?, FrameStore.get?, path, FrameStore.find_eq_findSome?, List.findSome?_map]
  exact congrArg (way.findSome? ·) (funext fun s' => reflects.held s' x)

theorem get?_eq_some_iff (valid : Valid h) (there : s < size h) :
    (after h).get? s x = some v ↔ ∃ p, Sees h s x p ∧ last? h p x = some v := by
  obtain ⟨way, hw, -⟩ := (reflects_after valid).path s there
  rw [get?_eq_findSome? valid there hw, List.findSome?_eq_some_iff]
  constructor
  · rintro ⟨near, p, far, rfl, bound, unbound⟩
    exact ⟨p, ⟨near, far, hw, unbound⟩, bound⟩
  · rintro ⟨p, ⟨near, far, hw', unbound⟩, bound⟩
    exact ⟨near, p, far, hw.unique hw', bound, unbound⟩

theorem get?_eq_none_iff (valid : Valid h) (there : s < size h) :
    (after h).get? s x = none ↔ ∀ way, Way h s way → ∀ p ∈ way, last? h p x = none := by
  obtain ⟨way, hw, -⟩ := (reflects_after valid).path s there
  rw [get?_eq_findSome? valid there hw, List.findSome?_eq_none_iff]
  exact ⟨fun unbound way' hw' => hw.unique hw' ▸ unbound, fun unbound => unbound way hw⟩

/-! ### Binding a variable -/

theorem size_binds (h : List ScopeEvent) (p : Nat) (x : NameId) (v : Value) :
    size (h ++ [.binds p x v]) = size h := by
  simp [size, ScopeEvent.outer?]

theorem Valid.binds (valid : Valid h) (hp : p < size h) : Valid (h ++ [.binds p x v]) :=
  valid.snoc hp

theorem last?_binds (h : List ScopeEvent) (p : Nat) (x : NameId) (v : Value) (q : Nat)
    (y : NameId) :
    last? (h ++ [.binds p x v]) q y = if p = q ∧ x = y then some v else last? h q y := by
  rw [last?_snoc, ScopeEvent.value?]
  split <;> rfl

theorem last?_binds_of_ne {q : Nat} (other : p ≠ q) :
    last? (h ++ [.binds p x v]) q y = last? h q y := by
  rw [last?_binds, if_neg fun same => other same.1]

/-- Where a variable is looked for in the scope that binds it, the new value shows. -/
theorem get?_binds_of_sees (valid : Valid h) (there : s < size h) (hp : p < size h)
    (sees : Sees h s x p) : (after (h ++ [.binds p x v])).get? s x = some v := by
  obtain ⟨near, far, hw, unbound⟩ := sees
  -- The nearer scopes are others than `p`, as the way out passes no scope twice.
  refine (get?_eq_some_iff (valid.binds hp) (by rwa [size_binds])).mpr
    ⟨p, ⟨near, far, hw.snoc _, fun q hq => ?_⟩, by rw [last?_binds, if_pos ⟨rfl, rfl⟩]⟩
  have falling := (List.pairwise_append.mp (hw.pairwise valid).1).2.2 q hq p (.head far)
  rw [last?_binds_of_ne (Nat.ne_of_lt falling), unbound q hq]

/-- To bind a variable where it is not looked for does not change where it is looked for. -/
theorem sees_binds_iff (valid : Valid h) (there : s < size h) (unseen : ¬ Sees h s x p) {q : Nat} :
    Sees (h ++ [.binds p x v]) s x q ↔ Sees h s x q := by
  obtain ⟨way, hw, -⟩ := (reflects_after valid).path s there
  constructor
  · rintro ⟨near, far, hw', unbound⟩
    cases (hw.snoc _).unique hw'
    refine ⟨near, far, hw, fun r hr => ?_⟩
    have bound := unbound r hr
    rw [last?_binds] at bound
    split at bound
    · cases bound
    · exact bound
  · rintro ⟨near, far, hw', unbound⟩
    refine ⟨near, far, hw'.snoc _, fun r hr => ?_⟩
    have other : p ≠ r := by
      rintro rfl
      exact unseen (Sees.of_nearer hw' unbound hr)
    rw [last?_binds_of_ne other, unbound r hr]

/-- Where it is not looked for there, it holds what it held. -/
theorem get?_binds_of_not_sees (valid : Valid h) (there : s < size h) (hp : p < size h)
    (unseen : ¬ Sees h s x p) :
    (after (h ++ [.binds p x v])).get? s x = (after h).get? s x := by
  refine Option.ext fun w => ?_
  rw [get?_eq_some_iff (valid.binds hp) (by rwa [size_binds]), get?_eq_some_iff valid there]
  refine exists_congr fun q => ?_
  rw [sees_binds_iff valid there unseen]
  refine and_congr_right fun sees => ?_
  have other : p ≠ q := by
    rintro rfl
    exact unseen sees
  rw [last?_binds_of_ne other]

/-- Other variables hold what they held. -/
theorem get?_binds_of_ne (valid : Valid h) (there : s < size h) (hp : p < size h) (other : y ≠ x) :
    (after (h ++ [.binds p x v])).get? s y = (after h).get? s y := by
  obtain ⟨way, hw, -⟩ := (reflects_after valid).path s there
  rw [get?_eq_findSome? (valid.binds hp) (by rwa [size_binds]) (hw.snoc _),
    get?_eq_findSome? valid there hw]
  refine congrArg (way.findSome? ·) (funext fun q => ?_)
  rw [last?_binds, if_neg fun same => other same.2.symm]

end Lookup

end ScopeTree

open ScopeTree

/-- **Variables are looked up where they are written.**  Whatever has been done to a tree of scopes:

* from each scope there is one way out, and the frames that look-ups in the scope go through are
  those of the scopes on it;
* a variable holds what it was bound to last in the nearest scope on the way out that has ever
  bound it, and nothing if none has;
* binding a variable in a scope shows in that one and in those that look for the variable there,
  and changes nothing else. -/
theorem lookup_lexical {h : List ScopeEvent} (valid : Valid h) {s : Nat} (there : s < size h) :
    (∃! way, Way h s way) ∧
    (∀ way, Way h s way → ((after h).scope s).path = way.map FrameId.mk) ∧
    (∀ x v, (after h).get? s x = some v ↔ ∃ p, Sees h s x p ∧ last? h p x = some v) ∧
    (∀ x, (after h).get? s x = none ↔ ∀ way, Way h s way → ∀ p ∈ way, last? h p x = none) ∧
    ∀ p < size h, ∀ x v,
      (Sees h s x p → (after (h ++ [.binds p x v])).get? s x = some v) ∧
      (¬ Sees h s x p → (after (h ++ [.binds p x v])).get? s x = (after h).get? s x) ∧
      ∀ y ≠ x, (after (h ++ [.binds p x v])).get? s y = (after h).get? s y := by
  obtain ⟨way, hw, path⟩ := (reflects_after valid).path s there
  refine ⟨⟨way, hw, fun _ hw' => hw'.unique hw⟩, fun way' hw' => ?_,
    fun _ _ => get?_eq_some_iff valid there, fun _ => get?_eq_none_iff valid there,
    fun p hp _ _ => ⟨get?_binds_of_sees valid there hp, get?_binds_of_not_sees valid there hp,
      fun _ => get?_binds_of_ne valid there hp⟩⟩
  rw [path, hw.unique hw']

/-- A variable of the top scope that the scope in between binds as well: what is bound at the top
later does not show inside, and what is bound in between does. -/
theorem lookup_lexical_shadowed :
    let x : NameId := ⟨12⟩
    let h : List ScopeEvent :=
      [.opens 0, .opens 1, .binds 0 x (.int 1), .binds 1 x (.int 2), .binds 0 x (.int 3)]
    Valid h ∧ 2 < size h ∧ (after h).get? 2 x = some (.int 2) ∧
      (after (h ++ [.binds 1 x .nil])).get? 2 x = some .nil := by
  intro x h
  have valid : Valid h :=
    ((((Valid.nil.snoc (e := .opens 0) (by decide)).snoc (e := .opens 1) (by decide)).binds
      (by decide)).binds (by decide)).binds (by decide)
  have there : 2 < size h := by decide
  have sees : Sees h 2 x 1 := by
    refine ⟨[2], [0], .inside rfl (.inside rfl .top), fun q hq => ?_⟩
    rw [List.mem_singleton.mp hq]
    rfl
  have found := (lookup_lexical valid there).2.2
  exact ⟨valid, there, (found.1 x _).mpr ⟨1, sees, rfl⟩,
    (found.2.2 1 (by decide) x .nil).1 sees⟩

end MiniRuby
