import MiniRuby.Bindings
import MiniRuby.Value

/-!
# Scopes

Local variables live in frames.  A scope is a frame together with the frames around it, and a
variable is looked up from the inside out.  Assigning binds it in the innermost frame, whatever
the outer frames say.  Frames are shared: a change shows in every scope that the frame is part of.
-/

namespace MiniRuby

/-- A position in the store of frames. -/
structure FrameId where
  index : Nat
deriving DecidableEq, Inhabited

/-- Where variables are looked up: a frame, then the frames around it, nearest first. -/
structure Scope where
  inner : FrameId
  outer : List FrameId
deriving DecidableEq

/-- The scope outside of all classes and methods. -/
def Scope.top : Scope := ⟨⟨0⟩, []⟩

/-- The frames of a scope, innermost first. -/
def Scope.path (s : Scope) : List FrameId := s.inner :: s.outer

/-- The frames that have been opened, each at its position. -/
structure FrameStore where
  frames : Array (Bindings Value)

namespace FrameStore

/-- The store with the frame of the top scope alone. -/
def initial : FrameStore := ⟨#[.empty]⟩

/-- The variables that are bound in a frame. -/
def frame (t : FrameStore) (id : FrameId) : Bindings Value := (t.frames[id.index]?).getD .empty

/-- The first value that the frames of a list hold for a name. -/
def find (t : FrameStore) (name : NameId) : List FrameId → Option Value
  | [] => none
  | id :: ids =>
    match (t.frame id).get? name with
    | some v => some v
    | none => t.find name ids

/-- What a variable holds in a scope. -/
def get? (t : FrameStore) (s : Scope) (name : NameId) : Option Value := t.find name s.path

/-- Bind a variable in the innermost frame of a scope. -/
def set (t : FrameStore) (s : Scope) (name : NameId) (v : Value) : FrameStore :=
  ⟨t.frames.modify s.inner.index fun b => b.insert name v⟩

/-- Open a new frame inside a scope. -/
def child (t : FrameStore) (s : Scope) : Scope × FrameStore :=
  (⟨⟨t.frames.size⟩, s.path⟩, ⟨t.frames.push .empty⟩)

/-- The variables that are bound in the innermost frame of a scope. -/
def names (t : FrameStore) (s : Scope) : List NameId := (t.frame s.inner).names

/-- Binding a variable changes one frame of the store. -/
theorem frame_set (t : FrameStore) (s : Scope) (name : NameId) (v : Value) (id : FrameId) :
    (t.set s name v).frame id =
      if id = s.inner ∧ id.index < t.frames.size then (t.frame id).insert name v
      else t.frame id := by
  obtain ⟨i⟩ := id
  obtain ⟨⟨j⟩, outer⟩ := s
  simp only [set, frame, Array.getElem?_modify, FrameId.mk.injEq]
  by_cases hi : j = i
  · subst hi
    by_cases hs : j < t.frames.size <;> simp [hs]
  · simp [hi, Ne.symm hi]

/-- Opening a frame leaves the frames that were there as they are. -/
theorem frame_child (t : FrameStore) (s : Scope) (id : FrameId) :
    (t.child s).2.frame id = t.frame id := by
  simp only [child, frame, Array.getElem?_push]
  split
  · rename_i h
    simp [h]
  · rfl

end FrameStore

end MiniRuby
