import MiniRuby.ClassTable

/-!
# The heap

Strings, arrays, objects and bound methods, each in a cell of its own that is never given back.
Values refer to cells, so a change to a cell shows wherever it is referred to.
-/

namespace MiniRuby

structure StringCell where
  cls : ClassId
  text : String
deriving Inhabited

structure ArrayCell where
  cls : ClassId
  elements : Array Value
deriving Inhabited

/-- A plain object: its class and its instance variables. -/
structure ObjectCell where
  cls : ClassId
  ivars : Bindings Value
deriving Inhabited

/-- A method with the receiver that it was taken from, the name that it was asked for by, and the
class that owns it. -/
structure BoundCell where
  cls : ClassId
  name : NameId
  receiver : Value
  method : Method
  owner : ClassId

instance : Inhabited BoundCell := ⟨⟨default, default, default, .native default ⟨0, none⟩ .gather,
  default⟩⟩

/-- The cells, each at its position. -/
structure Heap where
  strings : Array StringCell
  arrays : Array ArrayCell
  objects : Array ObjectCell
  bounds : Array BoundCell

namespace Heap

def empty : Heap := ⟨#[], #[], #[], #[]⟩

/-! ### Looking up -/

def string (h : Heap) (id : StringId) : StringCell := (h.strings[id.index]?).getD default

def array (h : Heap) (id : ArrayId) : ArrayCell := (h.arrays[id.index]?).getD default

def object (h : Heap) (id : ObjectId) : ObjectCell := (h.objects[id.index]?).getD default

def bound (h : Heap) (id : BoundId) : BoundCell := (h.bounds[id.index]?).getD default

/-- The text of a string. -/
def text (h : Heap) (id : StringId) : String := (h.string id).text

/-- The elements of an array. -/
def elements (h : Heap) (id : ArrayId) : Array Value := (h.array id).elements

/-- What a string value says, if it is one. -/
def text? (h : Heap) : Value → Option String
  | .str id => some (h.text id)
  | _ => none

/-- What an instance variable of an object holds. -/
def ivar? (h : Heap) (id : ObjectId) (name : NameId) : Option Value :=
  (h.object id).ivars.get? name

/-! ### Making -/

def newString (h : Heap) (cls : ClassId) (text : String) : Value × Heap :=
  (.str ⟨h.strings.size⟩, { h with strings := h.strings.push ⟨cls, text⟩ })

def newArray (h : Heap) (cls : ClassId) (elements : Array Value) : Value × Heap :=
  (.arr ⟨h.arrays.size⟩, { h with arrays := h.arrays.push ⟨cls, elements⟩ })

def newObject (h : Heap) (cls : ClassId) : Value × Heap :=
  (.obj ⟨h.objects.size⟩, { h with objects := h.objects.push ⟨cls, .empty⟩ })

def newBound (h : Heap) (cell : BoundCell) : Value × Heap :=
  (.bound ⟨h.bounds.size⟩, { h with bounds := h.bounds.push cell })

/-! ### Changing -/

/-- Add a text to the end of a string. -/
def append (h : Heap) (id : StringId) (more : String) : Heap :=
  { h with strings := h.strings.modify id.index fun c => { c with text := c.text ++ more } }

/-- Change the elements of an array. -/
def modifyElements (h : Heap) (id : ArrayId) (f : Array Value → Array Value) : Heap :=
  { h with arrays := h.arrays.modify id.index fun c => { c with elements := f c.elements } }

/-- Bind an instance variable of an object. -/
def setVariable (h : Heap) (id : ObjectId) (name : NameId) (v : Value) : Heap :=
  { h with
    objects := h.objects.modify id.index fun c => { c with ivars := c.ivars.insert name v } }

/-! ### Equality of contents -/

/-- Whether two values say the same: strings by their texts, arrays by their elements, floats as
numbers, and everything else by identity.  Arrays are followed as deeply as there is fuel. -/
def sameContent (h : Heap) : Nat → Value → Value → Bool
  | _, .float x, .float y => x == y
  | _, .str a, .str b => h.text a == h.text b
  | 0, .arr a, .arr b => a == b
  | n + 1, .arr a, .arr b =>
    a == b || (h.elements a).toList.length == (h.elements b).toList.length &&
      ((h.elements a).toList.zip (h.elements b).toList).all fun p => sameContent h n p.1 p.2
  | _, v, w => v.identical w

/-- Whether two values say the same.  Arrays that do not hold themselves are nested less deeply
than there are arrays. -/
def equal (h : Heap) (v w : Value) : Bool := h.sameContent h.arrays.size v w

end Heap

end MiniRuby
