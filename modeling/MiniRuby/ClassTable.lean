import MiniRuby.Bindings
import MiniRuby.Method

/-!
# Classes

Classes are kept in a table and never go away.  A class knows the classes above it, nearest
first, and holds two sets of methods: those of its instances and those of the class itself.  A
method is looked up along the ancestors, so the nearest definition wins.  A name stands for the
class that was registered under it last.
-/

namespace MiniRuby

/-- What the instances of a class carry. -/
inductive Payload where
  /-- Instance variables. -/
  | ivars
  /-- A text. -/
  | text
  /-- A row of elements. -/
  | elements
  /-- Nothing: no instance can be made. -/
  | withheld
deriving DecidableEq

/-- A class: its name, the classes above it, nearest first, and its methods. -/
structure ClassInfo where
  name : String
  above : List ClassId
  /-- What instances carry; `none` leaves it to the classes above. -/
  payload? : Option Payload
  methods : Bindings Method
  classMethods : Bindings Method
deriving Inhabited

/-- The classes, each at its position, and the names that they are known by, latest first. -/
structure ClassTable where
  classes : Array ClassInfo
  names : List (String × ClassId)

namespace ClassTable

def empty : ClassTable := ⟨#[], []⟩

/-- What is known of a class. -/
def get (t : ClassTable) (c : ClassId) : ClassInfo := (t.classes[c.index]?).getD default

def name (t : ClassTable) (c : ClassId) : String := (t.get c).name

/-- A class and the classes above it, nearest first. -/
def ancestors (t : ClassTable) (c : ClassId) : List ClassId := c :: (t.get c).above

/-- The class directly above. -/
def parent? (t : ClassTable) (c : ClassId) : Option ClassId := (t.get c).above.head?

/-- Whether `a` is `c` or a class above it. -/
def isSubclass (t : ClassTable) (c a : ClassId) : Bool := (t.ancestors c).contains a

/-- Add a class and let a name stand for it. -/
def register (t : ClassTable) (known : String) (name : String) (parent? : Option ClassId)
    (payload? : Option Payload) : ClassId × ClassTable :=
  let above :=
    match parent? with
    | some parent => t.ancestors parent
    | none => []
  let id : ClassId := ⟨t.classes.size⟩
  (id, ⟨t.classes.push ⟨name, above, payload?, .empty, .empty⟩, (known, id) :: t.names⟩)

/-- The class that a name stands for. -/
def find? (t : ClassTable) (name : String) : Option ClassId := t.names.lookup name

/-- The first definition that `methods` finds among some classes, with its owner. -/
def findIn (t : ClassTable) (methods : ClassInfo → Bindings Method) (name : NameId) :
    List ClassId → Option (Method × ClassId)
  | [] => none
  | c :: cs =>
    match (methods (t.get c)).get? name with
    | some m => some (m, c)
    | none => t.findIn methods name cs

/-- The nearest method that instances of a class have under a name, with the class that owns
it. -/
def findMethod? (t : ClassTable) (c : ClassId) (name : NameId) : Option (Method × ClassId) :=
  t.findIn ClassInfo.methods name (t.ancestors c)

/-- The nearest method that a class itself has under a name, with the class that owns it. -/
def findClassMethod? (t : ClassTable) (c : ClassId) (name : NameId) :
    Option (Method × ClassId) :=
  t.findIn ClassInfo.classMethods name (t.ancestors c)

/-- What the instances of a class carry, as the nearest of its ancestors says. -/
def payload (t : ClassTable) (c : ClassId) : Payload :=
  ((t.ancestors c).findSome? fun a => (t.get a).payload?).getD .withheld

/-- Change what is known of a class. -/
def modify (t : ClassTable) (c : ClassId) (f : ClassInfo → ClassInfo) : ClassTable :=
  { t with classes := t.classes.modify c.index f }

/-- Give the instances of a class a method; a method of the same name is replaced. -/
def addMethod (t : ClassTable) (c : ClassId) (m : Method) : ClassTable :=
  t.modify c fun i => { i with methods := i.methods.insert m.name m }

/-- Give a class itself a method; a method of the same name is replaced. -/
def addClassMethod (t : ClassTable) (c : ClassId) (m : Method) : ClassTable :=
  t.modify c fun i => { i with classMethods := i.classMethods.insert m.name m }

/-- Take a method from the instances of a class. -/
def removeMethod (t : ClassTable) (c : ClassId) (name : NameId) : ClassTable :=
  t.modify c fun i => { i with methods := i.methods.erase name }

/-- The names of the methods that a class defines for its instances, oldest name first. -/
def methodNames (t : ClassTable) (c : ClassId) : List NameId :=
  (t.get c).methods.names.mergeSort fun a b => a.index ≤ b.index

end ClassTable

end MiniRuby
