import MiniRuby.Library.Catalogue

/-!
# The first machine

The classes that are there before any program has run, with their native methods.
-/

namespace MiniRuby

/-- A class of the first machine. -/
structure ClassEntry where
  name : String
  parent? : Option ClassId
  payload? : Option Payload

/-- The classes of the first machine, in the order of their positions. -/
def firstClasses : List ClassEntry :=
  let primitive (name : String) (payload : Payload) : ClassEntry :=
    ⟨name, some .object, some payload⟩
  let error (name : String) (parent : ClassId) : ClassEntry := ⟨name, some parent, none⟩
  [⟨"BasicObject", none, some .ivars⟩,
    ⟨"Object", some .basicObject, none⟩,
    primitive "Class" .withheld,
    primitive "NilClass" .withheld,
    primitive "TrueClass" .withheld,
    primitive "FalseClass" .withheld,
    primitive "Integer" .withheld,
    primitive "Float" .withheld,
    primitive "String" .text,
    primitive "Symbol" .withheld,
    primitive "Array" .elements,
    primitive "Method" .withheld,
    error "Exception" .object,
    error "StandardError" .exception,
    error "RuntimeError" .standardError,
    error "ArgumentError" .standardError,
    error "TypeError" .standardError,
    error "NameError" .standardError,
    error "NoMethodError" ⟨17⟩,
    error "ZeroDivisionError" .standardError,
    error "RangeError" .standardError,
    error "IndexError" .standardError]

namespace Machine

/-- A machine with the first classes, none of which has a method yet. -/
def bare (sink : Sink) (host : Host := .standard) : Machine where
  names := .initial
  classes := firstClasses.foldl
    (fun t e => (t.register e.name e.name e.parent? e.payload?).2) .empty
  heap := (Heap.empty.newObject .object).2
  frames := .initial
  constants := .empty
  source? := none
  sink := sink
  depth := 0
  host := host

/-- Give a class a native method. -/
def install (m : Machine) (e : NativeEntry) : Machine :=
  let r := m.names.intern e.name
  { m with
    names := r.2
    classes := m.classes.addMethod e.owner (.native r.1 e.arity e.op) }

/-- The machine that every program starts from. -/
def boot (sink : Sink) (host : Host := .standard) : Machine :=
  Catalogue.entries.foldl install (bare sink host)

end Machine

end MiniRuby
