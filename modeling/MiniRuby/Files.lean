/-!
# Files

How a script is found and loaded.  A script may be named without its extension.  What there is
under a name is a parameter of loading; a set of files below one directory, the root, is a way of
telling it.  Of the directories above the root nothing is known but that they are there.
-/

namespace MiniRuby

/-- What there is under a name. -/
inductive Found where
  | file (fullName : String) (content : ByteArray)
  | unreadable (reason : String)
  | missing

/-- What there is under the name of a directory. -/
def Found.directory : Found := .unreadable "Is a directory (os error 21)"

/-- Why a script cannot be loaded. -/
inductive LoadError where
  | notFound (name : String)
  | unreadable (name reason : String)
deriving DecidableEq

/-- The wording of an error. -/
def LoadError.message : LoadError → String
  | notFound name => s!"No such file or directory -- {name} (LoadError)"
  | unreadable name reason => s!"Couldn't read {name}: {reason} (LoadError)"

/-! ### Loading -/

namespace Script

/-- The parts of a name up to the file that it means: what stands at the end without naming
anything is left out. -/
def trim (parts : List String) : List String :=
  (parts.reverse.dropWhile fun part => part = "" || part = ".").reverse

/-- Whether a file's name has an extension.  A point at the beginning does not count. -/
def hasExtension (file : String) : Bool := (file.toList.drop 1).contains '.'

/-- The name with the extension of scripts, for a name that has no extension and names a file. -/
def withExtension? (name : String) : Option String :=
  let parts := trim (name.splitOn "/")
  match parts.getLast? with
  | none | some ".." => none
  | some file => if hasExtension file then none else some ("/".intercalate parts ++ ".rb")

/-- What is loaded for a name.  When there is nothing of the name itself, the name with the
extension of scripts is tried. -/
def find (look : String → Found) (name : String) : Found :=
  match look name, withExtension? name with
  | .missing, some longer => look longer
  | found, _ => found

/-- Load a script.  The answer is the full name of the file and its text. -/
def load (look : String → Found) (name : String) : Except LoadError (String × String) :=
  match find look name with
  | .missing => .error (.notFound name)
  | .unreadable reason => .error (.unreadable name reason)
  | .file fullName content =>
    match String.fromUTF8? content with
    | some text => .ok (fullName, text)
    | none => .error (.unreadable name "stream did not contain valid UTF-8")

end Script

/-! ### Sets of files -/

/-- The names of the directories on the way from the root, and of a file or directory at last. -/
abbrev Path : Type := List String

/-- The files below a directory. -/
structure FileSet where
  /-- The name of the directory. -/
  root : String
  files : List (Path × ByteArray)

namespace FileSet

/-- Whether a path is that of a directory. -/
def isDirectory (s : FileSet) (p : Path) : Bool :=
  p.isEmpty || s.files.any fun f => p.isPrefixOf f.1 && p.length < f.1.length

/-- What a file holds. -/
def content? (s : FileSet) (p : Path) : Option ByteArray := s.files.lookup p

/-- Follow the parts of a name from a place; `none` stands for a place above the root.  Only a
directory can be followed further. -/
def walk (s : FileSet) : Option Path → List String → Option (Option Path)
  | here, [] => some here
  | none, part :: parts =>
    if part = "" || part = "." || part = ".." then s.walk none parts else none
  | some here, part :: parts =>
    if !s.isDirectory here then none
    else if part = "" || part = "." then s.walk (some here) parts
    else if part = ".." then s.walk (if here.isEmpty then none else some here.dropLast) parts
    else
      let next := here ++ [part]
      if s.isDirectory next || (s.content? next).isSome then s.walk (some next) parts else none

/-- The place that a name means, if there is something.  A name is followed from the root, whether
it begins with the root's name or not. -/
def locate (s : FileSet) (name : String) : Option (Option Path) :=
  let parts := name.splitOn "/"
  let root := s.root.splitOn "/"
  if name.isEmpty then none
  else if root.isPrefixOf parts && root.length < parts.length then
    s.walk (some []) (parts.drop root.length)
  else if name.startsWith "/" then none
  else s.walk (some []) parts

/-- The full name of a place. -/
def fullName (s : FileSet) (p : Path) : String := "/".intercalate (s.root :: p)

/-- What there is under a name. -/
def look (s : FileSet) (name : String) : Found :=
  match s.locate name with
  | none => .missing
  | some none => .directory
  | some (some p) =>
    match s.content? p with
    | some content => .file (s.fullName p) content
    | none => .directory

end FileSet

end MiniRuby
