/-!
# Files

The files that commands read and write, in any monad.  A store keeps them in
memory, and finds them by paths as an operating system does.
-/

namespace Desugar
namespace Command

inductive AccessError where
  | noSuchFile
  | notDirectory
  | isDirectory
  | nameTooLong
  | nulByte
  | other (reason : String)
deriving DecidableEq, Inhabited

def AccessError.reason : AccessError → String
  | .noSuchFile => "No such file or directory (os error 2)"
  | .notDirectory => "Not a directory (os error 20)"
  | .isDirectory => "Is a directory (os error 21)"
  | .nameTooLong => "File name too long (os error 36)"
  | .nulByte => "file name contained an unexpected NUL byte"
  | .other reason => reason

/-- Reading gives a text, and writing nothing, or else they fail. -/
structure Files (m : Type → Type) where
  read : String → m (Except AccessError String)
  write : String → String → m (Except AccessError Unit)

/-!
## Paths

A path is a sequence of names that slashes separate.  A slash at its end says
that it leads to a directory.
-/

structure Path where
  absolute : Bool
  names : List String
  trailing : Bool
deriving DecidableEq, Inhabited

namespace Path

def sizeLimit : Nat :=
  4095

def nameLimit : Nat :=
  255

def ofText (text : String) : Except AccessError Path :=
  let pieces := text.splitOn "/"
  if text.contains '\x00' then .error .nulByte
  else if text.isEmpty then .error .noSuchFile
  else if text.utf8ByteSize > sizeLimit then .error .nameTooLong
  else .ok ⟨pieces.head? == some "", pieces.filter (fun piece => piece != ""),
    pieces.getLast? == some ""⟩

end Path

/-!
## A store in memory

A store holds the files of a working directory.  Above that directory there are
others, in which nothing is known to exist but what has been written there.
-/

/-- Texts by the place of their file: a name, after the steps from the working
directory, or from the root, to the directory it is in. -/
structure Store where
  entries : List (String × String) := []
deriving DecidableEq, Inhabited

inductive Place where
  | directory (steps : String)
  | file (key : String)
deriving DecidableEq, Inhabited

namespace Store

def get? (store : Store) (key : String) : Option String :=
  store.entries.lookup key

def insert (store : Store) (key text : String) : Store :=
  ⟨(key, text) :: store.entries.filter (fun entry => entry.1 != key)⟩

def root : String :=
  "/"

def above (steps : String) : String :=
  if steps = root then root else steps ++ "../"

def follow (store : Store) (place : Place) (name : String) : Except AccessError Place :=
  match place with
  | .file _ => .error .notDirectory
  | .directory steps =>
      if name = "." then .ok (.directory steps)
      else if name = ".." then .ok (.directory (above steps))
      else if name.utf8ByteSize > Path.nameLimit then .error .nameTooLong
      else if (store.get? (steps ++ name)).isSome then .ok (.file (steps ++ name))
      else .error .noSuchFile

def walk (store : Store) (path : Path) (names : List String) : Except AccessError Place :=
  names.foldlM store.follow (.directory (if path.absolute then root else ""))

def read (store : Store) (text : String) : Except AccessError String := do
  let path ← Path.ofText text
  match ← store.walk path path.names with
  | .directory _ => .error .isDirectory
  | .file key =>
      if path.trailing then .error .notDirectory
      else match store.get? key with
        | some content => .ok content
        | none => .error .noSuchFile

/-- Writing creates the file that the last name of the path asks for. -/
def write (store : Store) (text content : String) : Except AccessError Store := do
  let path ← Path.ofText text
  match ← store.walk path path.names.dropLast, path.names.getLast? with
  | .file _, _ => .error .notDirectory
  | .directory _, none => .error .isDirectory
  | .directory steps, some name =>
      if path.trailing || name = "." || name = ".." then .error .isDirectory
      else if name.utf8ByteSize > Path.nameLimit then .error .nameTooLong
      else .ok (store.insert (steps ++ name) content)

def files : Files (StateM Store) where
  read path := return (← get).read path
  write path content := do
    match (← get).write path content with
    | .ok store => do
        set store
        return .ok ()
    | .error error => return .error error

end Store
end Command
end Desugar
