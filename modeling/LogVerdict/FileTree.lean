import LogVerdict.Outcome
/-!
# FileTree — a tree of files in memory

A tree holds files, directories, symbolic links and devices.  A path is looked up name by name from the working directory or the
root: what stands before a further name has to be a directory, links are followed up to a limit, and the first name at
which the look-up fails decides the failure (`FileTree.walk`).  So a check can be made without a disk.
-/
namespace LogVerdict

abbrev Location := List String

/-- What can stand at a place.  A sink is a device: it is always empty, and it keeps nothing of what is written to
it. -/
inductive Entry
  | file (bytes : List UInt8)
  | directory
  | link (target : String)
  | sink
  deriving DecidableEq, Repr

inductive LookupError
  | invalidPath
  | noEntry
  | notDirectory
  | isDirectory
  | tooManyLinks
  | nameTooLong
  deriving DecidableEq, Repr

def LookupError.code : LookupError → String
  | invalidPath => "ERR_INVALID_ARG_VALUE"
  | noEntry => "ENOENT"
  | notDirectory => "ENOTDIR"
  | isDirectory => "EISDIR"
  | tooManyLinks => "ELOOP"
  | nameTooLong => "ENAMETOOLONG"

/-- The entries below the root, which is a directory itself, and the directory that paths start from. -/
structure FileTree where
  entries : List (Location × Entry)
  workingDirectory : Location

inductive Arrival
  | found (location : Location)
  | absent (directory : Location) (name : String) (rest : List String)
  deriving DecidableEq, Repr

namespace FileTree

def maxLinks : Nat := 40

def maxName : Nat := 255

def maxPath : Nat := 4095

def entryAt (tree : FileTree) (location : Location) : Option Entry :=
  if location = [] then some .directory else tree.entries.lookup location

/-- The names of a path.  A slash at either end or two in a row make an empty name, which stays where it is. -/
def names (path : String) : List String := path.splitOn "/"

def startOf (directory : Location) (path : String) : Location := if path.startsWith "/" then [] else directory

/-- Follows names from a place that exists, with so many links still to be followed. -/
def walk (tree : FileTree) (links : Nat) (here : Location) (todo : List String) : Except LookupError Arrival :=
  match todo with
  | [] => .ok (.found here)
  | name :: rest =>
    if tree.entryAt here ≠ some .directory then .error .notDirectory
    else if name = "" ∨ name = "." then tree.walk links here rest
    else if name = ".." then tree.walk links here.dropLast rest
    else if maxName < name.utf8ByteSize then .error .nameTooLong
    else
      match tree.entryAt (here ++ [name]) with
      | none => .ok (.absent here name rest)
      | some (.link target) =>
        match links with
        | 0 => .error .tooManyLinks
        | links + 1 => tree.walk links (startOf here target) (names target ++ rest)
      | some _ => tree.walk links (here ++ [name]) rest
termination_by (links, todo.length)

def follow (tree : FileTree) (path : String) : Except LookupError Arrival :=
  if '\x00' ∈ path.toList then .error .invalidPath
  else if path = "" then .error .noEntry
  else if maxPath < path.utf8ByteSize then .error .nameTooLong
  else tree.walk maxLinks (startOf tree.workingDirectory path) (names path)

def fileAt (tree : FileTree) (path : String) : Except LookupError (List UInt8) := do
  match ← tree.follow path with
  | .absent .. => .error .noEntry
  | .found location =>
    match tree.entryAt location with
    | some (.file bytes) => .ok bytes
    | some .sink => .ok []
    | some .directory => .error .isDirectory
    | _ => .error .noEntry

def read (tree : FileTree) (path : String) : Reading := (tree.fileAt path).mapError (·.code)

def set (tree : FileTree) (location : Location) (entry : Entry) : FileTree :=
  { tree with entries := (location, entry) :: tree.entries.filter (·.1 ≠ location) }

/-- Goes to a directory by name, and makes it if it is not there. -/
def enter (tree : FileTree) (here : Location) (name : String) : Except LookupError (FileTree × Location) := do
  match ← tree.walk maxLinks here [name] with
  | .found location => .ok (tree, location)
  | .absent directory name [] => .ok (tree.set (directory ++ [name]) .directory, directory ++ [name])
  | .absent .. => .error .noEntry

def enterAll (tree : FileTree) (here : Location) : List String → Except LookupError (FileTree × Location)
  | [] => .ok (tree, here)
  | name :: rest => do
    let (tree, here) ← tree.enter here name
    tree.enterAll here rest

/-- The directory that a path's last name stands in, made where it is missing, and that name. -/
def parent (tree : FileTree) (path : String) : Except LookupError (FileTree × Location × String) := do
  let all := (names path).filter (· ≠ "")
  let (tree, directory) ← tree.enterAll (startOf tree.workingDirectory path) all.dropLast
  return (tree, directory, all.getLastD ".")

def makeDirectory (tree : FileTree) (path : String) : Except LookupError FileTree := do
  let (tree, _) ← tree.enterAll (startOf tree.workingDirectory path) (names path)
  return tree

def makeLink (tree : FileTree) (path target : String) : Except LookupError FileTree := do
  let (tree, directory, name) ← tree.parent path
  return tree.set (directory ++ [name]) (.link target)

/-- Changes the bytes of a file, which is an empty one before if it is not there.  A link is followed, and a sink stays
as it is. -/
def modify (tree : FileTree) (path : String) (f : List UInt8 → List UInt8) : Except LookupError FileTree := do
  let (tree, directory, name) ← tree.parent path
  match ← tree.walk maxLinks directory [name] with
  | .absent directory name [] => .ok (tree.set (directory ++ [name]) (.file (f [])))
  | .absent .. => .error .noEntry
  | .found location =>
    match tree.entryAt location with
    | some (.file bytes) => .ok (tree.set location (.file (f bytes)))
    | some .sink => .ok tree
    | _ => .error .isDirectory

def write (tree : FileTree) (path : String) (bytes : List UInt8) : Except LookupError FileTree :=
  tree.modify path fun _ => bytes

def append (tree : FileTree) (path : String) (bytes : List UInt8) : Except LookupError FileTree :=
  tree.modify path (· ++ bytes)

def truncate (tree : FileTree) (path : String) (size : Nat) : Except LookupError FileTree :=
  tree.modify path fun bytes => bytes.take size ++ List.replicate (size - bytes.length) 0

def removeAt (tree : FileTree) (location : Location) : FileTree :=
  { tree with entries := tree.entries.filter fun e => !location.isPrefixOf e.1 }

/-- Removes a file, a link or a directory with all that is in it.  A link is not followed. -/
def remove (tree : FileTree) (path : String) : Except LookupError FileTree := do
  let (tree, directory, name) ← tree.parent path
  return tree.removeAt (directory ++ [name])

def moved (source target location : Location) : Location :=
  if source.isPrefixOf location then target ++ location.drop source.length else location

/-- Moves a file, a link or a directory with all that is in it, in the place of what was there. -/
def rename (tree : FileTree) (path newPath : String) : Except LookupError FileTree := do
  let (tree, directory, name) ← tree.parent path
  let (tree, directory', name') ← tree.parent newPath
  let source := directory ++ [name]
  let target := directory' ++ [name']
  if source = target then return tree
  let tree := tree.removeAt target
  return { tree with entries := tree.entries.map fun e => (moved source target e.1, e.2) }

/-- A tree with the usual directories, the null device, a standard input that is empty, and an empty working
directory. -/
def initial : FileTree :=
  let directories : List Location :=
    [["bin"], ["dev"], ["etc"], ["home"], ["lib"], ["opt"], ["proc"], ["root"], ["run"], ["sbin"], ["sys"], ["tmp"],
     ["usr"], ["usr", "bin"], ["usr", "lib"], ["usr", "local"], ["var"], ["var", "log"], ["var", "tmp"],
     ["tmp", "work"]]
  ⟨(["dev", "null"], .sink) :: (["dev", "stdin"], .sink) :: directories.map (·, .directory), ["tmp", "work"]⟩

end FileTree
end LogVerdict
