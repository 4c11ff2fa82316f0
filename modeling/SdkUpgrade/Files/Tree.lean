import SdkUpgrade.Cleaning
import SdkUpgrade.Files.Path
import SdkUpgrade.Text.Utf8

/-!
# Trees of files

A file tree maps places to files and directories; a place is the list of names on the way to it. A
path is followed name by name from the working directory or from the root, and every name on the
way must be that of a directory. Reading, writing and making directories fail as a system call
would, with the path that it was given.
-/

namespace SdkUpgrade

/-- The place of a file or directory: the names on the way to it from the root. -/
abbrev Location := List Text

/-- What stands at a place. -/
inductive FileNode where
  | file (bytes : Utf8.Bytes)
  | directory
  deriving DecidableEq, Repr

/-- Why an operation on files failed. -/
inductive FileFault where
  | notFound
  | alreadyExists
  | notDirectory
  | isDirectory
  | nameTooLong
  deriving DecidableEq, Repr

/-- A failed operation on files, with the path that it was given. -/
structure FileError where
  fault : FileFault
  path : Path
  deriving DecidableEq, Repr

/-- The number of a fault. -/
def FileFault.number : FileFault → Nat
  | notFound => 2
  | alreadyExists => 17
  | notDirectory => 20
  | isDirectory => 21
  | nameTooLong => 36

/-- The wording of a fault. -/
def FileFault.message : FileFault → Text
  | notFound => "No such file or directory"
  | alreadyExists => "File exists"
  | notDirectory => "Not a directory"
  | isDirectory => "Is a directory"
  | nameTooLong => "File name too long"

/-- The wording of a failed operation. -/
def FileError.message (error : FileError) : Text :=
  "[Errno " ++ Text.ofNat error.fault.number ++ "] " ++ error.fault.message ++ ": "
    ++ Text.quoted error.path.display

/-- The files and directories, with the place of the working directory. -/
structure FileTree where
  working : Location
  nodes : List (Location × FileNode)
  deriving DecidableEq, Repr

namespace FileTree

/-- What stands at a place. The way to a node or to the working directory leads through
directories.
-/
def find? (tree : FileTree) (location : Location) : Option FileNode :=
  match tree.nodes.lookup location with
  | some node => some node
  | none =>
      if location.isPrefixOf tree.working || tree.nodes.any (location.isPrefixOf ·.1) then
        some .directory
      else none

/-- Puts a node at a place. -/
def put (tree : FileTree) (location : Location) (node : FileNode) : FileTree :=
  let others := tree.nodes.filter fun entry => decide (entry.1 ≠ location)
  { tree with nodes := (location, node) :: others }

/-- The longest name that a file may have, in bytes. -/
def nameLimit : Nat := 255

/-- The longest path that can be followed, in bytes. -/
def pathLimit : Nat := 4095

/-- Follows names from a place on. Every name but the last must lead to a directory. -/
def follow (tree : FileTree) : Location → List Text → Except FileFault Location
  | location, [] => .ok location
  | location, name :: names =>
      match tree.find? location with
      | none => .error .notFound
      | some (.file _) => .error .notDirectory
      | some .directory =>
          if nameLimit < (Utf8.encode name).length then .error .nameTooLong
          else if name = Path.up then tree.follow location.dropLast names
          else tree.follow (location ++ [name]) names

/-- The place that a path leads to. -/
def resolve (tree : FileTree) (path : Path) : Except FileError Location :=
  let start := if path.root = .here then tree.working else []
  if pathLimit < (Utf8.encode path.display).length then .error ⟨.nameTooLong, path⟩
  else
    match tree.follow start path.parts with
    | .ok location => .ok location
    | .error fault => .error ⟨fault, path⟩

/-- The path leads to a directory. -/
def isDirectory (tree : FileTree) (path : Path) : Bool :=
  match tree.resolve path with
  | .ok location => decide (tree.find? location = some .directory)
  | .error _ => false

/-- The contents of the file that a path leads to. -/
def read (tree : FileTree) (path : Path) : Except FileError Utf8.Bytes := do
  let location ← tree.resolve path
  match tree.find? location with
  | some (.file bytes) => return bytes
  | some .directory => throw ⟨.isDirectory, path⟩
  | none => throw ⟨.notFound, path⟩

/-- Writes the file that a path leads to, whether it is there already or not. -/
def write (tree : FileTree) (path : Path) (bytes : Utf8.Bytes) : Except FileError FileTree := do
  let location ← tree.resolve path
  match tree.find? location with
  | some .directory => throw ⟨.isDirectory, path⟩
  | _ => return tree.put location (.file bytes)

/-- Makes the directory that a path leads to, where nothing may stand yet. -/
def makeDirectory (tree : FileTree) (path : Path) : Except FileError FileTree := do
  let location ← tree.resolve path
  match tree.find? location with
  | some _ => throw ⟨.alreadyExists, path⟩
  | none => return tree.put location .directory

/-- Makes the directory that a path leads to, unless it is there already. -/
def ensureDirectory (tree : FileTree) (path : Path) : Except FileError FileTree :=
  match tree.makeDirectory path with
  | .ok next => .ok next
  | .error error => if tree.isDirectory path then .ok tree else .error error

/-- Makes the directory of the given root and names, the last name first, after those that the way
to it leads through. The directories that were made stay even if a later one fails. -/
def ensureDirectoriesTo (root : PathRoot) : List Text → FileTree → FileTree × Option FileError
  | [], tree =>
      match tree.ensureDirectory ⟨root, []⟩ with
      | .ok next => (next, none)
      | .error error => (tree, some error)
  | name :: above, tree =>
      let path : Path := ⟨root, (name :: above).reverse⟩
      match tree.ensureDirectory path with
      | .ok next => (next, none)
      | .error error =>
          if error.fault = .notFound then
            match ensureDirectoriesTo root above tree with
            | (next, some error) => (next, some error)
            | (next, none) =>
                match next.ensureDirectory path with
                | .ok last => (last, none)
                | .error error => (next, some error)
          else (tree, some error)

/-- Makes the directory that a path leads to and those on the way to it. -/
def ensureDirectories (tree : FileTree) (path : Path) : FileTree × Option FileError :=
  ensureDirectoriesTo path.root path.parts.reverse tree

end FileTree

/-- Why no text could be read from a file. -/
inductive ReadError where
  | file (error : FileError)
  | encoding (failure : Utf8.Failure)
  deriving DecidableEq, Repr

/-- The text that bytes stand for, with line feeds for all line endings. -/
def textOfBytes (bytes : Utf8.Bytes) : Except Utf8.Failure Text :=
  (Utf8.decode bytes).map Cleaning.unifyLineEndings

/-- The text of the file that a path leads to. -/
def FileTree.readText (tree : FileTree) (path : Path) : Except ReadError Text :=
  match tree.read path with
  | .error error => .error (.file error)
  | .ok bytes =>
      match textOfBytes bytes with
      | .ok text => .ok text
      | .error failure => .error (.encoding failure)

end SdkUpgrade
