import SdkUpgrade.Text.Basic

/-!
# Paths of files

A path is a sequence of names behind an optional root. Repeated slashes and dots for the directory
itself leave no trace in it; two dots for the parent directory are kept. Exactly two slashes at
the beginning are a root of their own.
-/

namespace SdkUpgrade

/-- Where a path begins. -/
inductive PathRoot where
  | here
  | slash
  | doubleSlash
  deriving DecidableEq, Repr

/-- A path. -/
structure Path where
  root : PathRoot
  parts : List Text
  deriving DecidableEq, Repr

namespace Path

/-- The name of the parent directory. -/
def up : Text := ".."

/-- The names between the slashes of a text. -/
def names (text : Text) : List Text :=
  (Text.split '/' text).filter fun part => decide (part ≠ [] ∧ part ≠ ['.'])

/-- The path that a text stands for. -/
def ofText (text : Text) : Path :=
  let root : PathRoot :=
    match text with
    | '/' :: '/' :: '/' :: _ => .slash
    | '/' :: '/' :: _ => .doubleSlash
    | '/' :: _ => .slash
    | _ => .here
  ⟨root, names text⟩

/-- The path as it is shown. -/
def display (path : Path) : Text :=
  let names := Text.join "/" path.parts
  match path.root with
  | .here => if path.parts = [] then "." else names
  | .slash => "/" ++ names
  | .doubleSlash => "//" ++ names

/-- The path without its last name. -/
def parent (path : Path) : Path :=
  { path with parts := path.parts.dropLast }

end Path

end SdkUpgrade
