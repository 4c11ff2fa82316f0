import SdkUpgrade.Input

/-!
# The program

The program looks up the files that its arguments name, runs its command on what it found, writes
the files that the command left new or changed, and prints what the command printed. A misused
command line ends with exit code 2.
-/

namespace SdkUpgrade

namespace Program

/-- The paths that a command may read or write. -/
def paths : Command → List Path
  | .upgrade options => [options.config, options.input, options.out].filterMap id
  | _ => []

/-- The command reads its standard input. -/
def readsInput : Command → Bool
  | .upgrade options => options.input.all fun path => decide (path.display = "-".toList)
  | _ => false

/-- A place as the system names it. -/
def systemName (location : Location) : String :=
  String.ofList ("/" ++ Text.join "/" location)

/-- What stands at a place. -/
def look (location : Location) : IO (Option FileNode) := do
  try
    let bytes ← IO.FS.readBinFile (systemName location)
    return some (.file bytes.toList)
  catch error =>
    match error with
    | .inappropriateType .. => return some .directory
    | _ => return none

/-- What stands at the places on the way that some names lead, as far as it leads. -/
def survey (location : Location) : List Text → IO (List (Location × FileNode))
  | [] => return []
  | name :: names => do
      let next := if name = Path.up then location.dropLast else location ++ [name]
      match ← look next with
      | some .directory => return (next, .directory) :: (← survey next names)
      | some node => return [(next, node)]
      | none => return []

/-- The working directory and what stands at the places that some paths lead through. -/
def surveyAll (paths : List Path) : IO FileTree := do
  let working := Path.names (← IO.currentDir).toString.toList
  let nodes ← paths.mapM fun path =>
    survey (if path.root = .here then working else []) path.parts
  return ⟨working, nodes.flatten⟩

/-- Everything that is left of a stream. -/
partial def readAll (stream : IO.FS.Stream) (sofar : ByteArray) : IO ByteArray := do
  let chunk ← stream.read 65536
  if chunk.isEmpty then return sofar else readAll stream (sofar ++ chunk)

/-- Makes the nodes of one tree that another one does not have, directories first. -/
def realise (before after : FileTree) : IO Unit := do
  let fresh := after.nodes.filter fun (location, node) =>
    decide (before.nodes.lookup location ≠ some node)
  for (location, node) in fresh do
    if node = .directory then IO.FS.createDirAll (systemName location)
  for (location, node) in fresh do
    match node with
    | .file bytes => IO.FS.writeBinFile (systemName location) ⟨bytes.toArray⟩
    | .directory => pure ()

end Program

end SdkUpgrade

open SdkUpgrade in
/-- Runs the command that the arguments ask for. -/
def main (arguments : List String) : IO UInt32 := do
  match Command.parse? (arguments.map String.toList) with
  | none =>
      (← IO.getStderr).putStrLn "Usage: normalize [OPTIONS] [INPUT] | rules | models"
      return 2
  | some command =>
      let files ← Program.surveyAll (Program.paths command)
      let stdin ← if Program.readsInput command then
          Program.readAll (← IO.getStdin) .empty
        else pure .empty
      let outcome := Command.run files stdin.toList command
      Program.realise files outcome.files
      (← IO.getStdout).putStr (String.ofList outcome.stdout)
      (← IO.getStderr).putStr (String.ofList outcome.stderr)
      return outcome.exitCode.toUInt32
