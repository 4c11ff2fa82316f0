import SdkUpgrade.Command.Arguments
import SdkUpgrade.Command.Listing
import SdkUpgrade.Config.File
import SdkUpgrade.Log.Sinks

/-!
# Running a command

A command runs on a file tree and a standard input, and ends with an exit code, two streams of
output and the file tree it leaves. An upgrade loads its configuration, reads its input, runs the
engine and prints or writes the result. It fails at the first of these that fails, with nothing
printed to standard output.

The host of a run decides what the bytes of the standard input say and which texts its streams
take. A host may let undecodable bytes pass and have no bytes for them later, so that a file is
opened for a result that cannot be encoded.
-/

namespace SdkUpgrade

/-- A failure of the host, with the name of its type. -/
structure Fault where
  type : Text
  message : Text
  deriving DecidableEq, Repr

/-- What a run leaves to the system that it runs on. -/
class Host extends Yaml.Parser where
  /-- The text that is read from the standard input. -/
  reading : Utf8.Bytes → Except Fault Text
  /-- The fault of a text that the standard output does not take. -/
  printing : Text → Option Fault
  /-- The fault of a text that cannot be encoded for a file. -/
  writing : Text → Option Fault

/-- A host with the given parser that reads its standard input as it reads a file, and whose
streams and files take every text. -/
abbrev Host.ofParser (parser : Yaml.Parser) : Host where
  toParser := parser
  reading stdin :=
    match textOfBytes stdin with
    | .ok text => .ok text
    | .error failure => .error ⟨"UnicodeDecodeError", failure.message⟩
  printing _ := none
  writing _ := none

namespace Command

/-- How a command ended. -/
structure Outcome where
  exitCode : Nat
  stdout : Text
  stderr : Text
  files : FileTree
  deriving DecidableEq, Repr

/-- A failure at a known stage, with advice if there is any. -/
structure StageFailure where
  stage : Text
  detail : Text
  hint : Option Text
  deriving DecidableEq, Repr

/-- Why an upgrade failed. -/
inductive Failure where
  | stage (failure : StageFailure)
  | other (message : Text)
  deriving DecidableEq, Repr

/-- What is printed about a failure at a known stage. -/
def StageFailure.report (failure : StageFailure) : Text :=
  let hint : Text :=
    match failure.hint with
    | some hint => Listing.line ("Hint: " ++ hint)
    | none => []
  Listing.line ("normalize failed at stage `" ++ failure.stage ++ "`: " ++ failure.detail) ++ hint

/-- What is printed about a failure. -/
def Failure.report : Failure → Text
  | stage failure => failure.report
  | other message => Listing.line ("normalize failed: " ++ message)

/-- The name under which a failure at a known stage is logged. -/
def stageFailureType : Text := "CommandStageError"

variable [Host]

/-- The configuration in a file, or the usual one if no file is given. -/
def loadConfig (files : FileTree) : Option Path → Except Failure Config
  | none => .ok {}
  | some path =>
      match files.config path with
      | .ok config => .ok config
      | .error (.unreadable (.file ⟨.notFound, _⟩)) =>
          .error (.stage ⟨"config", "Config file not found: `" ++ path.display ++ "`.",
            some "Provide an existing path via `--config <path.yaml>`."⟩)
      | .error error =>
          if error.isInvalid then
            .error (.stage ⟨"config",
              "Invalid config file `" ++ path.display ++ "`: " ++ error.message,
              some "Fix config schema/values and rerun."⟩)
          else .error (.other error.message)

/-- The settings that the options of an upgrade ask for. Rules that are disabled already are not
added again. -/
def UpgradeOptions.overrides (options : UpgradeOptions) (base : Config) : Overrides :=
  { radius := options.radius.map Int.ofNat
    collapse := options.collapse
    disabled :=
      some (base.disabled ++ options.disabled.filter fun id => decide (id ∉ base.disabled))
    trace := options.trace }

/-- The configuration of an upgrade. -/
def upgradeConfig (files : FileTree) (options : UpgradeOptions) : Except Failure Config := do
  let base ← loadConfig files options.config
  match base.withOverrides (UpgradeOptions.overrides options base) with
  | .ok config => return config
  | .error error =>
      throw (.stage ⟨"config", error.message,
        some "Run `modernizer rules` to list valid rule ids."⟩)

/-- The file that is read. A hyphen stands for the standard input. -/
def inputFile? (input : Option Path) : Option Path :=
  input.filter fun path => decide (path.display ≠ "-".toList)

/-- The text to upgrade: from a file, or from the standard input if no file is given. -/
def readInput (files : FileTree) (stdin : Utf8.Bytes) (input : Option Path) :
    Except Failure Text :=
  match inputFile? input with
  | none =>
      match Host.reading stdin with
      | .ok text => .ok text
      | .error fault => .error (.other fault.message)
  | some path =>
      match files.readText path with
      | .ok text => .ok text
      | .error (.encoding _) =>
          .error (.stage ⟨"read-input",
            "Input file `" ++ path.display ++ "` is not valid UTF-8 text.", none⟩)
      | .error (.file error) =>
          if error.fault = .notFound then
            .error (.stage ⟨"read-input", "Input file not found: `" ++ path.display ++ "`.",
              some "Pass an existing file path, or pipe text through stdin."⟩)
          else .error (.other error.message)

/-- Why a result reached neither the standard output nor a file. -/
inductive OutputError where
  /-- No file could be opened at the path. -/
  | file (path : Path) (error : FileError)
  /-- The text could not be encoded. -/
  | encoding (fault : Fault)
  deriving DecidableEq, Repr

/-- The name under which a lost result is logged. -/
def OutputError.type : OutputError → Text
  | file _ _ => stageFailureType
  | encoding fault => fault.type

/-- The failure of an upgrade whose result was lost. Only a file that could not be
opened belongs to a stage. -/
def OutputError.failure : OutputError → Failure
  | file path error =>
      .stage ⟨"write-output", "Failed to write output file `" ++ path.display ++ "`: "
        ++ error.message, some "Verify the output directory is writable."⟩
  | encoding fault => .other fault.message

/-- The bytes that a text leaves in a file that was opened for it: none if it cannot be
encoded. -/
def written (text : Text) : Utf8.Bytes :=
  match Host.writing text with
  | none => Utf8.encode text
  | some _ => []

/-- Writes the result to a file, whose directories are made first. The file is opened before the
result is encoded. -/
def writeFile (files : FileTree) (path : Path) (text : Text) : FileTree × Option OutputError :=
  match files.ensureDirectories path.parent with
  | (files, some error) => (files, some (.file path error))
  | (files, none) =>
      match files.write path (written text) with
      | .ok next => (next, (Host.writing text).map .encoding)
      | .error error => (files, some (.file path error))

/-- Prints the result. -/
def print (text : Text) : Text × Option OutputError :=
  match Host.printing (Listing.printed text) with
  | none => (Listing.printed text, none)
  | some fault => ([], some (.encoding fault))

/-- Writes the result to its file, or prints it if there is none: what is printed, the files
afterwards, and what went wrong. -/
def deliver (files : FileTree) (text : Text) : Option Path → Text × FileTree × Option OutputError
  | none => ((print text).1, files, (print text).2)
  | some path => ([], writeFile files path text)

/-- The log of an upgrade, and the number of its logger if the upgrade is traced. All handlers are
detached before the logger is opened, so that no line reaches the standard error stream twice. -/
def openLog (config : Config) : Log.State × Option Nat :=
  if config.trace then ((Log.State.attach (Log.State.detach {}) .console "INFO").1, some 0)
  else ({}, none)

/-- What a traced upgrade reports at its end. -/
def traced (config : Config) (result : Result) : Text :=
  if config.trace then Listing.edits result else []

/-- The stage under which an upgrade is logged. -/
def upgradeStage : Text := "normalize"

/-- An upgrade is complete, after a number of edits. -/
def upgradeComplete (result : Result) : Log.Event :=
  .complete upgradeStage [("rewrites", .scalar (.int result.edits.length))]

/-- The run of an upgrade's engine, with its log: the beginning, the rules that made edits, and
the end of the stage. -/
def runEngine (config : Config) (engine : Engine) (source : Text) :
    Log.State × Option Nat × Result :=
  let (log, logger) := openLog config
  let (log, result) := (log.report logger (.start upgradeStage)).upgrade logger engine source
  (log.report logger (upgradeComplete result), logger, result)

/-- The end of an upgrade: its result is printed or written. -/
def finish (files : FileTree) (out : Option Path) (config : Config) (engine : Engine)
    (source : Text) : Outcome :=
  let (log, logger, result) := runEngine config engine source
  match deliver files result.text out with
  | (printed, next, none) => ⟨0, printed, log.text .console ++ traced config result, next⟩
  | (printed, next, some error) =>
      let log := log.report logger (.failure upgradeStage error.type)
      ⟨1, printed, log.text .console ++ error.failure.report, next⟩

/-- What an upgrade works with: its configuration, its engine and its source. -/
def prepare (files : FileTree) (stdin : Utf8.Bytes) (options : UpgradeOptions) :
    Except Failure (Config × Engine × Text) := do
  let config ← upgradeConfig files options
  let source ← readInput files stdin options.input
  match config.engine with
  | .ok engine => return (config, engine, source)
  | .error error => throw (.other error.message)

/-- Runs an upgrade. -/
def runUpgrade (files : FileTree) (stdin : Utf8.Bytes) (options : UpgradeOptions) : Outcome :=
  match prepare files stdin options with
  | .ok (config, engine, source) => finish files options.out config engine source
  | .error failure => ⟨1, [], failure.report, files⟩

/-- Runs a command. -/
def run (files : FileTree) (stdin : Utf8.Bytes) : Command → Outcome
  | upgrade options => runUpgrade files stdin options
  | listRules => ⟨0, Listing.rules Catalog.standard, [], files⟩
  | listModels => ⟨0, Listing.models, [], files⟩

end Command

end SdkUpgrade
