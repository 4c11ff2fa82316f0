import SdkUpgrade.Config.Load
import SdkUpgrade.Files.Tree
import SdkUpgrade.Yaml.Error

/-!
# Configurations from files

A configuration file is a YAML text whose document is a mapping. An empty file stands for the
usual settings. How a YAML text is parsed is left open here.
-/

namespace SdkUpgrade

/-- A parser of YAML texts. -/
class Yaml.Parser where
  /-- The value of a text, or why it has none. -/
  value : Text → Except Yaml.Error Value

/-- Why a file gave no configuration. -/
inductive ConfigFileError where
  /-- The file could not be read. -/
  | unreadable (error : ReadError)
  /-- The text has no value. -/
  | yaml (path : Path) (error : Yaml.Error)
  /-- The document is not a mapping. -/
  | notMapping (path : Path)
  /-- The settings were refused. -/
  | settings (error : ConfigError)
  deriving DecidableEq, Repr

/-- The wording of why a file gave no configuration. -/
def ConfigFileError.message : ConfigFileError → Text
  | unreadable (.file error) => error.message
  | unreadable (.encoding failure) => failure.message
  | yaml path .malformed => "YAML config `" ++ path.display ++ "` is not valid YAML"
  | yaml _ error => error.message
  | notMapping path =>
      "YAML config `" ++ path.display ++ "` must contain a top-level mapping/object."
  | settings error => error.message

/-- What the file says is at fault, and not the way to it. -/
def ConfigFileError.isInvalid : ConfigFileError → Bool
  | unreadable (.file _) => false
  | yaml _ error => !error.isLimit
  | settings (.unlistableKeys _) => false
  | _ => true

variable [Yaml.Parser]

/-- The settings in a text. -/
def settingsOfYaml (path : Path) (text : Text) : Except ConfigFileError Settings :=
  match Yaml.Parser.value text with
  | .error error => .error (.yaml path error)
  | .ok (.scalar .null) => .ok []
  | .ok (.map entries) => .ok entries
  | .ok _ => .error (.notMapping path)

/-- The configuration in the file that a path leads to. -/
def FileTree.config (tree : FileTree) (path : Path) : Except ConfigFileError Config :=
  match tree.readText path with
  | .error error => .error (.unreadable error)
  | .ok text =>
      match settingsOfYaml path text with
      | .error error => .error error
      | .ok settings =>
          match settings.config ("YAML `" ++ path.display ++ "`") with
          | .ok config => .ok config
          | .error error => .error (.settings error)

end SdkUpgrade
