import SdkUpgrade.Engine
import SdkUpgrade.Value.Key

/-!
# Configurations

A configuration holds the settings of an engine. It is valid when its radius is not negative and
every disabled rule is a rule of the usual catalog, and exactly then it can be built.
-/

namespace SdkUpgrade

/-- The settings of a configuration. -/
inductive Field where
  | contextRadius
  | collapseWhitespace
  | disabledRules
  | trace
  deriving DecidableEq, Repr

namespace Field

/-- Every setting. -/
def all : List Field :=
  [contextRadius, collapseWhitespace, disabledRules, trace]

/-- The key of a setting in a file. -/
def key : Field → Text
  | contextRadius => "context_radius"
  | collapseWhitespace => "collapse_whitespace"
  | disabledRules => "disabled_rules"
  | trace => "trace"

/-- The environment variable of a setting. -/
def envName : Field → Text
  | contextRadius => "MODERNIZER_CONTEXT_RADIUS"
  | collapseWhitespace => "MODERNIZER_COLLAPSE_WHITESPACE"
  | disabledRules => "MODERNIZER_DISABLED_RULES"
  | trace => "MODERNIZER_TRACE"

end Field

/-- Why a configuration was refused. A label says where its settings came from. -/
inductive ConfigError where
  /-- The radius is negative. -/
  | negativeRadius
  /-- The usual catalog has no such rules. -/
  | unknownRules (ids : List Text)
  /-- There are settings with these keys and no meaning. -/
  | unsupportedKeys (label : Text) (keys : List Text)
  /-- The keys without meaning are not all texts, and cannot be listed. -/
  | unlistableKeys (fault : KeyFault)
  /-- The disabled rules are neither a list nor a text. -/
  | rulesNotListed (label : Text)
  /-- A value could not be read as a text. -/
  | unreadableValue (error : DisplayError)
  /-- The radius is not a natural number. -/
  | badRadius (label : Text)
  /-- The setting is not a flag. -/
  | badFlag (label : Text) (field : Field)
  /-- The variable is not an integer. -/
  | variableNotInteger (field : Field)
  /-- The variable is negative. -/
  | variableNegative (field : Field)
  /-- The variable is not a flag. -/
  | variableNotFlag (field : Field)
  deriving DecidableEq, Repr

namespace ConfigError

/-- The words that a flag may be given by, as messages name them. -/
def flagWords : Text :=
  "must be a boolean value (`true`/`false`, `1`/`0`, `yes`/`no`)."

/-- The wording of a refusal. -/
def message : ConfigError → Text
  | negativeRadius => "`context_radius` must be a non-negative integer."
  | unknownRules ids =>
      "`disabled_rules` includes unknown rule id(s): " ++ Text.enumeration ids ++ "."
  | unsupportedKeys label keys =>
      label ++ " includes unsupported key(s): " ++ Text.enumeration keys ++ "."
  | unlistableKeys fault => fault.message
  | rulesNotListed label =>
      label ++ " field `disabled_rules` must be a list or comma-separated string."
  | unreadableValue error => error.message
  | badRadius label => label ++ " field `context_radius` must be a non-negative integer."
  | badFlag label field => label ++ " field `" ++ field.key ++ "` " ++ flagWords
  | variableNotInteger field =>
      "Environment variable `" ++ field.envName ++ "` must be an integer."
  | variableNegative field =>
      "Environment variable `" ++ field.envName ++ "` must be non-negative."
  | variableNotFlag field => "Environment variable `" ++ field.envName ++ "` " ++ flagWords

end ConfigError

/-- The settings of an engine, and whether its edits are reported. -/
structure Config where
  radius : Option Int := none
  collapse : Bool := false
  disabled : List Text := []
  trace : Bool := false
  deriving DecidableEq, Repr

/-- New values for some settings. -/
structure Overrides where
  radius : Option Int := none
  collapse : Option Bool := none
  disabled : Option (List Text) := none
  trace : Option Bool := none
  deriving DecidableEq, Repr

/-- Why no engine could be built. -/
inductive BuildError where
  | catalog (error : CatalogError)
  | radius (error : RadiusError)
  deriving DecidableEq, Repr

/-- The wording of why no engine could be built. -/
def BuildError.message : BuildError → Text
  | catalog error => error.message
  | radius error => error.message

namespace Config

/-- The configuration itself, if it is valid. -/
def validate (config : Config) : Except ConfigError Config :=
  if config.radius.any (· < 0) then .error .negativeRadius
  else
    match Text.unknownAmong Catalog.standard.ids config.disabled with
    | [] => .ok config
    | ids => .error (.unknownRules ids)

/-- The configuration with new values for some settings, valid or not. -/
def override (config : Config) (overrides : Overrides) : Config :=
  { radius := overrides.radius.or config.radius
    collapse := overrides.collapse.getD config.collapse
    disabled := overrides.disabled.getD config.disabled
    trace := overrides.trace.getD config.trace }

/-- The configuration with new values for some settings, if that is valid. -/
def withOverrides (config : Config) (overrides : Overrides) : Except ConfigError Config :=
  (config.override overrides).validate

/-- The engine with these settings. -/
def engine (config : Config) : Except BuildError Engine :=
  match Catalog.standard.without config.disabled with
  | .error error => .error (.catalog error)
  | .ok catalog =>
      match radiusOfInt? config.radius with
      | .error error => .error (.radius error)
      | .ok radius => .ok ⟨catalog, radius, config.collapse⟩

end Config

end SdkUpgrade
