import SdkUpgrade.Config.Basic
import SdkUpgrade.Text.Setting

/-!
# Configurations from settings and from the environment

Settings from a file are values under the keys of the fields. Variables of the environment are
texts, and a blank variable counts as missing. Either way a configuration that is read is valid.
-/

namespace SdkUpgrade

/-- Settings by key, as a file or a caller gives them. -/
abbrev Settings := List (Scalar × Value)

namespace Settings

/-- The value of a setting. -/
def get? (settings : Settings) (field : Field) : Option Value :=
  settings.lookup (.text field.key)

/-- The keys that belong to no field. -/
def strangeKeys (settings : Settings) : List Scalar :=
  (settings.map Prod.fst).filter fun key => decide (key ∉ Field.all.map fun f => .text f.key)

/-- A scalar as a key, if it is a text. -/
def keyText? : Scalar → Option Text
  | .text t => some t
  | _ => none

/-- Only the keys of the fields may occur. -/
def checkKeys (label : Text) (settings : Settings) : Except ConfigError Unit :=
  match settings.strangeKeys with
  | [] => .ok ()
  | first :: others =>
      match (first :: others).mapM keyText? with
      | some keys => .error (.unsupportedKeys label (Text.sorted keys))
      | none => .error (.unlistableKeys (.ofKeys first others))

/-- What was read from a value, which must have been readable. -/
def readable {α : Type} (result : Except DisplayError α) : Except ConfigError α :=
  result.mapError .unreadableValue

/-- The value that the disabled rules are read from: a list, a text, or nothing. -/
def rules (label : Text) (settings : Settings) : Except ConfigError Value :=
  match settings.get? .disabledRules with
  | none => .ok (.scalar .null)
  | some value =>
      match value with
      | .scalar .null | .scalar (.text _) | .list _ => .ok value
      | _ => .error (.rulesNotListed label)

/-- The radius: a natural number, or a text that stands for one. Without it, or if it is blank,
there is none. -/
def radius (label : Text) (settings : Settings) : Except ConfigError (Option Int) :=
  match settings.get? .contextRadius with
  | none => .ok none
  | some (.scalar (.bool _)) => .error (.badRadius label)
  | some (.scalar (.int n)) => if n < 0 then .error (.badRadius label) else .ok (some n)
  | some value => do
      match ← readable value.trimmed with
      | none => return none
      | some text =>
          match Text.integer? text with
          | some n => if n < 0 then throw (.badRadius label) else return some n
          | none => throw (.badRadius label)

/-- A flag, which is not set if it is missing. -/
def flag (label : Text) (settings : Settings) (field : Field) : Except ConfigError Bool :=
  match settings.get? field with
  | none => .ok false
  | some value => do
      match ← readable value.flag with
      | some b => return b
      | none => throw (.badFlag label field)

/-- The configuration with the given settings. -/
def config (label : Text) (settings : Settings) : Except ConfigError Config := do
  settings.checkKeys label
  let rules ← settings.rules label
  let radius ← settings.radius label
  let collapse ← settings.flag label .collapseWhitespace
  let disabled ← readable rules.names
  let trace ← settings.flag label .trace
  Config.validate ⟨radius, collapse, disabled, trace⟩

end Settings

/-- The variables of an environment. -/
abbrev Environment := List (Text × Text)

namespace Environment

/-- The value of a variable, a blank one counting as missing. -/
def get? (env : Environment) (field : Field) : Option Text :=
  (env.lookup field.envName).bind Text.trimmed?

/-- The radius that a variable gives. -/
def radius (env : Environment) : Except ConfigError (Option Int) :=
  match env.get? .contextRadius with
  | none => .ok none
  | some text =>
      match Text.integer? text with
      | none => .error (.variableNotInteger .contextRadius)
      | some n => if n < 0 then .error (.variableNegative .contextRadius) else .ok (some n)

/-- The flag that a variable gives. -/
def flag (env : Environment) (field : Field) : Except ConfigError Bool :=
  match env.get? field with
  | none => .ok false
  | some text =>
      match Text.flagOfWord? text with
      | some b => .ok b
      | none => .error (.variableNotFlag field)

/-- The rules that a variable disables. -/
def rules (env : Environment) : List Text :=
  match env.lookup (Field.envName .disabledRules) with
  | none => []
  | some text => Text.names text

/-- The configuration that the environment gives. -/
def config (env : Environment) : Except ConfigError Config := do
  let radius ← env.radius
  let collapse ← env.flag .collapseWhitespace
  let trace ← env.flag .trace
  Config.validate ⟨radius, collapse, env.rules, trace⟩

end Environment

end SdkUpgrade
