import SdkUpgrade.Command.Run
import SdkUpgrade.Intent
import SdkUpgrade.Yaml.Document

/-!
# What reaches the program from outside

A caller that only has a value may still ask for a text to work on, or for an intent by its name.
The host of the program parses YAML texts.
-/

namespace SdkUpgrade

/-- Why a value was refused. -/
inductive InputError where
  /-- The value to work on is not a text. -/
  | notText (value : Value)
  /-- The value names no intent. -/
  | notIntent (value : Value)

/-- The wording of a refusal. -/
def InputError.message : InputError → Text
  | notText value => "normalize() expects str input, got " ++ value.typeName ++ "."
  | notIntent value => value.literal ++ " is not a valid Intent"

namespace Value

/-- The text to work on. -/
def toText : Value → Except InputError Text
  | scalar (.text t) => .ok t
  | value => .error (.notText value)

/-- The intent that a value names. -/
def toIntent (value : Value) : Except InputError Intent :=
  match value with
  | scalar (.text name) =>
      match Intent.ofName? name with
      | some intent => .ok intent
      | none => .error (.notIntent value)
  | _ => .error (.notIntent value)

end Value

instance : Host :=
  .ofParser ⟨Yaml.value⟩

end SdkUpgrade
