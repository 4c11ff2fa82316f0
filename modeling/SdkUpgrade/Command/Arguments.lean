import SdkUpgrade.Files.Path
import SdkUpgrade.Text.Setting

/-!
# Arguments of the command line

The program has three commands. Options begin with two hyphens and take their value from
behind an equals sign or from the next argument, whatever that is; behind two hyphens alone
no more options follow. Of an option that is given twice the last value counts, except that
rules to disable add up.
-/

namespace SdkUpgrade

/-- The arguments of the command that upgrades a text. -/
structure UpgradeOptions where
  input : Option Path := none
  out : Option Path := none
  config : Option Path := none
  trace : Option Bool := none
  collapse : Option Bool := none
  radius : Option Nat := none
  disabled : List Text := []
  deriving DecidableEq, Repr

/-- What the program is asked to do. -/
inductive Command where
  | upgrade (options : UpgradeOptions)
  | listRules
  | listModels
  deriving DecidableEq, Repr

namespace Command

/-- The options and arguments of a command line, as they are given. -/
structure Given where
  arguments : List Text := []
  out : Option Text := none
  config : Option Text := none
  trace : Option Bool := none
  collapse : Option Bool := none
  radius : Option Text := none
  disabled : List Text := []

/-- Takes in an option without a value, if there is one of that name. -/
def Given.setFlag? (given : Given) (name : Text) : Option Given :=
  if name = "--trace".toList then some { given with trace := some true }
  else if name = "--no-trace".toList then some { given with trace := some false }
  else if name = "--collapse-whitespace".toList then some { given with collapse := some true }
  else if name = "--keep-whitespace".toList then some { given with collapse := some false }
  else none

/-- Takes in an option with its value, if there is one of that name. -/
def Given.setValue? (given : Given) (name value : Text) : Option Given :=
  if name = "--out".toList then some { given with out := some value }
  else if name = "--config".toList then some { given with config := some value }
  else if name = "--context-radius".toList then some { given with radius := some value }
  else if name = "--disable-rule".toList then
    some { given with disabled := given.disabled ++ [value] }
  else none

/-- An option rather than an argument: a hyphen and more. -/
def isOption : Text → Bool
  | '-' :: _ :: _ => true
  | _ => false

/-- The name of an option, and its value if one follows an equals sign. -/
def splitOption (argument : Text) : Text × Option Text :=
  match argument.dropWhile (· ≠ '=') with
  | _ :: value => (argument.takeWhile (· ≠ '='), some value)
  | [] => (argument, none)

/-- Takes in the words of a command line. -/
def Given.read : Given → List Text → Option Given
  | given, [] => some given
  | given, word :: words =>
      if word = "--".toList then some { given with arguments := given.arguments ++ words }
      else if isOption word then
        match splitOption word with
        | (name, some value) =>
            match given.setValue? name value with
            | some next => next.read words
            | none => none
        | (name, none) =>
            match given.setFlag? name with
            | some next => next.read words
            | none =>
                match words with
                | value :: rest =>
                    match given.setValue? name value with
                    | some next => next.read rest
                    | none => none
                | [] => none
      else ({ given with arguments := given.arguments ++ [word] } : Given).read words

/-- The radius that a text stands for, which may not be negative. -/
def radius? (text : Text) : Option Nat :=
  match Text.integer? text with
  | some n => if n < 0 then none else some n.toNat
  | none => none

/-- The upgrade that is asked for. It takes at most one argument. -/
def Given.upgrade? (given : Given) : Option UpgradeOptions :=
  let radius : Option (Option Nat) :=
    match given.radius with
    | none => some none
    | some text => (radius? text).map some
  match radius, given.arguments with
  | some radius, [] => some (options none radius)
  | some radius, [input] => some (options (some (Path.ofText input)) radius)
  | _, _ => none
where
  /-- The options with the given input and radius. -/
  options (input : Option Path) (radius : Option Nat) : UpgradeOptions :=
    { input, radius
      out := given.out.map Path.ofText
      config := given.config.map Path.ofText
      trace := given.trace
      collapse := given.collapse
      disabled := given.disabled }

/-- The words of a command without options or arguments. Two hyphens alone are neither. -/
def isBare (words : List Text) : Bool :=
  decide (words = [] ∨ words = ["--".toList])

/-- The command of the given name. -/
def ofName? (name : Text) (words : List Text) : Option Command :=
  if name = "normalize".toList then
    (Given.read {} words).bind fun given => given.upgrade?.map upgrade
  else if name = "rules".toList then if isBare words then some listRules else none
  else if name = "models".toList then if isBare words then some listModels else none
  else none

/-- The command that a command line asks for. Without one, it is misused. -/
def parse? : List Text → Option Command
  | [] => none
  | word :: words =>
      if word = "--".toList then
        match words with
        | name :: words => ofName? name words
        | [] => none
      else ofName? word words

end Command

end SdkUpgrade
