import SdkUpgrade.Engine
import SdkUpgrade.Value

/-!
# Lines of a run's log

A line of the log says at which level which event happened at which stage, and adds a context
of named values in the order of their names. The values are reduced to letters, numbers and a
few marks, so that a line can be taken apart at its spaces. A value that cannot be read as a
text has no place in a line.
-/

namespace SdkUpgrade

namespace Log

/-- How much a line matters. -/
inductive Level where
  | trace
  | debug
  | info
  | success
  | warning
  | error
  | critical
  deriving DecidableEq, Repr

namespace Level

/-- Every level, from the least to the most important. -/
def all : List Level :=
  [trace, debug, info, success, warning, error, critical]

/-- The number by which levels are compared. -/
def number : Level → Nat
  | trace => 5
  | debug => 10
  | info => 20
  | success => 25
  | warning => 30
  | error => 40
  | critical => 50

/-- The name of a level. -/
def name : Level → Text
  | trace => "TRACE"
  | debug => "DEBUG"
  | info => "INFO"
  | success => "SUCCESS"
  | warning => "WARNING"
  | error => "ERROR"
  | critical => "CRITICAL"

/-- The level of a given name. -/
def ofName? (name : Text) : Option Level :=
  all.find? fun level => decide (level.name = name)

end Level

/-- A context of named values. -/
abbrev Context := List (Text × Value)

/-- A character that a value keeps in the log. -/
def isKept (c : Char) : Bool :=
  Text.isAlphanumeric c || c == '-' || c == '_' || c == '.' || c == ':' || c == '/'

/-- A text as it stands in the log: without surrounding whitespace, with an underscore for every
character that is not kept. -/
def sanitized (text : Text) : Text :=
  match Text.strip text with
  | [] => "none"
  | text => text.map fun c => if isKept c then c else '_'

/-- A value as it stands in the log. -/
def token (value : Value) : Text :=
  sanitized value.display

/-- A value as it stands in the log, if it can be read as a text. -/
def token? (value : Value) : Except DisplayError Text :=
  value.read.map sanitized

/-- The context in the order of its names. -/
def ordered (context : Context) : Context :=
  context.mergeSort fun a b => Text.le a.1 b.1

/-- The context as it stands at the end of a line. -/
def contextText (context : Context) : Text :=
  (ordered context).flatMap fun (name, value) => " " ++ name ++ "=" ++ token value

/-- The context as it stands at the end of a line, if its values can be read as texts. -/
def format (context : Context) : Except DisplayError Text :=
  let words := (ordered context).mapM fun (name, value) =>
    (token? value).map fun token => " " ++ name ++ "=" ++ token
  words.map List.flatten

/-- What a line of the log tells. -/
structure Event where
  level : Level
  name : Text
  stage : Text
  context : Context

namespace Event

/-- The line of an event, with its line feed. -/
def line (event : Event) : Text :=
  "[phase] level=" ++ event.level.name ++ " stage=" ++ event.stage ++ " event=" ++ event.name
    ++ contextText event.context ++ "\n"

/-- A stage has begun. -/
def start (stage : Text) : Event :=
  ⟨.info, "start", stage, []⟩

/-- A stage is complete. -/
def complete (stage : Text) (context : Context) : Event :=
  ⟨.info, "complete", stage, context⟩

/-- A stage has failed with an error of the given type. -/
def failure (stage errorType : Text) : Event :=
  ⟨.error, "failure", stage, [("error_type", .scalar (.text errorType))]⟩

/-- A rule has made a number of edits. -/
def ruleApplied (ruleId : Text) (count : Int) : Event :=
  ⟨.info, "rule_applied", "normalize",
    [("count", .scalar (.int count)), ("rule", .scalar (.text ruleId))]⟩

/-- The names that a context may not use, because every line uses them already. -/
def reservedNames : List Text :=
  ["level", "event", "stage", "self"]

/-- The events of an engine's run over a text: one for every rule that made an edit. -/
def ofRun {κ : Type} [Recogniser κ] (engine : Engine κ) (text : Text) : List Event :=
  (engine.firings text).map fun (ruleId, count) => ruleApplied ruleId count

end Event

end Log

end SdkUpgrade
