import SdkUpgrade.Text.Classes

/-!
# Cleaning of whitespace

Two cleaning steps can be applied before the rules: line endings of any system become line feeds,
and every run of whitespace becomes one space, with none left at the two ends.
-/

namespace SdkUpgrade

namespace Cleaning

open Text

/-- A cleaning step. -/
inductive Step where
  | lineEndings
  | collapse
  deriving DecidableEq, Repr

/-- The text with a line feed for every carriage return and for every pair of carriage return and
line feed. -/
def unifyLineEndings : Text → Text
  | [] => []
  | '\r' :: '\n' :: text => '\n' :: unifyLineEndings text
  | c :: text => (if c = '\r' then '\n' else c) :: unifyLineEndings text

/-- The text with a space for every run of whitespace. The first argument tells whether a run
began in front of the text. -/
def mergeBlanks : Bool → Text → Text
  | _, [] => []
  | inBlanks, c :: text =>
      if isBlank c then
        if inBlanks then mergeBlanks true text else ' ' :: mergeBlanks true text
      else c :: mergeBlanks false text

/-- The text with its runs of whitespace collapsed. -/
def collapse (text : Text) : Text :=
  strip (mergeBlanks false text)

/-- The effect of a cleaning step. -/
def Step.apply : Step → Text → Text
  | lineEndings => unifyLineEndings
  | collapse => Cleaning.collapse

/-- The usual cleaning steps. -/
def standard : List Step :=
  [.lineEndings, .collapse]

/-- The text after the given steps; without any, after the usual ones. -/
def clean (steps : List Step) (text : Text) : Text :=
  (if steps = [] then standard else steps).foldl (fun text step => step.apply text) text

end Cleaning

end SdkUpgrade
