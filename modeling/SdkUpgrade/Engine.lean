import SdkUpgrade.Catalog
import SdkUpgrade.Cleaning

/-!
# The engine

An engine applies every rule of its catalog once, in order, to the text that the rules before have
left. Its result is the final text with all edits in the order in which they were made.
-/

namespace SdkUpgrade

/-- The pass of one rule: the rule, the text it left and the edits it made. -/
structure Pass (κ : Type := Kind) where
  rule : Rule κ
  text : Text
  edits : List Edit
  deriving DecidableEq, Repr

/-- The final text with the edits that led to it. -/
structure Result where
  text : Text
  edits : List Edit
  deriving DecidableEq, Repr

namespace Result

/-- Some edit changed something. -/
def changed (result : Result) : Bool :=
  result.edits.any fun edit => decide (edit.before ≠ edit.after)

/-- The identifiers of the rules that made an edit, in the order of their first edit. -/
def rulesFired (result : Result) : List Text :=
  Text.distinct (result.edits.map Edit.ruleId)

end Result

/-- A catalog with the radius of the context it consults, none meaning the whole text, and whether
whitespace is collapsed first. -/
structure Engine (κ : Type := Kind) where
  catalog : Catalog κ := by exact Catalog.standard
  radius : Option Nat := none
  collapse : Bool := false
  deriving DecidableEq, Repr

variable {κ : Type} [Recogniser κ]

/-- The passes of the given rules over a text, one after the other. -/
def passes (radius : Option Nat) : List (Rule κ) → Text → List (Pass κ)
  | [], _ => []
  | rule :: rules, text =>
      let next := rule.apply radius text
      ⟨rule, next, rule.edits radius text⟩ :: passes radius rules next

namespace Engine

/-- The text that the rules start from. -/
def prepare (engine : Engine κ) (text : Text) : Text :=
  if engine.collapse then Cleaning.clean [] text else text

/-- The passes of the engine over a text. -/
def passes (engine : Engine κ) (text : Text) : List (Pass κ) :=
  SdkUpgrade.passes engine.radius engine.catalog.rules (engine.prepare text)

/-- The result of the engine on a text. -/
def run (engine : Engine κ) (text : Text) : Result :=
  let passes := engine.passes text
  ⟨((passes.getLast?).map Pass.text).getD (engine.prepare text), passes.flatMap Pass.edits⟩

/-- The rules that made edits on a text, with the number of their edits, in order. -/
def firings (engine : Engine κ) (text : Text) : List (Text × Nat) :=
  ((engine.passes text).filter fun pass => decide (pass.edits ≠ [])).map fun pass =>
    (pass.rule.id, pass.edits.length)

end Engine

/-- The radius of a context may not be negative. -/
inductive RadiusError where
  | negative
  deriving DecidableEq, Repr

/-- The wording of a refused radius. -/
def RadiusError.message : RadiusError → Text
  | negative => "Context radius must be a non-negative integer or `None`."

/-- A radius given as an integer. -/
def radiusOfInt? : Option Int → Except RadiusError (Option Nat)
  | none => .ok none
  | some r => if r < 0 then .error .negative else .ok (some r.toNat)

end SdkUpgrade
