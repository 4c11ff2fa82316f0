import SdkUpgrade.Catalog
import SdkUpgrade.Engine
import SdkUpgrade.Text.Quoted

/-!
# What the program prints

The program lists its rules, the retired models with their successors, and the edits of a run.
Escape sequences for the look of a terminal are left out of everything it prints, since it never
writes to a terminal.
-/

namespace SdkUpgrade

namespace Listing

/-- A character between the beginning and the last letter of an escape sequence. -/
def isEscapeParameter (c : Char) : Bool :=
  c.isDigit || c == ';' || c == '?'

/-- The escape sequence that begins at the cursor: escape, a bracket, parameters and an ASCII
letter. -/
def escapeHit? (c : Cursor) : Option Hit :=
  match c.after with
  | '\x1b' :: '[' :: rest =>
      match rest.dropWhile isEscapeParameter with
      | last :: _ =>
          if last.isAlpha then
            some ⟨"\x1b[" ++ rest.takeWhile isEscapeParameter ++ [last], []⟩
          else none
      | [] => none
  | _ => none

/-- A text without escape sequences. -/
def printed (text : Text) : Text :=
  (scan escapeHit? text).flatMap Piece.result

/-- A line of output. -/
def line (text : Text) : Text :=
  printed (text ++ "\n")

/-- A number, flush right in a column of the given width. -/
def flushRight (width : Nat) (text : Text) : Text :=
  List.replicate (width - text.length) ' ' ++ text

/-- The rules of a catalog, one on each line. -/
def rules (catalog : Catalog) : Text :=
  catalog.rules.flatMap fun rule =>
    let marker : Text := if rule.contextual then " (context)" else []
    line (flushRight 3 (Text.ofInt rule.order) ++ "  " ++ rule.id ++ marker ++ "  "
      ++ rule.kind.description)

/-- The successors of a tier by intent. -/
def successors (tier : Tier) : Text :=
  Text.enumeration (tier.listedIntents.map fun intent =>
    intent.name ++ "=" ++ tier.successor intent)

/-- The retired models, one on each line. -/
def models : Text :=
  RetiredModel.registry.flatMap fun model =>
    line (model.name ++ " -> " ++ model.successor ++ " [" ++ model.tier.name ++ "] "
      ++ successors model.tier)

/-- The line of an edit. -/
def edit (e : Edit) : Text :=
  "  [" ++ e.ruleId ++ "] " ++ Text.ofNat e.start ++ "-" ++ Text.ofNat e.stop ++ ": "
    ++ Text.quoted e.before ++ " -> " ++ Text.quoted e.after

/-- The edits of a run: their number, and one line for each. -/
def edits (result : Result) : Text :=
  line ("Rewrites applied: " ++ Text.ofNat result.edits.length)
    ++ result.edits.flatMap fun e => line (edit e)

end Listing

end SdkUpgrade
