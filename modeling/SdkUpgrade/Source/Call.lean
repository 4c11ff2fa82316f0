import SdkUpgrade.Text.Classes
import SdkUpgrade.Text.Cursor

/-!
# Dotted names and calls in source text

A dotted name is a longest run of word characters and dots that begins with an ASCII letter or an
underscore. Being longest on both sides, it is never the tail of a longer expression.

The innermost open call at a place is found by a walk back over the text in front of it, which
keeps a number for every kind of bracket: it is the nearest opening parenthesis that has no
partner before the place. Its callee is the dotted name directly in front of that parenthesis,
whitespace apart. Quotes play no part. On such a walk texts are read backwards, so their nearest
character comes first, as in a cursor.
-/

namespace SdkUpgrade

namespace Source

open Text

/-- The dotted name that begins at the cursor, and what follows it. -/
def dottedName? (c : Cursor) : Option (Text × Text) :=
  if c.follows isNameChar then none
  else if c.after.head?.any isNameStart then
    some (c.after.takeWhile isNameChar, c.after.dropWhile isNameChar)
  else none

/-- A dotted name and what follows it make up what stands behind the cursor. -/
theorem dottedName?_eq_some {c : Cursor} {name rest : Text}
    (h : dottedName? c = some (name, rest)) : c.after = name ++ rest := by
  unfold dottedName? at h
  split at h
  · simp at h
  · split at h
    · obtain ⟨rfl, rfl⟩ := Prod.mk.inj (Option.some.inj h)
      exact List.takeWhile_append_dropWhile.symm
    · simp at h

/-- The part of a dotted name behind its last dot. -/
def lastSegment (name : Text) : Text :=
  (name.reverse.takeWhile (· ≠ '.')).reverse

/-! ## The call around a place -/

/-- The kinds of brackets. -/
inductive Bracket where
  | round
  | square
  | curly
  deriving DecidableEq, Repr

/-- The bracket that a character opens. -/
def Bracket.openedBy? : Char → Option Bracket
  | '(' => some round
  | '[' => some square
  | '\x7b' => some curly
  | _ => none

/-- The bracket that a character closes. -/
def Bracket.closedBy? : Char → Option Bracket
  | ')' => some round
  | ']' => some square
  | '\x7d' => some curly
  | _ => none

/-- The numbers of closing brackets that still await their partners. -/
structure Depths where
  round : Nat := 0
  square : Nat := 0
  curly : Nat := 0
  deriving DecidableEq, Repr

namespace Depths

/-- The number for a kind of bracket. -/
def get (depths : Depths) : Bracket → Nat
  | .round => depths.round
  | .square => depths.square
  | .curly => depths.curly

/-- The numbers with another one for a kind of bracket. -/
def set (depths : Depths) (bracket : Bracket) (depth : Nat) : Depths :=
  match bracket with
  | .round => { depths with round := depth }
  | .square => { depths with square := depth }
  | .curly => { depths with curly := depth }

end Depths

/-- What stands in front of the nearest opening parenthesis without a partner. Other brackets
without a partner are passed over. -/
def beforeOpen? : Depths → Text → Option Text
  | _, [] => none
  | depths, c :: before =>
      match Bracket.closedBy? c, Bracket.openedBy? c with
      | some bracket, _ => beforeOpen? (depths.set bracket (depths.get bracket + 1)) before
      | none, none => beforeOpen? depths before
      | none, some bracket =>
          match depths.get bracket, bracket with
          | depth + 1, _ => beforeOpen? (depths.set bracket depth) before
          | 0, .round => some before
          | 0, _ => beforeOpen? depths before

/-- How many characters in front of an opening parenthesis are searched for its callee. -/
def calleeReach : Nat := 200

/-- The dotted name that ends the text in front of an opening parenthesis. -/
def calleeBefore? (before : Text) : Option Text :=
  let run := (skipBlanks (before.take calleeReach)).takeWhile isNameChar
  match run.reverse.dropWhile (! isNameStart ·) with
  | [] => none
  | name => some name

/-- The callee of the innermost call that is open at a place, given what stands before it. -/
def enclosingCallee? (before : Text) : Option Text :=
  (beforeOpen? {} before).bind calleeBefore?

/-- The callee of the innermost call that is open in front of an offset of a text. An offset past
the end counts as the end, and nothing is open in front of a negative one. -/
def calleeAt? (text : Text) (offset : Int) : Option Text :=
  enclosingCallee? (text.take offset.toNat).reverse

end Source

end SdkUpgrade
