import SdkUpgrade.Yaml.Error

/-!
# Places in a YAML text

A place knows what follows it, how many characters precede it, and its line and column. Lines
end at a line feed, a next-line character or one of the two Unicode separators, and the byte
order mark takes no column.
-/

namespace SdkUpgrade

namespace Yaml

/-- A character that ends a line. -/
def isBreak (c : Char) : Bool :=
  c == '\n' || c == '\x85' || c == '\u2028' || c == '\u2029'

/-- A space, a tab or the end of a line. -/
def isSpacing (c : Char) : Bool :=
  c == ' ' || c == '\t' || isBreak c

/-- The end of the text, or a character that satisfies `p`. -/
def endOr (p : Char → Bool) (next : Option Char) : Bool :=
  next.all p

/-- A place in a text. -/
structure Place where
  rest : Text
  index : Nat
  line : Nat
  column : Nat
  deriving Repr

namespace Place

/-- The beginning of a text. -/
def start (text : Text) : Place :=
  ⟨text, 0, 0, 0⟩

/-- The character at the given distance. -/
def peek (p : Place) (distance : Nat) : Option Char :=
  p.rest[distance]?

/-- The next character. -/
def next (p : Place) : Option Char :=
  p.rest.head?

/-- The place behind the next character. -/
def step (p : Place) : Place :=
  match p.rest with
  | [] => p
  | c :: rest =>
      if isBreak c then ⟨rest, p.index + 1, p.line + 1, 0⟩
      else ⟨rest, p.index + 1, p.line, if c = '\ufeff' then p.column else p.column + 1⟩

/-- The place the given number of characters further on. -/
def forward : Nat → Place → Place
  | 0, p => p
  | n + 1, p => forward n p.step

/-- The characters from here on that satisfy `q`. -/
def run (q : Char → Bool) (p : Place) : Text :=
  p.rest.takeWhile q

/-- The place behind the characters that satisfy `q`. -/
def skip (q : Char → Bool) (p : Place) : Place :=
  forward (p.run q).length p

/-- The place behind the end of the line, if the line ends here, with the character that it counts
as: a line feed, or the separator itself. -/
def lineBreak (p : Place) : Text × Place :=
  match p.next with
  | some c =>
      if c = '\u2028' ∨ c = '\u2029' then ([c], p.step)
      else if isBreak c then (['\n'], p.step)
      else ([], p)
  | none => ([], p)

/-- One of the two document markers follows. -/
def atMarker (p : Place) : Bool :=
  (p.rest.take 3 == "---".toList || p.rest.take 3 == "...".toList) && endOr isSpacing (p.peek 3)

/-- The place behind a comment, if one begins here. -/
def skipComment (p : Place) : Place :=
  if p.next = some '#' then p.skip (! isBreak ·) else p

end Place

end Yaml

end SdkUpgrade
