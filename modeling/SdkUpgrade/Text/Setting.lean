import SdkUpgrade.Text.Classes

/-!
# Numbers and settings given as texts

Every script with positional decimal digits has its ten digits in a row, so a digit is known by
the zero of its row. An integer is written in decimal digits of any script, with an optional
sign, single underscores between digits and whitespace around the whole. The separators U+001C
to U+001F are whitespace elsewhere, but may not stand around an integer. Numbers of more than
4300 digits are refused.

A setting that is given as a text is read without the whitespace at its ends, and a blank one
counts as missing. It may stand for a flag, or for the names between its commas.
-/

namespace SdkUpgrade

namespace Text

/-! ## Digits -/

/-- The code points of the digit zero of every script, in increasing order. -/
def digitZeros : List Nat :=
  [48, 1632, 1776, 1984, 2406, 2534, 2662, 2790, 2918, 3046, 3174, 3302, 3430, 3558, 3664, 3792,
   3872, 4160, 4240, 6112, 6160, 6470, 6608, 6784, 6800, 6992, 7088, 7232, 7248, 42528, 43216,
   43264, 43472, 43504, 43600, 44016, 65296, 66720, 68912, 69734, 69872, 69942, 70096, 70384,
   70736, 70864, 71248, 71360, 71472, 71904, 72016, 72784, 73040, 73120, 92768, 92864, 93008,
   120782, 120792, 120802, 120812, 120822, 123200, 123632, 125264, 130032]

/-- The value of the code point `n` as a decimal digit, given the zeros of the scripts. -/
def digitValueFrom? : List Nat → Nat → Option Nat
  | [], _ => none
  | row :: rows, n =>
      if n < row then none
      else if n < row + 10 then some (n - row)
      else digitValueFrom? rows n

/-- The value of a decimal digit of any script. -/
def digitValue? (c : Char) : Option Nat :=
  digitValueFrom? digitZeros c.toNat

/-- The number with the given digits, all of which are hexadecimal. -/
def numberIn (base : Nat) (digits : Text) : Nat :=
  let value (c : Char) : Nat :=
    if c.isDigit then c.toNat - 48 else if c ≤ 'F' then c.toNat - 55 else c.toNat - 87
  digits.foldl (fun n c => base * n + value c) 0

/-! ## Integers -/

/-- The largest number of digits that is read. -/
def digitLimit : Nat := 4300

/-- The values of the digits of a number, between any two of which one underscore may stand. -/
def digits? : Text → Option (List Nat)
  | [] => none
  | [c] => (digitValue? c).map fun d => [d]
  | c :: '_' :: text =>
      match digitValue? c with
      | some d => (digits? text).map (d :: ·)
      | none => none
  | c :: next :: text =>
      match digitValue? c with
      | some d => (digits? (next :: text)).map (d :: ·)
      | none => none

/-- The number that has the given digits. -/
def numberOf (digits : List Nat) : Nat :=
  digits.foldl (fun n d => 10 * n + d) 0

/-- The number that a text of digits stands for. -/
def natural? (text : Text) : Option Nat :=
  match digits? text with
  | some digits => if digits.length ≤ digitLimit then some (numberOf digits) else none
  | none => none

/-- Whitespace that may stand around an integer. -/
def isMargin (c : Char) : Bool :=
  isBlank c && !(decide (28 ≤ c.toNat) && decide (c.toNat ≤ 31))

/-- A text without the whitespace that may stand around an integer. -/
def stripMargins (text : Text) : Text :=
  ((text.dropWhile isMargin).reverse.dropWhile isMargin).reverse

/-- The integer that a text stands for. -/
def integer? (text : Text) : Option Int :=
  match stripMargins text with
  | '-' :: rest => (natural? rest).map fun n => -(n : Int)
  | '+' :: rest => (natural? rest).map fun n => (n : Int)
  | rest => (natural? rest).map fun n => (n : Int)

/-! ## Flags and names -/

/-- The text without the whitespace at its ends, if anything is left of it. -/
def trimmed? (text : Text) : Option Text :=
  match strip text with
  | [] => none
  | text => some text

/-- The words for a flag that is set. -/
def trueWords : List Text :=
  ["1", "true", "yes", "on"]

/-- The words for a flag that is not set. -/
def falseWords : List Text :=
  ["0", "false", "no", "off"]

/-- The flag that a word stands for in any letter case. -/
def flagOfWord? (word : Text) : Option Bool :=
  let word := word.map Char.toLower
  if word ∈ trueWords then some true
  else if word ∈ falseWords then some false
  else none

/-- The flag that a text stands for. -/
def flag? (text : Text) : Option Bool :=
  (trimmed? text).bind flagOfWord?

/-- The names between the commas of a text, without the blank ones and each only once. -/
def names (text : Text) : List Text :=
  distinct ((split ',' text).filterMap trimmed?)

end Text

end SdkUpgrade
