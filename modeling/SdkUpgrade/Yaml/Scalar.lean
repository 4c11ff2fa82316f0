import SdkUpgrade.Decimal.Shortest
import SdkUpgrade.Text.Setting
import SdkUpgrade.Value.Key
import SdkUpgrade.Yaml.Error

/-!
# The meaning of plain scalars

A plain scalar may be a flag, a number, a moment or nothing; otherwise it is a text. Integers are
written in base ten, two, eight (with a leading zero), sixteen or sixty, with underscores anywhere
between their digits. A floating-point number has a decimal point, and its exponent a sign.
-/

namespace SdkUpgrade

namespace Yaml

/-- The words for a flag that is set. -/
def trueWords : List Text :=
  ["yes", "Yes", "YES", "true", "True", "TRUE", "on", "On", "ON"]

/-- The words for a flag that is not set. -/
def falseWords : List Text :=
  ["no", "No", "NO", "false", "False", "FALSE", "off", "Off", "OFF"]

/-- The words for nothing. -/
def nullWords : List Text :=
  ["~", "null", "Null", "NULL", []]

/-- The sign at the beginning of a number, and the rest: whether the number is negative. -/
def sign : Text → Bool × Text
  | '-' :: rest => (true, rest)
  | '+' :: rest => (false, rest)
  | rest => (false, rest)

/-- A text without underscores. -/
def plainDigits (text : Text) : Text :=
  text.filter (· != '_')

/-- The text has at least one character, and all are of the given class or underscores. -/
def isDigits (p : Char → Bool) (text : Text) : Bool :=
  text != [] && text.all fun c => p c || c == '_'

/-- A number in a base other than ten, behind what marks the base. -/
def basedNumber (base : Nat) (digits : Text) : Except Error Nat :=
  match plainDigits digits with
  | [] => .error (.noDigits base)
  | digits => .ok (Text.numberIn base digits)

/-- A number in base ten, which may not have too many digits. -/
def decimalNumber (digits : Text) : Except Error Nat :=
  let digits := plainDigits digits
  if digits.length ≤ Text.digitLimit then .ok (Text.numberIn 10 digits)
  else .error (.tooManyDigits digits.length)

/-- A digit or two below sixty. -/
def isSixtieth : Text → Bool
  | [c] => c.isDigit
  | [c, d] => '0' ≤ c && c ≤ '5' && d.isDigit
  | _ => false

/-- The text begins with an ASCII digit. -/
def beginsWithDigit (text : Text) : Bool :=
  text.head?.any Char.isDigit

/-- The text is a decimal number without a leading zero. -/
def isDecimal (text : Text) : Bool :=
  beginsWithDigit text && text.head? != some '0' && isDigits Char.isDigit text

/-- The integer that a plain scalar stands for, if it looks like one. -/
def integer? (text : Text) : Except Error (Option Int) :=
  let (negative, body) := sign text
  let signed (n : Nat) : Option Int := some (if negative then -(n : Int) else n)
  let isBinary (c : Char) : Bool := c == '0' || c == '1'
  let isOctal (c : Char) : Bool := '0' ≤ c && c ≤ '7'
  let isHexadecimal (c : Char) : Bool :=
    c.isDigit || ('a' ≤ c && c ≤ 'f') || ('A' ≤ c && c ≤ 'F')
  match body, Text.split ':' body with
  | ['0'], _ => .ok (some 0)
  | '0' :: rest, _ =>
      match rest with
      | 'b' :: digits =>
          if isDigits isBinary digits then (basedNumber 2 digits).map signed else .ok none
      | 'x' :: digits =>
          if isDigits isHexadecimal digits then (basedNumber 16 digits).map signed else .ok none
      | digits =>
          if isDigits isOctal digits then .ok (signed (Text.numberIn 8 (plainDigits digits)))
          else .ok none
  | _, [whole] => if isDecimal whole then (decimalNumber whole).map signed else .ok none
  | _, whole :: parts =>
      if isDecimal whole && parts.all isSixtieth then
        (decimalNumber whole).map fun n =>
          signed (parts.foldl (fun n part => 60 * n + Text.numberIn 10 part) n)
      else .ok none
  | _, [] => .ok none

/-- The floating-point number `digits * 10 ^ power`. -/
def floatOf (digits : Text) (power : Int) : Float :=
  if power < 0 then Float.ofScientific (Text.numberIn 10 digits) true power.natAbs
  else Float.ofScientific (Text.numberIn 10 digits) false power.natAbs

/-- The exponent behind the digits of a floating-point number: a letter, a sign and digits. -/
def exponent? : Text → Option Int
  | [] => some 0
  | e :: mark :: digits =>
      if (e = 'e' ∨ e = 'E') ∧ digits ≠ [] ∧ digits.all Char.isDigit then
        if mark = '+' then some (Text.numberIn 10 digits)
        else if mark = '-' then some (-(Text.numberIn 10 digits : Int))
        else none
      else none
  | _ => none

/-- A digit or an underscore. -/
def isDigitOrGap (c : Char) : Bool :=
  c.isDigit || c == '_'

/-- The text up to its decimal point, and the rest behind the point. -/
def splitPoint? (text : Text) : Option (Text × Text) :=
  match text.dropWhile (· != '.') with
  | '.' :: fraction => some (text.takeWhile (· != '.'), fraction)
  | _ => none

/-- A sum over places of sixty, from the last to the first, each of which must have a finite
value.
-/
def sixtieths (sum : Float) (place : Nat) : List Text → Except Error Float
  | [] => .ok sum
  | part :: parts =>
      if (Float.ofNat place).isInf then .error .placeTooLarge
      else
        sixtieths (sum + floatOf (plainDigits part) 0 * Float.ofNat place) (60 * place) parts

/-- The floating-point number without a sign that a plain scalar stands for, if it looks like one.
A number without digits in front of its point may have had no sign. -/
def magnitude? (signed : Bool) (body : Text) : Except Error (Option Float) :=
  match splitPoint? body with
  | none => .ok none
  | some (whole, rest) =>
      let fraction := plainDigits (rest.takeWhile isDigitOrGap)
      let tail := rest.dropWhile isDigitOrGap
      let digits := plainDigits whole ++ fraction
      match Text.split ':' whole with
      | [[]] =>
          if !signed && beginsWithDigit rest then
            .ok ((exponent? tail).map fun power => floatOf fraction (power - fraction.length))
          else .ok none
      | [_] =>
          if beginsWithDigit whole && isDigits Char.isDigit whole then
            .ok ((exponent? tail).map fun power => floatOf digits (power - fraction.length))
          else .ok none
      | first :: parts =>
          if beginsWithDigit first && isDigits Char.isDigit first && parts.all isSixtieth
              && tail == [] then
            let last := floatOf ((parts.getLast?.getD []) ++ fraction) (-(fraction.length : Int))
            (sixtieths (0.0 + last) 60 (first :: parts.dropLast).reverse).map some
          else .ok none
      | [] => .ok none

/-- The digits of the floating-point number that a plain scalar stands for, if it looks like
one. -/
def float? (text : Text) : Except Error (Option Text) :=
  let (negative, body) := sign text
  let signed := decide (body ≠ text)
  if body ∈ [".inf".toList, ".Inf".toList, ".INF".toList] then
    .ok (some (if negative then "-inf" else "inf"))
  else if text ∈ [".nan".toList, ".NaN".toList, ".NAN".toList] then .ok (some "nan")
  else
    (magnitude? signed body).map fun x? =>
      x?.map fun x => Decimal.ofFloat (if negative then -x else x)

/-! ## Moments -/

/-- The number at the beginning of a text, of as many digits as there are but at least `least` and
at most `most`, and the rest. -/
def number? (least most : Nat) (text : Text) : Option (Nat × Text) :=
  let digits := (text.take most).takeWhile Char.isDigit
  if least ≤ digits.length then some (Text.numberIn 10 digits, text.drop digits.length) else none

/-- The parts of a moment lie in their ranges. -/
def checkMoment (m : Moment) : Except Error Moment := do
  if m.year = 0 then throw .badYear
  if m.month = 0 ∨ 12 < m.month then throw .badMonth
  if m.day = 0 ∨ daysIn m.year m.month < m.day then throw .badDay
  match m.time with
  | none => return m
  | some (hour, minute, second, _) =>
      if 23 < hour then throw .badHour
      if 59 < minute then throw .badMinute
      if 59 < second then throw .badSecond
      return m

/-- The distance from universal time behind a time of day: a `Z`, or a sign and hours, and minutes
behind a colon. -/
def offset? (text : Text) : Option (Option Int) :=
  match text.dropWhile fun c => c == ' ' || c == '\t' with
  | [] => if text = [] then some none else none
  | ['Z'] => some (some 0)
  | mark :: rest =>
      if mark = '+' ∨ mark = '-' then
        let signed (n : Nat) : Option (Option Int) :=
          some (some (if mark = '-' then -(n : Int) else n))
        match number? 1 2 rest with
        | some (hours, []) => signed (3600 * hours)
        | some (hours, ':' :: rest) =>
            match number? 2 2 rest with
            | some (minutes, []) => signed (3600 * hours + 60 * minutes)
            | _ => none
        | _ => none
      else none

/-- The millionths of a second behind a point, the digits beyond the sixth left out. -/
def millionths (digits : Text) : Nat :=
  let digits := digits.take 6
  Text.numberIn 10 (digits ++ List.replicate (6 - digits.length) '0')

/-- The time of day of a moment and its distance from universal time. -/
def timeOfDay? (text : Text) : Option ((Nat × Nat × Nat × Nat) × Option Int) := do
  let (hour, rest) ← number? 1 2 text
  let rest ← Text.after? ":" rest
  let (minute, rest) ← number? 2 2 rest
  let rest ← Text.after? ":" rest
  let (second, rest) ← number? 2 2 rest
  match rest with
  | '.' :: rest =>
      let offset ← offset? (rest.dropWhile Char.isDigit)
      return ((hour, minute, second, millionths (rest.takeWhile Char.isDigit)), offset)
  | _ =>
      let offset ← offset? rest
      return ((hour, minute, second, 0), offset)

/-- What separates a date from a time of day: the letter T, or spaces and tabs. -/
def timeSeparator? (text : Text) : Option Text :=
  match text with
  | 'T' :: rest | 't' :: rest => some rest
  | c :: _ =>
      if c = ' ' ∨ c = '\t' then some (text.dropWhile fun c => c == ' ' || c == '\t') else none
  | [] => none

/-- A date, and what follows it. Its month and day have the given least number of digits. -/
def date? (least : Nat) (text : Text) : Option ((Nat × Nat × Nat) × Text) := do
  let (year, rest) ← number? 4 4 text
  let rest ← Text.after? "-" rest
  let (month, rest) ← number? least 2 rest
  let rest ← Text.after? "-" rest
  let (day, rest) ← number? least 2 rest
  return ((year, month, day), rest)

/-- The moment that a plain scalar stands for, if it looks like one: a date alone with two digits
for month and day, or a date with a time of day. -/
def moment? (text : Text) : Option Moment :=
  match date? 2 text with
  | some ((year, month, day), []) => some ⟨year, month, day, none, none⟩
  | _ => do
      let ((year, month, day), rest) ← date? 1 text
      let rest ← timeSeparator? rest
      let (time, offset) ← timeOfDay? rest
      return ⟨year, month, day, some time, offset⟩

/-- A moment is less than a day away from universal time, and its parts lie in their ranges. -/
def checkedMoment (m : Moment) : Except Error Moment :=
  match m.offset with
  | some offset => if 86400 ≤ offset.natAbs then .error (.badOffset offset) else checkMoment m
  | none => checkMoment m

/-- The value of a plain scalar. -/
def plainValue (text : Text) : Except Error Scalar := do
  if text ∈ trueWords then return .bool true
  if text ∈ falseWords then return .bool false
  if text ∈ nullWords then return .null
  if let some digits ← float? text then return .float digits
  if let some n ← integer? text then return .int n
  if let some m := moment? text then return .moment (← checkedMoment m)
  return .text text

end Yaml

end SdkUpgrade
