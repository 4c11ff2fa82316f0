import SdkUpgrade.Value

/-!
# Why a YAML text has no value

Most faults make a text malformed. A few plain scalars look like a number or a moment and are
none, and a few escapes name no character; those are refused for a reason of their own. Where a
number overflows or collections are nested too deeply, it is not the text that is at fault.
-/

namespace SdkUpgrade

namespace Yaml

/-- Why a text has no value. -/
inductive Error where
  /-- The text is not well formed. -/
  | malformed
  /-- Collections are nested too deeply. -/
  | tooDeep
  /-- A number in the given base has no digits. -/
  | noDigits (base : Nat)
  /-- A number has too many digits. -/
  | tooManyDigits (count : Nat)
  /-- A place of a number in base sixty is beyond every floating-point number. -/
  | placeTooLarge
  /-- An escape names a code point beyond the last one. -/
  | badCodePoint
  /-- An escape names a number that is too large for any code point to be looked up. -/
  | codeTooLarge
  /-- The year of a date is zero. -/
  | badYear
  /-- A date has no such month. -/
  | badMonth
  /-- The month of a date has no such day. -/
  | badDay
  /-- A day has no such hour. -/
  | badHour
  /-- An hour has no such minute. -/
  | badMinute
  /-- A minute has no such second. -/
  | badSecond
  /-- A place is a day or more, in seconds, away from universal time. -/
  | badOffset (seconds : Int)
  deriving DecidableEq, Repr

/-- A limit was met, and the text itself is not at fault. -/
def Error.isLimit : Error → Bool
  | tooDeep | placeTooLarge | codeTooLarge => true
  | _ => false

/-- The wording of a fault that is not a malformed text. -/
def Error.message : Error → Text
  | malformed => "is not valid YAML"
  | tooDeep => "maximum recursion depth exceeded"
  | noDigits base => "invalid literal for int() with base " ++ Text.ofNat base ++ ": ''"
  | tooManyDigits count =>
      "Exceeds the limit (4300 digits) for integer string conversion: value has "
        ++ Text.ofNat count ++ " digits; use sys.set_int_max_str_digits() to increase the limit"
  | placeTooLarge => "int too large to convert to float"
  | codeTooLarge => "Python int too large to convert to C int"
  | badCodePoint => "chr() arg not in range(0x110000)"
  | badYear => "year 0 is out of range"
  | badMonth => "month must be in 1..12"
  | badDay => "day is out of range for month"
  | badHour => "hour must be in 0..23"
  | badMinute => "minute must be in 0..59"
  | badSecond => "second must be in 0..59"
  | badOffset seconds =>
      "offset must be a timedelta strictly between -timedelta(hours=24) and "
        ++ "timedelta(hours=24), not " ++ Moment.spanLiteral seconds ++ "."

end Yaml

end SdkUpgrade
