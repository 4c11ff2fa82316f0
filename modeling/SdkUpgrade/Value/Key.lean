import SdkUpgrade.Decimal.Shortest
import SdkUpgrade.Value

/-!
# Scalars as keys

Two scalars are the same key when they are equal, where numbers are compared by value, flags count
as numbers, and moments with a known distance from universal time are compared as instants. Keys
are listed in order, which takes keys that can be compared with each other, and texts at that.
-/

namespace SdkUpgrade

/-! ## Instants -/

/-- The number of days of a month. -/
def daysIn (year month : Nat) : Nat :=
  if month = 2 then
    if year % 4 = 0 ∧ (year % 100 ≠ 0 ∨ year % 400 = 0) then 29 else 28
  else if month ∈ [4, 6, 9, 11] then 30
  else 31

namespace Moment

/-- The number of days up to a date, from the beginning of the first year on. -/
def days (m : Moment) : Nat :=
  let years := m.year - 1
  let months := (List.range m.month).drop 1
  months.foldl (fun days month => days + daysIn m.year month)
    (365 * years + years / 4 - years / 100 + years / 400 + m.day)

/-- The millionths of a second up to a moment in universal time, if its distance from it is known.
-/
def instant? (m : Moment) : Option Int :=
  match m.time, m.offset with
  | some (hour, minute, second, micro), some offset =>
      let seconds : Nat := 86400 * m.days + 3600 * hour + 60 * minute + second
      some (1000000 * ((seconds : Int) - offset) + micro)
  | _, _ => none

end Moment

namespace Scalar

/-! ## Numbers -/

/-- The integer that a scalar counts as, if it is an integer or a flag. -/
def count? : Scalar → Option Int
  | bool b => some (if b then 1 else 0)
  | int n => some n
  | _ => none

/-- The number is a floating-point number: its first 53 binary digits are all that it has,
and it is not too large. -/
def isExact (n : Nat) : Bool :=
  n % Nat.pow 2 (n.log2 - 52) == 0 && n.log2 < 1024

/-- The integer equals the floating-point number with the given digits. -/
def isFloat (digits : Text) (n : Int) : Bool :=
  if n = 0 then decide (digits = "0.0".toList ∨ digits = "-0.0".toList)
  else isExact n.natAbs && decide (Decimal.ofFloat (Float.ofInt n) = digits)

/-- A scalar as a decimal `n * 10 ^ p`, if it is a finite number. -/
def decimal? : Scalar → Option (Int × Int)
  | float digits =>
      let (mantissa, power) : Text × Int :=
        match Text.split 'e' digits with
        | [mantissa, power] => (mantissa, (Text.integer? power).getD 0)
        | _ => (digits, 0)
      let (whole, fraction) : Text × Text :=
        match Text.split '.' mantissa with
        | [whole, fraction] => (whole, fraction)
        | _ => (mantissa, [])
      (Text.integer? (whole ++ fraction)).map fun n => (n, power - fraction.length)
  | s => s.count?.map fun n => (n, 0)

/-- Of two numbers that differ, the first is the smaller one. -/
def below (a b : Scalar) : Bool :=
  match a.decimal?, b.decimal? with
  | some (m, p), some (n, q) =>
      decide (m * Nat.pow 10 (p - q).toNat < n * Nat.pow 10 (q - p).toNat)
  | _, _ => decide (a = float "-inf" ∨ b = float "inf")

/-! ## Keys -/

/-- The two scalars are the same key. -/
def sameKey : Scalar → Scalar → Bool
  | float x, float y => decide (x = y) || (isFloat x 0 && isFloat y 0)
  | float x, b => b.count?.any (isFloat x)
  | a, float y => a.count?.any (isFloat y)
  | moment m, moment n =>
      match m.instant?, n.instant? with
      | some i, some j => decide (i = j)
      | _, _ => decide (m = n)
  | a, b =>
      match a.count?, b.count? with
      | some m, some n => decide (m = n)
      | _, _ => decide (a = b)

end Scalar

/-- The kinds of keys. Keys of one kind can be compared with each other, but for some moments. -/
inductive KeyKind where
  | nothing
  | number
  | text
  | moment
  deriving DecidableEq, Repr

/-- The kind of a key. A flag counts as a number. -/
def Scalar.keyKind : Scalar → KeyKind
  | null => .nothing
  | bool _ | int _ | float _ => .number
  | text _ => .text
  | moment _ => .moment

/-- Why keys cannot be listed. -/
inductive KeyFault where
  /-- The first of the keys in order is not a text. -/
  | notText (key : Scalar)
  /-- The two keys are of different kinds. -/
  | incomparable (left right : Scalar)
  /-- Dates stand beside dates with a time of day. -/
  | datesAndTimes
  /-- Some moments have a known distance from universal time, and some have none. -/
  | localAndUniversal
  deriving DecidableEq, Repr

namespace KeyFault

/-- The wording of why keys cannot be listed. -/
def message : KeyFault → Text
  | notText key => "sequence item 0: expected str instance, " ++ key.typeName ++ " found"
  | incomparable left right =>
      "'<' not supported between instances of '" ++ left.typeName ++ "' and '" ++ right.typeName
        ++ "'"
  | datesAndTimes => "can't compare datetime.datetime to datetime.date"
  | localAndUniversal => "can't compare offset-naive and offset-aware datetimes"

/-- The scalar is a moment with a time of day. -/
def hasTime : Scalar → Bool
  | .moment m => m.time.isSome
  | _ => false

/-- The scalar is a moment with a known distance from universal time. -/
def hasOffset : Scalar → Bool
  | .moment m => m.offset.isSome
  | _ => false

/-- The list has members that satisfy `p` and members that do not. -/
def isMixed (p : Scalar → Bool) (keys : List Scalar) : Bool :=
  keys.any p && keys.any (! p ·)

/-- Why the given keys, not all of which are texts, cannot be listed. -/
def ofKeys (first : Scalar) (others : List Scalar) : KeyFault :=
  match others.find? (·.keyKind ≠ first.keyKind) with
  | some other => .incomparable other first
  | none =>
      if isMixed hasTime (first :: others) then .datesAndTimes
      else if isMixed hasOffset (first :: others) then .localAndUniversal
      else if first.keyKind = .number then
        .notText (others.foldl (fun least key => if key.below least then key else least) first)
      else .notText first

end KeyFault

end SdkUpgrade
