import SdkUpgrade.Text.Quoted
import SdkUpgrade.Text.Setting

/-!
# Values of settings

Settings come from files and from callers as values of several types. A value can be shown as
plain text and as a literal; the two differ in that a literal text is quoted. From its plain
text a value can be read as a text, as a flag or as a list of names, unless it holds an
integer of too many digits.
-/

namespace SdkUpgrade

/-- A calendar date, with the time of day and the distance from universal time, in seconds, if
they are given. -/
structure Moment where
  year : Nat
  month : Nat
  day : Nat
  time : Option (Nat × Nat × Nat × Nat)
  offset : Option Int
  deriving DecidableEq, Repr

/-- A value without parts. A floating-point number is given by its digits as they are shown. -/
inductive Scalar where
  | null
  | bool (b : Bool)
  | int (n : Int)
  | float (digits : Text)
  | text (t : Text)
  | moment (m : Moment)
  deriving DecidableEq, Repr

/-- A value of a setting. The entries of a map are in their order of insertion. -/
inductive Value where
  | scalar (s : Scalar)
  | list (items : List Value)
  | map (entries : List (Scalar × Value))

/-- The absence of a value stands for any value. -/
instance : Inhabited Value := ⟨.scalar .null⟩

namespace Moment

/-- A number in at least the given number of digits. -/
def padded (width n : Nat) : Text :=
  List.replicate (width - (Text.ofNat n).length) '0' ++ Text.ofNat n

/-- The distance from universal time, with seconds only if there are any. -/
def offsetText (offset : Int) : Text :=
  let size := offset.natAbs
  let sign : Text := if offset < 0 then "-" else "+"
  let seconds : Text := if size % 60 = 0 then [] else ":" ++ padded 2 (size % 60)
  sign ++ padded 2 (size / 3600) ++ ":" ++ padded 2 (size / 60 % 60)
    ++ seconds

/-- The date, and the time of day behind a space. -/
def display (m : Moment) : Text :=
  let date := padded 4 m.year ++ "-" ++ padded 2 m.month ++ "-" ++ padded 2 m.day
  match m.time with
  | none => date
  | some (hour, minute, second, micro) =>
      let fraction : Text := if micro = 0 then [] else "." ++ padded 6 micro
      date ++ " " ++ padded 2 hour ++ ":" ++ padded 2 minute ++ ":" ++ padded 2 second ++ fraction
        ++ ((m.offset.map offsetText).getD [])

/-- A span of seconds as a literal: whole days, rounded down, and the seconds that remain. -/
def spanLiteral (span : Int) : Text :=
  let days := Int.fdiv span 86400
  let seconds := Int.fmod span 86400
  let parts : List Text :=
    (if days = 0 then [] else ["days=" ++ Text.ofInt days])
      ++ (if seconds = 0 then [] else ["seconds=" ++ Text.ofInt seconds])
  "datetime.timedelta(" ++ Text.enumeration parts ++ ")"

/-- The distance from universal time as a literal. -/
def offsetLiteral (offset : Int) : Text :=
  if offset = 0 then "datetime.timezone.utc"
  else "datetime.timezone(" ++ spanLiteral offset ++ ")"

/-- The moment as a literal. Seconds and their fraction are left out when they are zero. -/
def literal (m : Moment) : Text :=
  let date := [m.year, m.month, m.day]
  match m.time with
  | none => "datetime.date(" ++ Text.enumeration (date.map Text.ofNat) ++ ")"
  | some (hour, minute, second, micro) =>
      let time :=
        if micro ≠ 0 then [hour, minute, second, micro]
        else if second ≠ 0 then [hour, minute, second]
        else [hour, minute]
      let offset := (m.offset.map fun o => ["tzinfo=" ++ offsetLiteral o]).getD []
      "datetime.datetime(" ++ Text.enumeration ((date ++ time).map Text.ofNat ++ offset) ++ ")"

end Moment

namespace Scalar

/-- The scalar as plain text. -/
def display : Scalar → Text
  | null => "None"
  | bool true => "True"
  | bool false => "False"
  | int n => Text.ofInt n
  | float digits => digits
  | text t => t
  | moment m => m.display

/-- The scalar as a literal. -/
def literal : Scalar → Text
  | text t => Text.quoted t
  | moment m => m.literal
  | s => s.display

/-- If the scalar is an integer, it has no more digits than may be read. -/
def isShort : Scalar → Bool
  | int n => decide (n.natAbs < Nat.pow 10 Text.digitLimit)
  | _ => true

/-- An integer below the number of digits that may be read has fewer digits than that. -/
theorem isShort_int {n : Int} (h : n.natAbs < Text.digitLimit) : (int n).isShort = true := by
  have hpow : ∀ limit, n.natAbs < limit → n.natAbs < Nat.pow 10 limit := fun limit hlt =>
    Nat.lt_trans hlt (Nat.lt_pow_self (by decide))
  rw [isShort, decide_eq_true_eq]
  exact hpow Text.digitLimit h

/-- The name of the scalar's type. -/
def typeName : Scalar → Text
  | null => "NoneType"
  | bool _ => "bool"
  | int _ => "int"
  | float _ => "float"
  | text _ => "str"
  | moment m => if m.time.isSome then "datetime.datetime" else "datetime.date"

end Scalar

/-- Why a value could not be read as a text. -/
inductive DisplayError where
  /-- It holds an integer of too many digits. -/
  | tooManyDigits
  deriving DecidableEq, Repr

/-- The wording of why a value could not be read as a text. -/
def DisplayError.message : DisplayError → Text
  | tooManyDigits =>
      "Exceeds the limit (4300 digits) for integer string conversion; "
        ++ "use sys.set_int_max_str_digits() to increase the limit"

namespace Value

mutual

/-- The value as a literal. -/
def literal : Value → Text
  | scalar s => s.literal
  | list items => "[" ++ Text.enumeration (itemLiterals items) ++ "]"
  | map entries => "\x7b" ++ Text.enumeration (entryLiterals entries) ++ "\x7d"

/-- The literals of the items of a list. -/
def itemLiterals : List Value → List Text
  | [] => []
  | item :: items => literal item :: itemLiterals items

/-- The literals of the entries of a map. -/
def entryLiterals : List (Scalar × Value) → List Text
  | [] => []
  | (key, value) :: entries => (key.literal ++ ": " ++ literal value) :: entryLiterals entries

end

/-- The value as plain text. -/
def display : Value → Text
  | scalar s => s.display
  | value => value.literal

/-- The name of the value's type. -/
def typeName : Value → Text
  | scalar s => s.typeName
  | list _ => "list"
  | map _ => "dict"

mutual

/-- No integer in the value has too many digits. -/
def isShort : Value → Bool
  | scalar s => s.isShort
  | list items => itemsShort items
  | map entries => entriesShort entries

/-- No integer in the items of a list has too many digits. -/
def itemsShort : List Value → Bool
  | [] => true
  | item :: items => isShort item && itemsShort items

/-- No integer in the entries of a map has too many digits. -/
def entriesShort : List (Scalar × Value) → Bool
  | [] => true
  | (key, value) :: entries => key.isShort && isShort value && entriesShort entries

end

/-- The value as plain text, if it can be read as one. -/
def read (value : Value) : Except DisplayError Text :=
  if value.isShort then .ok value.display else .error .tooManyDigits

/-- The value as a text without whitespace at its ends, if anything is left of it. -/
def trimmed : Value → Except DisplayError (Option Text)
  | scalar .null => .ok none
  | value => value.read.map Text.trimmed?

/-- The value as a flag, if it stands for one. -/
def flag : Value → Except DisplayError (Option Bool)
  | scalar .null => .ok none
  | scalar (.bool b) => .ok (some b)
  | value => value.read.map Text.flag?

/-- The value as a list of names: the items of a list, or the parts of any other value between its
commas, without surrounding whitespace, without empty ones, and each only once. -/
def names : Value → Except DisplayError (List Text)
  | scalar .null => .ok []
  | list items => (items.mapM trimmed).map fun texts => Text.distinct (texts.filterMap id)
  | value => value.read.map Text.names

/-- A text is read as it is. -/
theorem trimmed_text (t : Text) : (scalar (.text t)).trimmed = .ok (Text.trimmed? t) :=
  rfl

/-- A text is the flag that it stands for. -/
theorem flag_text (t : Text) : (scalar (.text t)).flag = .ok (Text.flag? t) :=
  rfl

/-- A text is the list of the names between its commas. -/
theorem names_text (t : Text) : (scalar (.text t)).names = .ok (Text.names t) :=
  rfl

end Value

end SdkUpgrade
