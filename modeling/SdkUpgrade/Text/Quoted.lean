import SdkUpgrade.Text.Printable

/-!
# Quoted texts

A quoted text stands between single quotes, or between double quotes if it has a single quote and
no double one. The quote itself and the backslash are escaped, tab, line feed and carriage return
have escapes of their own, and every other character that is not printable is written by its
code point in two, four or eight hexadecimal digits.
-/

namespace SdkUpgrade

namespace Text

/-- The hexadecimal digits of a number, padded with zeros to the given width. -/
def hexadecimal (width n : Nat) : Text :=
  let digits := Nat.toDigits 16 n
  List.replicate (width - digits.length) '0' ++ digits

/-- The escape that names a character by its code point. -/
def numericEscape (c : Char) : Text :=
  if c.toNat < 256 then "\\x" ++ hexadecimal 2 c.toNat
  else if c.toNat < 65536 then "\\u" ++ hexadecimal 4 c.toNat
  else "\\U" ++ hexadecimal 8 c.toNat

/-- A character inside the given quotes. -/
def quotedChar (quote c : Char) : Text :=
  if c = quote ∨ c = '\\' then ['\\', c]
  else if c = '\t' then "\\t"
  else if c = '\n' then "\\n"
  else if c = '\r' then "\\r"
  else if isPrintable c then [c]
  else numericEscape c

/-- The quote that a text is put between. -/
def quoteFor (text : Text) : Char :=
  if '\'' ∈ text ∧ '"' ∉ text then '"' else '\''

/-- The quoted form of a text. -/
def quoted (text : Text) : Text :=
  let quote := quoteFor text
  [quote] ++ text.flatMap (quotedChar quote) ++ [quote]

end Text

end SdkUpgrade
