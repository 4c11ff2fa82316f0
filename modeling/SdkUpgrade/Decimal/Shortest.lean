import SdkUpgrade.Text.Basic

/-!
# The shortest decimal of a floating-point number

A floating-point number stands for every real that rounds to it. Its shortest decimal has
the fewest digits of all decimals in that interval, and is the nearest to the number among
those. Positional notation is used where the decimal point stands at most four zeros in
front of the digits or sixteen places behind their beginning; elsewhere an exponent of at
least two digits is written.
-/

namespace SdkUpgrade

namespace Decimal

/-- A positive number `mantissa * 2 ^ exponent`, with the interval of reals that round to it
measured in quarters of the last place: it reaches two quarters up, and `down` quarters down. -/
structure Binary where
  mantissa : Nat
  exponent : Int
  down : Nat
  deriving DecidableEq, Repr

/-- The leading bit of a mantissa, which the bits of a number do not hold. -/
def hidden : Nat := 0x10000000000000

/-- The finite positive number with the given bits, the sign bit left out. -/
def Binary.ofBits (bits : Nat) : Binary :=
  let fraction := bits % hidden
  let field : Nat := bits / hidden
  if field = 0 then ⟨fraction, -1074, 2⟩
  else ⟨hidden + fraction, (field : Int) - 1075, if fraction = 0 ∧ field ≠ 1 then 1 else 2⟩

/-- Digits and the place of the decimal point: the number is `0.digits * 10 ^ point`. -/
structure Digits where
  digits : Text
  point : Int
  deriving DecidableEq, Repr

/-- `n * 2 ^ q / 10 ^ k` as a quotient of natural numbers. -/
def scaled (n : Nat) (q k : Int) : Nat × Nat :=
  (n * Nat.pow 2 q.toNat * Nat.pow 10 (-k).toNat, Nat.pow 2 (-q).toNat * Nat.pow 10 k.toNat)

/-- The decimal `n * 10 ^ k` rounds to the number. The ends of the interval do so if
the mantissa is even. -/
def Binary.covers (b : Binary) (n : Nat) (k : Int) : Bool :=
  let q := b.exponent - 2
  let (low, lowDen) := scaled (4 * b.mantissa - b.down) q k
  let (high, highDen) := scaled (4 * b.mantissa + 2) q k
  if b.mantissa % 2 = 0 then low ≤ n * lowDen && n * highDen ≤ high
  else low < n * lowDen && n * highDen < high

/-- The multiple of `10 ^ k` next to the number that rounds to it and is nearest to it, if one
does. Of two that are equally near, the even one is taken. -/
def Binary.nearest? (b : Binary) (k : Int) : Option Nat :=
  let (num, den) := scaled b.mantissa b.exponent k
  let below := num / den
  let above := below + 1
  match b.covers below k && below != 0, b.covers above k with
  | true, true =>
      let excess := 2 * (num - below * den)
      some (if excess < den ∨ (excess = den ∧ below % 2 = 0) then below else above)
  | true, false => some below
  | false, true => some above
  | false, false => none

/-- The decimals of the number on finer and finer grids, until one rounds to it. -/
def Binary.shortestFrom (b : Binary) : Nat → Int → Nat × Int
  | 0, k => (b.mantissa, k)
  | fuel + 1, k =>
      match b.nearest? k with
      | some n => (n, k)
      | none => b.shortestFrom fuel (k - 1)

/-- The shortest digits of the number. -/
def Binary.shortest (b : Binary) : Digits :=
  let (n, k) := b.shortestFrom 640 309
  let digits := Text.ofNat n
  let trimmed := (digits.reverse.dropWhile (· = '0')).reverse
  ⟨trimmed, k + digits.length⟩

/-- The digits of a number in positional notation or with an exponent. -/
def Digits.layout (d : Digits) : Text :=
  let size : Int := d.digits.length
  if -4 < d.point ∧ d.point ≤ 16 then
    if d.point ≤ 0 then "0." ++ List.replicate (-d.point).toNat '0' ++ d.digits
    else if size ≤ d.point then d.digits ++ List.replicate (d.point - size).toNat '0' ++ ".0"
    else d.digits.take d.point.toNat ++ "." ++ d.digits.drop d.point.toNat
  else
    let power := d.point - 1
    let sign : Text := if power < 0 then "-" else "+"
    let magnitude := Text.ofNat power.natAbs
    let fraction : Text := if d.digits.length ≤ 1 then [] else "." ++ d.digits.drop 1
    d.digits.take 1 ++ fraction ++ "e" ++ sign ++ List.replicate (2 - magnitude.length) '0'
      ++ magnitude

/-- The shortest decimal of a floating-point number. -/
def ofFloat (x : Float) : Text :=
  let bits := x.toBits.toNat
  let signBit := 2048 * hidden
  let negative := signBit ≤ bits
  let size := bits % signBit
  let infinity := 2047 * hidden
  let sign : Text := if negative then "-" else []
  if infinity < size then "nan"
  else if size = infinity then sign ++ "inf"
  else if size = 0 then sign ++ "0.0"
  else sign ++ (Binary.ofBits size).shortest.layout

end Decimal

end SdkUpgrade
