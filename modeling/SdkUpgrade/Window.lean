import SdkUpgrade.Text.Basic

/-!
# Windows of context

A window is the stretch of a text around a span, up to a given number of characters on each side.
Without a radius it is the whole text.
-/

namespace SdkUpgrade

namespace Text

/-- An offset into a text of the given length. A negative offset counts from the end, and offsets
out of range count as the nearest end. -/
def clampOffset (length : Nat) (offset : Int) : Nat :=
  if offset < 0 then (offset + length).toNat else min offset.toNat length

/-- The characters between two offsets. -/
def slice (text : Text) (start stop : Int) : Text :=
  (text.take (clampOffset text.length stop)).drop (clampOffset text.length start)

end Text

/-- A span of a text and the window around it. -/
structure Window where
  source : Text
  start : Int
  stop : Int
  windowStart : Int
  windowStop : Int
  deriving DecidableEq, Repr

namespace Window

/-- The window around a span. -/
def around (radius : Option Nat) (source : Text) (start stop : Int) : Window :=
  match radius with
  | none => ⟨source, start, stop, 0, source.length⟩
  | some r => ⟨source, start, stop, max 0 (start - r), min source.length (stop + r)⟩

/-- The text of the window. -/
def text (w : Window) : Text :=
  w.source.slice w.windowStart w.windowStop

/-- The part of the window in front of the span. -/
def before (w : Window) : Text :=
  w.source.slice w.windowStart w.start

/-- The part of the window behind the span. -/
def after (w : Window) : Text :=
  w.source.slice w.stop w.windowStop

end Window

end SdkUpgrade
