import SdkUpgrade.Text.Basic

/-!
# A place in a text, and one pass over a text

A `Cursor` is a place in a text: what stands before it, nearest character first, and what follows.
A recogniser looks at a cursor and may answer with a `Hit`: the characters it takes, beginning at
the cursor, and what should stand in their place. `pieces` runs a recogniser over a whole text
from left to right. Where it answers, its characters form one piece and the pass goes on behind
them; everywhere else the next character is kept.
-/

namespace SdkUpgrade

/-- A place in a text. `before` holds the characters in front of it, the nearest first. -/
structure Cursor where
  before : Text
  after : Text
  deriving DecidableEq, Repr

namespace Cursor

/-- The beginning of a text. -/
def start (text : Text) : Cursor :=
  ⟨[], text⟩

/-- The text that the cursor is a place in. -/
def source (c : Cursor) : Text :=
  c.before.reverse ++ c.after

/-- The number of characters in front of the cursor. -/
def offset (c : Cursor) : Nat :=
  c.before.length

/-- The character directly in front of the cursor satisfies `p`. -/
def follows (p : Char → Bool) (c : Cursor) : Bool :=
  c.before.head?.any p

end Cursor

/-- What a recogniser answers: the characters it takes and what should stand in their place. -/
structure Hit where
  matched : Text
  replacement : Text
  deriving DecidableEq, Repr

/-- A stretch of a text after one pass: a character that was kept, or a hit. -/
inductive Piece where
  | kept (c : Char)
  | hit (h : Hit)
  deriving DecidableEq, Repr

namespace Piece

/-- The characters of the text that the piece stands for. -/
def source : Piece → Text
  | kept c => [c]
  | hit h => h.matched

/-- The characters that the pass leaves in their place. -/
def result : Piece → Text
  | kept c => [c]
  | hit h => h.replacement

end Piece

/-- One pass of a recogniser over a text. The first argument counts the characters that the last
hit still covers; they belong to no piece of their own. -/
def pieces (find? : Cursor → Option Hit) : Nat → (before after : Text) → List Piece
  | _, _, [] => []
  | covered + 1, before, c :: after => pieces find? covered (c :: before) after
  | 0, before, c :: after =>
      match find? ⟨before, c :: after⟩ with
      | none => .kept c :: pieces find? 0 (c :: before) after
      | some h => .hit h :: pieces find? (h.matched.length - 1) (c :: before) after

/-- The pieces of a whole text. -/
def scan (find? : Cursor → Option Hit) (text : Text) : List Piece :=
  pieces find? 0 [] text

/-- Every hit of the recogniser takes at least one character, and what it takes begins at the
cursor. -/
def Recognises (find? : Cursor → Option Hit) : Prop :=
  ∀ c h, find? c = some h → h.matched ≠ [] ∧ h.matched <+: c.after

/-- The pieces of a pass make up the part of the text that the last hit does not cover. -/
theorem flatMap_source_pieces {find? : Cursor → Option Hit} (hf : Recognises find?)
    (covered : Nat) (before after : Text) :
    (pieces find? covered before after).flatMap Piece.source = after.drop covered := by
  induction after generalizing covered before with
  | nil => simp [pieces]
  | cons c after ih =>
      cases covered with
      | succ covered => simpa [pieces] using ih covered (c :: before)
      | zero =>
          cases hh : find? ⟨before, c :: after⟩ with
          | none => simp [pieces, hh, Piece.source, ih]
          | some h =>
              obtain ⟨hne, rest, hrest⟩ := hf _ _ hh
              obtain ⟨d, matched, hm⟩ := List.exists_cons_of_ne_nil hne
              rw [hm, List.cons_append] at hrest
              obtain ⟨rfl, rfl⟩ := List.cons.inj hrest
              simp [pieces, hh, Piece.source, ih, hm]

/-- The pieces of a text make up that text. -/
theorem flatMap_source_scan {find? : Cursor → Option Hit} (hf : Recognises find?) (text : Text) :
    (scan find? text).flatMap Piece.source = text :=
  flatMap_source_pieces hf 0 [] text

/-- Where nothing is recognised, every character is kept. -/
theorem pieces_eq_map_kept {find? : Cursor → Option Hit} (before after : Text)
    (h : ∀ passed rest, after = passed ++ rest → find? ⟨passed.reverse ++ before, rest⟩ = none) :
    pieces find? 0 before after = after.map Piece.kept := by
  induction after generalizing before with
  | nil => simp [pieces]
  | cons c after ih =>
      have hc : find? ⟨before, c :: after⟩ = none := h [] (c :: after) rfl
      have hrest : pieces find? 0 (c :: before) after = after.map Piece.kept := by
        refine ih (c :: before) fun passed rest hsplit => ?_
        simpa using h (c :: passed) rest (by simp [hsplit])
      simp [pieces, hc, hrest]

end SdkUpgrade
