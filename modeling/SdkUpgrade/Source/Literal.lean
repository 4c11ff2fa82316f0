import SdkUpgrade.Source.Key

/-!
# String literals in source text

A literal is delimited by one quote or by three equal quotes. A backslash takes the next character
with it, whatever it is. Between three quotes the body may run over several lines; between single
quotes a line ends only behind a backslash.
-/

namespace SdkUpgrade

namespace Source

open Text

/-- A string literal: its delimiter, one quote or three, and what stands between. -/
structure Literal where
  delimiter : Text
  body : Text
  deriving DecidableEq, Repr

namespace Literal

/-- The literal as it is written. -/
def text (literal : Literal) : Text :=
  literal.delimiter ++ literal.body ++ literal.delimiter

/-- The body of a literal whose opening delimiter was just read, and what follows its closing
delimiter. -/
def body? (delimiter : Text) (multiline : Bool) : Text → Option (Text × Text)
  | [] => none
  | ['\\'] => none
  | '\\' :: c :: text =>
      (body? delimiter multiline text).map fun (body, rest) => ('\\' :: c :: body, rest)
  | c :: text =>
      match after? delimiter (c :: text) with
      | some rest => some ([], rest)
      | none =>
          if c = '\n' ∧ multiline = false then none
          else (body? delimiter multiline text).map fun (body, rest) => (c :: body, rest)

/-- The literal between the given delimiters at the beginning of a text, and what follows it. -/
def between? (delimiter : Text) (multiline : Bool) (text : Text) : Option (Literal × Text) :=
  (after? delimiter text).bind fun inner =>
    (body? delimiter multiline inner).map fun (body, rest) => (⟨delimiter, body⟩, rest)

/-- The literal at the beginning of a text, and what follows it. Three equal quotes open a long
literal; if nothing closes it, the first two of them are an empty one. -/
def read? : Text → Option (Literal × Text)
  | [] => none
  | q :: text =>
      if isQuote q then
        match between? [q, q, q] true (q :: text) with
        | some long => some long
        | none => between? [q] false (q :: text)
      else none

/-- A body, its closing delimiter and what follows make up the text. -/
theorem body?_eq_some {delimiter text body rest : Text} {multiline : Bool}
    (h : body? delimiter multiline text = some (body, rest)) :
    text = body ++ delimiter ++ rest := by
  fun_induction body? delimiter multiline text generalizing body rest with
  | case1 => simp at h
  | case2 => simp at h
  | case3 c text ih =>
      obtain ⟨⟨inner, following⟩, hi, heq⟩ := Option.map_eq_some_iff.1 h
      obtain ⟨rfl, rfl⟩ := Prod.mk.inj heq
      simp [ih hi]
  | case4 c text _ _ following hf =>
      obtain ⟨rfl, rfl⟩ := Prod.mk.inj (Option.some.inj h)
      simpa using after?_eq_some_iff.1 hf
  | case5 => simp at h
  | case6 c text _ _ _ _ ih =>
      obtain ⟨⟨inner, following⟩, hi, heq⟩ := Option.map_eq_some_iff.1 h
      obtain ⟨rfl, rfl⟩ := Prod.mk.inj heq
      simp [ih hi]

/-- A literal and what follows it make up the text. -/
theorem between?_eq_some {delimiter text rest : Text} {multiline : Bool} {literal : Literal}
    (h : between? delimiter multiline text = some (literal, rest)) :
    literal.delimiter = delimiter ∧ text = literal.text ++ rest := by
  obtain ⟨inner, hi, h⟩ := Option.bind_eq_some_iff.1 h
  obtain ⟨⟨body, following⟩, hb, heq⟩ := Option.map_eq_some_iff.1 h
  obtain ⟨rfl, rfl⟩ := Prod.mk.inj heq
  refine ⟨rfl, ?_⟩
  rw [after?_eq_some_iff.1 hi, body?_eq_some hb]
  simp [Literal.text]

/-- A literal and what follows it make up the text, whatever delimits it. -/
theorem read?_eq_some {text rest : Text} {literal : Literal}
    (h : read? text = some (literal, rest)) : text = literal.text ++ rest := by
  cases text with
  | nil => simp [read?] at h
  | cons q text =>
      simp only [read?] at h
      split at h
      · split at h
        · rename_i long hl
          obtain rfl := Option.some.inj h
          exact (between?_eq_some hl).2
        · exact (between?_eq_some h).2
      · simp at h

end Literal

end Source

end SdkUpgrade
