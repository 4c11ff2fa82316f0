import SdkUpgrade.Text.Classes

/-!
# Keys of arguments and of object literals

A key is a name, bare or between two equal quotes, followed by a mark: a colon, or an equals sign
that is not the first half of a comparison. Whitespace may stand on both sides of the mark.
-/

namespace SdkUpgrade

namespace Source

open Text

/-- A quote character. -/
def isQuote (c : Char) : Bool :=
  c == '"' || c == '\''

/-- The whitespace in front of a key's mark together with the mark, and what follows. -/
def mark? (text : Text) : Option (Text × Text) :=
  match skipBlanks text with
  | ':' :: rest => some (blanks text ++ [':'], rest)
  | '=' :: rest => if rest.head? = some '=' then none else some (blanks text ++ ['='], rest)
  | _ => none

/-- A key's mark with the whitespace on both sides of it, and what follows. -/
def separator? (text : Text) : Option (Text × Text) :=
  (mark? text).map fun (mark, rest) => (mark ++ blanks rest, skipBlanks rest)

/-- The quote that stands first in a text, if any, and what follows it. -/
def optionalQuote : Text → Text × Text
  | c :: rest => if isQuote c then ([c], rest) else ([], c :: rest)
  | [] => ([], [])

/-- The key `name`, bare or between two equal quotes: the quote (empty if the key is bare) and
what follows the key. -/
def key? (name text : Text) : Option (Text × Text) :=
  let (quote, rest) := optionalQuote text
  (after? (name ++ quote) rest).map fun rest => (quote, rest)

/-- A quote, if there is one, and a key's mark: what closes a key whose name was just read. -/
def keyEnd? (text : Text) : Option (Text × Text) :=
  let (quote, rest) := optionalQuote text
  (mark? rest).map fun (mark, rest) => (quote ++ mark, rest)

/-- A mark and what follows it make up the text. -/
theorem mark?_eq_some {text mark rest : Text} (h : mark? text = some (mark, rest)) :
    text = mark ++ rest := by
  have hb := blanks_append_skipBlanks text
  unfold mark? at h
  split at h
  · rename_i following hs
    obtain ⟨rfl, rfl⟩ := Prod.mk.inj (Option.some.inj h)
    simpa [hs] using hb.symm
  · rename_i following hs
    split at h
    · simp at h
    · obtain ⟨rfl, rfl⟩ := Prod.mk.inj (Option.some.inj h)
      simpa [hs] using hb.symm
  · simp at h

/-- A separator and what follows it make up the text. -/
theorem separator?_eq_some {text separator rest : Text}
    (h : separator? text = some (separator, rest)) : text = separator ++ rest := by
  obtain ⟨⟨mark, following⟩, hm, heq⟩ := Option.map_eq_some_iff.1 h
  obtain ⟨rfl, rfl⟩ := Prod.mk.inj heq
  rw [mark?_eq_some hm, List.append_assoc, blanks_append_skipBlanks]

/-- A quote and what follows it make up the text. -/
theorem optionalQuote_append (text : Text) :
    (optionalQuote text).1 ++ (optionalQuote text).2 = text := by
  cases text with
  | nil => rfl
  | cons c text => by_cases hq : isQuote c <;> simp [optionalQuote, hq]

/-- A key and what follows it make up the text. -/
theorem key?_eq_some {name text quote rest : Text} (h : key? name text = some (quote, rest)) :
    text = quote ++ name ++ quote ++ rest := by
  have hsplit := optionalQuote_append text
  unfold key? at h
  generalize optionalQuote text = parts at h hsplit
  obtain ⟨following, hf, heq⟩ := Option.map_eq_some_iff.1 h
  obtain ⟨rfl, rfl⟩ := Prod.mk.inj heq
  rw [after?_eq_some_iff.1 hf] at hsplit
  simpa using hsplit.symm

/-- The end of a key and what follows it make up the text. -/
theorem keyEnd?_eq_some {text close rest : Text} (h : keyEnd? text = some (close, rest)) :
    text = close ++ rest := by
  have hsplit := optionalQuote_append text
  unfold keyEnd? at h
  generalize optionalQuote text = parts at h hsplit
  obtain ⟨⟨mark, following⟩, hm, heq⟩ := Option.map_eq_some_iff.1 h
  obtain ⟨rfl, rfl⟩ := Prod.mk.inj heq
  rw [mark?_eq_some hm] at hsplit
  simpa using hsplit.symm

end Source

end SdkUpgrade
