import SdkUpgrade.Source.Call
import SdkUpgrade.Source.Key

/-!
# Access to the text of a choice

The text of a completion's choice is reached by attributes or by subscripts. Both ways become the
one path to the content of the choice's message; the receiver and the index are kept as they are.
-/

namespace SdkUpgrade

open Text

/-- How the text of a choice is reached: by attributes, or by subscripts with the given quotes. -/
inductive AccessForm where
  | attributes
  | subscripts (first second : Char)
  deriving DecidableEq, Repr

/-- An access to the text of a choice. The index includes the whitespace around it. -/
structure ChoiceAccess where
  receiver : Text
  form : AccessForm
  index : Text
  deriving DecidableEq, Repr

namespace ChoiceAccess

/-- The access as it is written. -/
def text (access : ChoiceAccess) : Text :=
  match access.form with
  | .attributes => access.receiver ++ ".choices[" ++ access.index ++ "].text"
  | .subscripts first second =>
      access.receiver ++ "[" ++ [first] ++ "choices" ++ [first] ++ "][" ++ access.index ++ "]["
        ++ [second] ++ "text" ++ [second] ++ "]"

/-- The path that replaces the access. -/
def modern (access : ChoiceAccess) : Text :=
  access.receiver ++ ".choices[" ++ access.index ++ "].message.content"

/-- The hit of an access. -/
def hit (access : ChoiceAccess) : Hit :=
  ⟨access.text, access.modern⟩

/-- An index between brackets, with the whitespace around it, and what follows the brackets. -/
def index? (text : Text) : Option (Text × Text) :=
  match after? "[" text with
  | none => none
  | some inner =>
      let word := (skipBlanks inner).takeWhile isWord
      let rest := (skipBlanks inner).dropWhile isWord
      if word = [] then none
      else
        (after? "]" (skipBlanks rest)).map fun outer =>
          (blanks inner ++ word ++ blanks rest, outer)

/-- A quoted key between brackets: its quote, and what follows the brackets. -/
def quotedKey? (key text : Text) : Option (Char × Text) :=
  match after? "[" text with
  | some (quote :: rest) =>
      if Source.isQuote quote then
        (after? (key ++ [quote] ++ "]") rest).map fun outer => (quote, outer)
      else none
  | _ => none

/-- The access by attributes that begins at the cursor. -/
def attributesAt? (c : Cursor) : Option ChoiceAccess :=
  match Source.dottedName? c with
  | none => none
  | some (name, rest) =>
      match before? ".choices" name, index? rest with
      | some receiver, some (index, rest) =>
          match after? ".text" rest with
          | some rest =>
              if receiver ≠ [] ∧ rest.head?.any isWord = false then
                some ⟨receiver, .attributes, index⟩
              else none
          | none => none
      | _, _ => none

/-- The access by subscripts that begins at the cursor. -/
def subscriptsAt? (c : Cursor) : Option ChoiceAccess :=
  match Source.dottedName? c with
  | none => none
  | some (receiver, rest) =>
      match quotedKey? "choices" rest with
      | none => none
      | some (first, rest) =>
          match index? rest with
          | none => none
          | some (index, rest) =>
              (quotedKey? "text" rest).map fun (second, _) =>
                ⟨receiver, .subscripts first second, index⟩

/-- The hit of an access by attributes. -/
def attributesHit? (c : Cursor) : Option Hit :=
  (attributesAt? c).map hit

/-- The hit of an access by subscripts. -/
def subscriptsHit? (c : Cursor) : Option Hit :=
  (subscriptsAt? c).map hit

/-- An index in its brackets and what follows make up the text. -/
theorem index?_eq_some {text index rest : Text} (h : index? text = some (index, rest)) :
    text = "[" ++ index ++ "]" ++ rest := by
  unfold index? at h
  split at h
  · simp at h
  · rename_i inner hi
    dsimp only at h
    split at h
    · simp at h
    · obtain ⟨outer, ho, heq⟩ := Option.map_eq_some_iff.1 h
      obtain ⟨rfl, rfl⟩ := Prod.mk.inj heq
      have hword : inner = blanks inner ++ ((skipBlanks inner).takeWhile isWord
          ++ (skipBlanks inner).dropWhile isWord) := by
        rw [List.takeWhile_append_dropWhile, blanks_append_skipBlanks]
      have hclose := blanks_append_skipBlanks ((skipBlanks inner).dropWhile isWord)
      rw [after?_eq_some_iff.1 ho] at hclose
      rw [after?_eq_some_iff.1 hi]
      conv => lhs; rw [hword, ← hclose]
      simp

/-- A quoted key in its brackets and what follows make up the text. -/
theorem quotedKey?_eq_some {key text rest : Text} {quote : Char}
    (h : quotedKey? key text = some (quote, rest)) :
    text = "[" ++ [quote] ++ key ++ [quote] ++ "]" ++ rest := by
  unfold quotedKey? at h
  split at h
  · rename_i first inner hi
    split at h
    · obtain ⟨outer, ho, heq⟩ := Option.map_eq_some_iff.1 h
      obtain ⟨rfl, rfl⟩ := Prod.mk.inj heq
      rw [after?_eq_some_iff.1 hi, after?_eq_some_iff.1 ho]
      simp
    · simp at h
  · simp at h

/-- An access by attributes is written at the cursor that it was found at. -/
theorem attributesAt?_eq_some {c : Cursor} {access : ChoiceAccess}
    (h : attributesAt? c = some access) : access.text <+: c.after := by
  unfold attributesAt? at h
  split at h
  · simp at h
  · rename_i name rest hd
    split at h
    · rename_i receiver index inner hr hi
      split at h
      · rename_i following hf
        split at h
        · obtain rfl := Option.some.inj h
          refine ⟨following, ?_⟩
          rw [Source.dottedName?_eq_some hd, before?_eq_some_iff.1 hr, index?_eq_some hi,
            after?_eq_some_iff.1 hf]
          simp [text]
        · simp at h
      · simp at h
    · simp at h

/-- An access by subscripts is written at the cursor that it was found at. -/
theorem subscriptsAt?_eq_some {c : Cursor} {access : ChoiceAccess}
    (h : subscriptsAt? c = some access) : access.text <+: c.after := by
  unfold subscriptsAt? at h
  split at h
  · simp at h
  · rename_i receiver rest hd
    split at h
    · simp at h
    · rename_i first inner hq
      split at h
      · simp at h
      · rename_i index behind hi
        obtain ⟨⟨second, following⟩, hs, rfl⟩ := Option.map_eq_some_iff.1 h
        refine ⟨following, ?_⟩
        rw [Source.dottedName?_eq_some hd, quotedKey?_eq_some hq, index?_eq_some hi,
          quotedKey?_eq_some hs]
        simp [text]

/-- An access is written with at least one character. -/
theorem text_ne_nil (access : ChoiceAccess) : access.text ≠ [] := by
  unfold text
  split <;> simp

/-- Accesses by attributes are recognised where they stand. -/
theorem recognises_attributesHit? : Recognises attributesHit? := by
  intro c h hh
  obtain ⟨access, ha, rfl⟩ := Option.map_eq_some_iff.1 hh
  exact ⟨access.text_ne_nil, attributesAt?_eq_some ha⟩

/-- Accesses by subscripts are recognised where they stand. -/
theorem recognises_subscriptsHit? : Recognises subscriptsHit? := by
  intro c h hh
  obtain ⟨access, ha, rfl⟩ := Option.map_eq_some_iff.1 hh
  exact ⟨access.text_ne_nil, subscriptsAt?_eq_some ha⟩

end ChoiceAccess

end SdkUpgrade
