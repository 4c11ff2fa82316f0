import SdkUpgrade.Model
import SdkUpgrade.Source.Key
import SdkUpgrade.Text.Cursor
import SdkUpgrade.Window

/-!
# Names of retired models

A quoted name of a retired model gives way to the successor for the intent of the text around it.
Long names count wherever they stand between quotes; a short name counts only as the value of a
`model` or `engine` key.
-/

namespace SdkUpgrade

open Text

/-- A quoted model name, with what was read in front of it to know that it is one. -/
structure ModelMention where
  lead : Text
  quote : Char
  model : Text
  deriving DecidableEq, Repr

namespace ModelMention

/-- The mention as it is written. -/
def text (mention : ModelMention) : Text :=
  mention.lead ++ [mention.quote] ++ mention.model ++ [mention.quote]

/-- The mention of another model in the same place. -/
def naming (model : Text) (mention : ModelMention) : ModelMention :=
  { mention with model := model }

/-- The name among `names` that stands between two equal quotes at the beginning of a text. -/
def quotedName? (names : List Text) : Text → Option (Char × Text)
  | [] => none
  | quote :: rest =>
      if Source.isQuote quote then
        (names.find? fun name => (after? (name ++ [quote]) rest).isSome).map fun name =>
          (quote, name)
      else none

/-- The long name that begins at the cursor. -/
def longAt? (c : Cursor) : Option ModelMention :=
  (quotedName? RetiredModel.longNames c.after).map fun (quote, name) => ⟨[], quote, name⟩

/-- The keys whose value may be a short name. -/
def keys : List Text :=
  ["model", "engine"]

/-- What follows one of the given names in a text, with that name. -/
def afterAny? : (names : List Text) → Text → Option (Text × Text)
  | [], _ => none
  | name :: names, text =>
      match after? name text with
      | some rest => some (name, rest)
      | none => afterAny? names text

/-- The short name whose key begins at the cursor. -/
def shortAt? (c : Cursor) : Option ModelMention :=
  if c.follows isNameChar then none
  else
    match afterAny? keys c.after with
    | none => none
    | some (key, rest) =>
        match Source.keyEnd? rest with
        | none => none
        | some (mark, rest) =>
            (quotedName? RetiredModel.shortNames (skipBlanks rest)).map fun (quote, name) =>
              ⟨key ++ mark ++ blanks rest, quote, name⟩

/-- The intent of the text around a mention that begins at the cursor. -/
def intent (radius : Option Nat) (c : Cursor) (mention : ModelMention) : Intent :=
  let stop := c.offset + mention.text.length
  Intent.classify (Window.around radius c.source c.offset stop).text

/-- The hit of a mention: the successor for the intent around it takes the model's place. -/
def hit (radius : Option Nat) (c : Cursor) (mention : ModelMention) : Hit :=
  ⟨mention.text, (mention.naming (successorOf mention.model (mention.intent radius c))).text⟩

/-- The hit of a long name. -/
def longHit? (radius : Option Nat) (c : Cursor) : Option Hit :=
  (longAt? c).map (hit radius c)

/-- The hit of a short name. -/
def shortHit? (radius : Option Nat) (c : Cursor) : Option Hit :=
  (shortAt? c).map (hit radius c)

/-- A quoted name is one of the given names, and the text begins with it in its quotes. -/
theorem quotedName?_eq_some {names : List Text} {text name : Text} {quote : Char}
    (h : quotedName? names text = some (quote, name)) :
    name ∈ names ∧ [quote] ++ name ++ [quote] <+: text := by
  cases text with
  | nil => simp [quotedName?] at h
  | cons first rest =>
      simp only [quotedName?] at h
      split at h
      · obtain ⟨found, hf, heq⟩ := Option.map_eq_some_iff.1 h
        obtain ⟨rfl, rfl⟩ := Prod.mk.inj heq
        have hfound : (after? (found ++ [first]) rest).isSome := by
          simpa using List.find?_some hf
        obtain ⟨following, hfollowing⟩ := Option.isSome_iff_exists.1 hfound
        refine ⟨List.mem_of_find?_eq_some hf, following, ?_⟩
        rw [after?_eq_some_iff.1 hfollowing]
        simp
      · simp at h

/-- A mention of a long name is written at the cursor that it was found at. -/
theorem longAt?_eq_some {c : Cursor} {mention : ModelMention} (h : longAt? c = some mention) :
    mention.model ∈ RetiredModel.longNames ∧ mention.text <+: c.after := by
  obtain ⟨⟨quote, name⟩, hq, rfl⟩ := Option.map_eq_some_iff.1 h
  simpa [text] using quotedName?_eq_some hq

/-- The name that was read is one of the given names, and the text begins with it. -/
theorem afterAny?_eq_some {names : List Text} {text name rest : Text}
    (h : afterAny? names text = some (name, rest)) : name ∈ names ∧ text = name ++ rest := by
  induction names with
  | nil => simp [afterAny?] at h
  | cons first names ih =>
      unfold afterAny? at h
      split at h
      · rename_i hf
        obtain ⟨rfl, rfl⟩ := Prod.mk.inj (Option.some.inj h)
        exact ⟨by simp, after?_eq_some_iff.1 hf⟩
      · obtain ⟨hm, ht⟩ := ih h
        exact ⟨List.mem_cons_of_mem _ hm, ht⟩

/-- A mention of a short name is written at the cursor that it was found at. -/
theorem shortAt?_eq_some {c : Cursor} {mention : ModelMention} (h : shortAt? c = some mention) :
    mention.model ∈ RetiredModel.shortNames ∧ mention.text <+: c.after := by
  unfold shortAt? at h
  split at h
  · simp at h
  · split at h
    · simp at h
    · rename_i key rest hk
      split at h
      · simp at h
      · rename_i mark behind hm
        obtain ⟨⟨quote, name⟩, hq, rfl⟩ := Option.map_eq_some_iff.1 h
        obtain ⟨hname, following, hf⟩ := quotedName?_eq_some hq
        have hgap := blanks_append_skipBlanks behind
        rw [← hf] at hgap
        refine ⟨hname, following, ?_⟩
        rw [(afterAny?_eq_some hk).2, Source.keyEnd?_eq_some hm]
        simpa [text] using hgap

/-- A mention is written with at least one character. -/
theorem text_ne_nil (mention : ModelMention) : mention.text ≠ [] := by
  simp [text]

/-- Long names are recognised where they stand. -/
theorem recognises_longHit? (radius : Option Nat) : Recognises (longHit? radius) := by
  intro c h hh
  obtain ⟨mention, hm, rfl⟩ := Option.map_eq_some_iff.1 hh
  exact ⟨mention.text_ne_nil, (longAt?_eq_some hm).2⟩

/-- Short names are recognised where they stand. -/
theorem recognises_shortHit? (radius : Option Nat) : Recognises (shortHit? radius) := by
  intro c h hh
  obtain ⟨mention, hm, rfl⟩ := Option.map_eq_some_iff.1 hh
  exact ⟨mention.text_ne_nil, (shortAt?_eq_some hm).2⟩

end ModelMention

end SdkUpgrade
