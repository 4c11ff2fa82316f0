import SdkUpgrade.Source.Call
import SdkUpgrade.Source.Key
import SdkUpgrade.Text.Cursor

/-!
# Renamed parameters

`max_tokens` becomes `max_completion_tokens` wherever it is a key. `engine` becomes `model` where
it is the first key of a line or of an argument list, object or entry, if a quoted value follows
it directly or if it stands inside a call of a `create` method.
-/

namespace SdkUpgrade

open Text

/-- The retired name of the token limit. -/
def tokenLimitName : Text := "max_tokens"

/-- A token limit key gets its new name. -/
def tokenLimitHit? (c : Cursor) : Option Hit :=
  if c.follows isNameChar then none
  else
    match after? tokenLimitName c.after with
    | some rest =>
        if (Source.keyEnd? rest).isSome then some ⟨tokenLimitName, "max_completion_tokens"⟩
        else none
    | none => none

/-- Token limit keys are recognised where they stand. -/
theorem recognises_tokenLimitHit? : Recognises tokenLimitHit? := by
  intro c h hh
  unfold tokenLimitHit? at hh
  split at hh
  · simp at hh
  · split at hh
    · rename_i rest hr
      split at hh
      · obtain rfl := Option.some.inj hh
        refine ⟨?_, rest, (after?_eq_some_iff.1 hr).symm⟩
        show tokenLimitName ≠ []
        decide
      · simp at hh
    · simp at hh

/-- An `engine` key: what stands between the place where it may begin and itself, the quote of the
key (empty if it is bare), its separator, and the quote that opens its value (empty if none
does). -/
structure EngineKey where
  lead : Text
  keyQuote : Text
  separator : Text
  valueQuote : Text
  deriving DecidableEq, Repr

namespace EngineKey

/-- The key as it is written, under the given name. -/
def named (name : Text) (key : EngineKey) : Text :=
  key.lead ++ key.keyQuote ++ name ++ key.keyQuote ++ key.separator ++ key.valueQuote

/-- A character behind which a key may begin. -/
def opensKey (c : Char) : Bool :=
  c == '(' || c == ',' || c == '\x7b'

/-- A line begins at the cursor. -/
def atLineStart (c : Cursor) : Bool :=
  c.before.head?.all (· == '\n')

/-- The key behind the given lead, which whitespace may extend. -/
def behind? (lead text : Text) : Option EngineKey :=
  match Source.key? "engine" (skipBlanks text) with
  | none => none
  | some (keyQuote, rest) =>
      (Source.separator? rest).map fun (separator, rest) =>
        ⟨lead ++ blanks text, keyQuote, separator, (Source.optionalQuote rest).1⟩

/-- The key behind an opening character at the beginning of a text. -/
def behindOpening? : Text → Option EngineKey
  | [] => none
  | c :: text => if opensKey c then behind? [c] text else none

/-- The key whose lead begins at the cursor. -/
def at? (c : Cursor) : Option EngineKey :=
  match if atLineStart c then behind? [] c.after else none with
  | some key => some key
  | none => behindOpening? c.after

/-- The key is an argument of a call of a `create` method. Its lead may be the call's own
parenthesis, so the call is looked for in front of the key itself. -/
def inCreateCall (c : Cursor) (key : EngineKey) : Bool :=
  (Source.enclosingCallee? (key.lead.reverse ++ c.before)).any (endsWith ".create")

/-- A key with a quoted value or inside a `create` call is renamed; any other is passed over. -/
def hit? (c : Cursor) : Option Hit :=
  (at? c).map fun key =>
    ⟨key.named "engine",
      key.named (if key.valueQuote ≠ [] ∨ inCreateCall c key then "model" else "engine")⟩

/-- A key behind a lead is written there. -/
theorem behind?_eq_some {lead text : Text} {key : EngineKey} (h : behind? lead text = some key) :
    key.named "engine" <+: lead ++ text := by
  unfold behind? at h
  split at h
  · simp at h
  · rename_i keyQuote rest hk
    obtain ⟨⟨separator, following⟩, hs, rfl⟩ := Option.map_eq_some_iff.1 h
    have hlead := blanks_append_skipBlanks text
    rw [Source.key?_eq_some hk, Source.separator?_eq_some hs,
      ← Source.optionalQuote_append following] at hlead
    refine ⟨(Source.optionalQuote following).2, ?_⟩
    simpa [named] using hlead

/-- A key is written at the cursor that its lead begins at. -/
theorem at?_eq_some {c : Cursor} {key : EngineKey} (h : at? c = some key) :
    key.named "engine" <+: c.after := by
  unfold at? at h
  split at h
  · rename_i found hf
    obtain rfl := Option.some.inj h
    split at hf
    · simpa using behind?_eq_some hf
    · simp at hf
  · unfold behindOpening? at h
    split at h
    · simp at h
    · rename_i first rest hc
      split at h
      · simpa [hc] using behind?_eq_some h
      · simp at h

/-- A key is written with at least one character. -/
theorem named_ne_nil (name : Text) (key : EngineKey) (h : name ≠ []) : key.named name ≠ [] := by
  simp [named, h]

/-- Keys are recognised where they stand. -/
theorem recognises_hit? : Recognises hit? := by
  intro c h hh
  obtain ⟨key, hk, rfl⟩ := Option.map_eq_some_iff.1 hh
  exact ⟨key.named_ne_nil _ (by decide), at?_eq_some hk⟩

end EngineKey

end SdkUpgrade
