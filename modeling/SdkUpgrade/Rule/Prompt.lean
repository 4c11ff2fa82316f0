import SdkUpgrade.Source.Call
import SdkUpgrade.Source.Literal
import SdkUpgrade.Text.Cursor

/-!
# Prompts of chat calls

A chat call takes a list of messages where a completion took one prompt. A prompt that is a string
literal becomes the only message of such a list, in the notation of its key: quoted keys like the
prompt's own, quoted keys behind an equals sign, and bare keys behind a colon.
-/

namespace SdkUpgrade

open Text

/-- A prompt: the quote of its key (empty if the key is bare), its separator and its value. -/
structure PromptArgument where
  keyQuote : Text
  separator : Text
  value : Source.Literal
  deriving DecidableEq, Repr

namespace PromptArgument

/-- The prompt as it is written. -/
def text (prompt : PromptArgument) : Text :=
  prompt.keyQuote ++ "prompt" ++ prompt.keyQuote ++ prompt.separator ++ prompt.value.text

/-- The list with one message that says what the prompt said. -/
def messages (prompt : PromptArgument) : Text :=
  let value := prompt.value.text
  if prompt.keyQuote ≠ [] then
    let q := prompt.keyQuote
    q ++ "messages" ++ q ++ prompt.separator ++ "[\x7b" ++ q ++ "role" ++ q ++ ": " ++ q ++ "user"
      ++ q ++ ", " ++ q ++ "content" ++ q ++ ": " ++ value ++ "\x7d]"
  else if '=' ∈ prompt.separator then
    "messages" ++ prompt.separator ++ "[\x7b\"role\": \"user\", \"content\": " ++ value ++ "\x7d]"
  else
    let q := prompt.value.delimiter.take 1
    "messages" ++ prompt.separator ++ "[\x7b role: " ++ q ++ "user" ++ q ++ ", content: " ++ value
      ++ " \x7d]"

/-- A character that may not stand in front of the key. -/
def joinsKey (c : Char) : Bool :=
  isWord c || Source.isQuote c || c == '.'

/-- The prompt that begins at the cursor. -/
def at? (c : Cursor) : Option PromptArgument :=
  if c.follows joinsKey then none
  else
    match Source.key? "prompt" c.after with
    | none => none
    | some (keyQuote, rest) =>
        match Source.separator? rest with
        | none => none
        | some (separator, rest) =>
            (Source.Literal.read? rest).map fun (value, _) => ⟨keyQuote, separator, value⟩

/-- The place is inside a chat call. -/
def inChatCall (c : Cursor) : Bool :=
  (Source.enclosingCallee? c.before).any (endsWith "chat.completions.create")

/-- A prompt inside a chat call becomes a message; any other prompt is passed over. -/
def hit? (c : Cursor) : Option Hit :=
  (at? c).map fun prompt =>
    ⟨prompt.text, if inChatCall c then prompt.messages else prompt.text⟩

/-- A prompt is written at the cursor that it was found at. -/
theorem at?_eq_some {c : Cursor} {prompt : PromptArgument} (h : at? c = some prompt) :
    prompt.text <+: c.after := by
  unfold at? at h
  split at h
  · simp at h
  · split at h
    · simp at h
    · rename_i keyQuote rest hk
      split at h
      · simp at h
      · rename_i separator behind hs
        obtain ⟨⟨value, following⟩, hv, rfl⟩ := Option.map_eq_some_iff.1 h
        refine ⟨following, ?_⟩
        rw [Source.key?_eq_some hk, Source.separator?_eq_some hs, Source.Literal.read?_eq_some hv]
        simp [text]

/-- A prompt is written with at least one character. -/
theorem text_ne_nil (prompt : PromptArgument) : prompt.text ≠ [] := by
  simp [text]

/-- Prompts are recognised where they stand. -/
theorem recognises_hit? : Recognises hit? := by
  intro c h hh
  obtain ⟨prompt, hp, rfl⟩ := Option.map_eq_some_iff.1 hh
  exact ⟨prompt.text_ne_nil, at?_eq_some hp⟩

end PromptArgument

end SdkUpgrade
