import SdkUpgrade.Source.Call
import SdkUpgrade.Text.Classes

/-!
# Retired call shapes

A retired call is a dotted name that ends in a retired method path and is followed by an opening
parenthesis. What stands in front of the method path is its receiver, which is kept, as is the
whitespace in front of the parenthesis.
-/

namespace SdkUpgrade

open Text

/-- A call of a retired method: the receiver, the method path with its leading dot, and the
whitespace in front of the parenthesis. -/
structure RetiredCall where
  receiver : Text
  method : Text
  gap : Text
  deriving DecidableEq, Repr

namespace RetiredCall

/-- The call as it is written, up to its parenthesis. -/
def text (call : RetiredCall) : Text :=
  call.receiver ++ call.method ++ call.gap ++ ['(']

/-- The receiver and the method path of a name that ends in one of the given paths. -/
def splitName? : (methods : List Text) → (name : Text) → Option (Text × Text)
  | [], _ => none
  | method :: methods, name =>
      match before? method name with
      | some receiver => some (receiver, method)
      | none => splitName? methods name

/-- The call of one of the given methods that begins at the cursor. -/
def at? (methods : List Text) (c : Cursor) : Option RetiredCall :=
  match Source.dottedName? c with
  | none => none
  | some (name, rest) =>
      match splitName? methods name with
      | none => none
      | some (receiver, method) =>
          if receiver ≠ [] ∧ (skipBlanks rest).head? = some '(' then
            some ⟨receiver, method, blanks rest⟩
          else none

/-- The hit of a call whose method gives way to another one. -/
def hit (modern : Text) (call : RetiredCall) : Hit :=
  ⟨call.text, text { call with method := modern }⟩

/-- The path of a chat completion. -/
def chatCompletion : Text := ".chat.completions.create"

/-- A one-shot completion becomes a chat completion, unless it is one already. -/
def completionHit? (c : Cursor) : Option Hit :=
  ((at? [".Completion.create", ".completions.create"] c).filter fun call =>
    decide (Source.lastSegment call.receiver ≠ "chat".toList)).map (hit chatCompletion)

/-- A chat completion on the module becomes one on the client. -/
def chatCompletionHit? (c : Cursor) : Option Hit :=
  (at? [".ChatCompletion.create"] c).map (hit chatCompletion)

/-- An embedding on the module becomes one on the client. -/
def embeddingHit? (c : Cursor) : Option Hit :=
  (at? [".Embedding.create"] c).map (hit ".embeddings.create")

/-- A split name is its receiver followed by one of the given paths. -/
theorem splitName?_eq_some {methods : List Text} {name receiver method : Text}
    (h : splitName? methods name = some (receiver, method)) :
    method ∈ methods ∧ name = receiver ++ method := by
  induction methods with
  | nil => simp [splitName?] at h
  | cons first methods ih =>
      unfold splitName? at h
      split at h
      · rename_i hb
        obtain ⟨rfl, rfl⟩ := Prod.mk.inj (Option.some.inj h)
        exact ⟨by simp, before?_eq_some_iff.1 hb⟩
      · obtain ⟨hm, hn⟩ := ih h
        exact ⟨List.mem_cons_of_mem _ hm, hn⟩

/-- A call is written at the cursor that it was found at. -/
theorem at?_eq_some {methods : List Text} {c : Cursor} {call : RetiredCall}
    (h : at? methods c = some call) : call.text <+: c.after := by
  unfold at? at h
  split at h
  · simp at h
  · rename_i name rest hd
    split at h
    · simp at h
    · rename_i receiver method hs
      split at h
      · rename_i hc
        obtain rfl := Option.some.inj h
        obtain ⟨following, hf⟩ := List.head?_eq_some_iff.1 hc.2
        have hgap := blanks_append_skipBlanks rest
        rw [hf] at hgap
        refine ⟨following, ?_⟩
        rw [Source.dottedName?_eq_some hd, (splitName?_eq_some hs).2]
        simp [text, hgap]
      · simp at h

/-- A call is written with at least one character. -/
theorem text_ne_nil (call : RetiredCall) : call.text ≠ [] := by
  simp [text]

/-- The calls of given methods are recognised where they stand. -/
theorem recognises_map_hit (methods : List Text) (modern : Text) :
    Recognises fun c => (at? methods c).map (hit modern) := by
  intro c h hh
  obtain ⟨call, hcall, rfl⟩ := Option.map_eq_some_iff.1 hh
  exact ⟨call.text_ne_nil, at?_eq_some hcall⟩

/-- One-shot completions are recognised where they stand. -/
theorem recognises_completionHit? : Recognises completionHit? := by
  intro c h hh
  obtain ⟨call, hcall, rfl⟩ := Option.map_eq_some_iff.1 hh
  exact ⟨call.text_ne_nil, at?_eq_some (Option.filter_eq_some_iff.1 hcall).1⟩

end RetiredCall

end SdkUpgrade
