import SdkUpgrade.Rule.AccessPath
import SdkUpgrade.Rule.CallShape
import SdkUpgrade.Rule.ModelName
import SdkUpgrade.Rule.Parameter
import SdkUpgrade.Rule.Prompt

/-!
# Rules and their edits

A rule is a change, under an identifier and with a place in the order of application. There are
ten kinds of change, but rules can be over any type of changes that can be recognised in a text.
Applying a rule is one pass over a text, and every hit that changes something is recorded as an
edit. Offsets of an edit refer to the text that the rule was applied to.
-/

namespace SdkUpgrade

/-- A type of changes that can be recognised in a text, given the radius of the context
that they may consult. -/
class Recogniser (κ : Type) where
  hit? : Option Nat → κ → Cursor → Option Hit
  recognises : ∀ radius change, Recognises (hit? radius change)

/-- The kinds of change. -/
inductive Kind where
  | completionCall
  | chatCompletionCall
  | embeddingCall
  | choiceAttributes
  | choiceSubscripts
  | promptMessage
  | modelName
  | shortModelName
  | tokenLimit
  | engineKey
  deriving DecidableEq, Repr

namespace Kind

/-- Every kind of change. -/
def all : List Kind :=
  [completionCall, chatCompletionCall, embeddingCall, choiceAttributes, choiceSubscripts,
   promptMessage, modelName, shortModelName, tokenLimit, engineKey]

/-- The recogniser of a kind, given the radius of the context that it may consult. -/
def hit? (radius : Option Nat) : Kind → Cursor → Option Hit
  | completionCall => RetiredCall.completionHit?
  | chatCompletionCall => RetiredCall.chatCompletionHit?
  | embeddingCall => RetiredCall.embeddingHit?
  | choiceAttributes => ChoiceAccess.attributesHit?
  | choiceSubscripts => ChoiceAccess.subscriptsHit?
  | promptMessage => PromptArgument.hit?
  | modelName => ModelMention.longHit? radius
  | shortModelName => ModelMention.shortHit? radius
  | tokenLimit => tokenLimitHit?
  | engineKey => EngineKey.hit?

/-- The replacement is determined by the matched text alone. -/
def isFixed : Kind → Bool
  | promptMessage | modelName | shortModelName | engineKey => false
  | _ => true

/-- The identifier of the rule of a kind. -/
def id : Kind → Text
  | completionCall => "call-shape.completion"
  | chatCompletionCall => "call-shape.chat-completion"
  | embeddingCall => "call-shape.embedding"
  | choiceAttributes => "access-path.dot"
  | choiceSubscripts => "access-path.subscript"
  | promptMessage => "prompt.messages"
  | modelName => "model.identifier"
  | shortModelName => "model.identifier-short"
  | tokenLimit => "parameter.max-tokens"
  | engineKey => "parameter.engine"

/-- The usual place of a kind in the order of application. -/
def order : Kind → Int
  | completionCall => 10
  | chatCompletionCall => 11
  | embeddingCall => 12
  | choiceAttributes => 20
  | choiceSubscripts => 21
  | promptMessage => 30
  | modelName => 40
  | shortModelName => 41
  | tokenLimit => 50
  | engineKey => 51

/-- What a kind does, in one line. -/
def description : Kind → Text
  | completionCall => "Rewrite one-shot completion calls to chat completion calls."
  | chatCompletionCall => "Rewrite module-level ChatCompletion calls to client chat calls."
  | embeddingCall => "Rewrite module-level Embedding calls to client embedding calls."
  | choiceAttributes => "Rewrite `.choices[N].text` to `.choices[N].message.content`."
  | choiceSubscripts => "Rewrite `[\"choices\"][N][\"text\"]` to `.choices[N].message.content`."
  | promptMessage => "Wrap a chat call's `prompt` string into a single user message."
  | modelName => "Remap quoted legacy model identifiers by usage intent."
  | shortModelName => "Remap short legacy model names assigned to `model`/`engine`."
  | tokenLimit => "Rename `max_tokens` to `max_completion_tokens`."
  | engineKey => "Rename the `engine` parameter to `model`."

/-- Whatever a kind changes is recognised where it stands. -/
theorem recognises_hit? (kind : Kind) (radius : Option Nat) :
    Recognises (kind.hit? radius) := by
  cases kind with
  | completionCall => exact RetiredCall.recognises_completionHit?
  | chatCompletionCall => exact RetiredCall.recognises_map_hit _ _
  | embeddingCall => exact RetiredCall.recognises_map_hit _ _
  | choiceAttributes => exact ChoiceAccess.recognises_attributesHit?
  | choiceSubscripts => exact ChoiceAccess.recognises_subscriptsHit?
  | promptMessage => exact PromptArgument.recognises_hit?
  | modelName => exact ModelMention.recognises_longHit? radius
  | shortModelName => exact ModelMention.recognises_shortHit? radius
  | tokenLimit => exact recognises_tokenLimitHit?
  | engineKey => exact EngineKey.recognises_hit?

instance : Recogniser Kind :=
  ⟨hit?, fun radius kind => kind.recognises_hit? radius⟩

end Kind

/-- A change with its identifier, its place in the order, and whether it is listed as depending on
context. -/
structure Rule (κ : Type := Kind) where
  kind : κ
  id : Text
  order : Int
  contextual : Bool
  deriving DecidableEq, Repr

/-- The record of one change that a rule made. -/
structure Edit where
  ruleId : Text
  start : Nat
  stop : Nat
  before : Text
  after : Text
  deriving DecidableEq, Repr

/-- The edits of a pass, the first of whose pieces begins at the given offset. A hit that changes
nothing leaves no edit. -/
def editsFrom (ruleId : Text) : Nat → List Piece → List Edit
  | _, [] => []
  | offset, .kept _ :: rest => editsFrom ruleId (offset + 1) rest
  | offset, .hit h :: rest =>
      let stop := offset + h.matched.length
      if h.replacement = h.matched then editsFrom ruleId stop rest
      else ⟨ruleId, offset, stop, h.matched, h.replacement⟩ :: editsFrom ruleId stop rest

/-- Without edits, a pass leaves every piece as it was. -/
theorem flatMap_result_of_editsFrom_eq_nil {ruleId : Text} {offset : Nat} {pieces : List Piece}
    (h : editsFrom ruleId offset pieces = []) :
    pieces.flatMap Piece.result = pieces.flatMap Piece.source := by
  induction pieces generalizing offset with
  | nil => rfl
  | cons piece rest ih =>
      cases piece with
      | kept c =>
          simp only [List.flatMap_cons, ih h]
          rfl
      | hit found =>
          simp only [editsFrom] at h
          split at h
          · rename_i hsame
            simp only [List.flatMap_cons, ih h, Piece.result, Piece.source, hsame]
          · simp at h

namespace Rule

/-- The usual rule of a kind. -/
def ofKind (kind : Kind) : Rule :=
  ⟨kind, kind.id, kind.order, !kind.isFixed⟩

variable {κ : Type} [Recogniser κ]

/-- The pieces of a text under the rule. -/
def pieces (rule : Rule κ) (radius : Option Nat) (text : Text) : List Piece :=
  scan (Recogniser.hit? radius rule.kind) text

/-- Under a rule of some kind, the pieces are those of the kind's recogniser. -/
theorem pieces_eq (rule : Rule) (radius : Option Nat) (text : Text) :
    rule.pieces radius text = scan (rule.kind.hit? radius) text :=
  rfl

/-- The text after one pass of the rule. -/
def apply (rule : Rule κ) (radius : Option Nat) (text : Text) : Text :=
  (rule.pieces radius text).flatMap Piece.result

/-- The edits of one pass of the rule. -/
def edits (rule : Rule κ) (radius : Option Nat) (text : Text) : List Edit :=
  editsFrom rule.id 0 (rule.pieces radius text)

/-- The pieces of a text under the rule make up that text. -/
theorem flatMap_source_pieces (rule : Rule κ) (radius : Option Nat) (text : Text) :
    (rule.pieces radius text).flatMap Piece.source = text :=
  flatMap_source_scan (Recogniser.recognises radius rule.kind) text

/-- A rule without edits leaves the text as it is. -/
theorem apply_eq_of_edits_eq_nil (rule : Rule κ) (radius : Option Nat) (text : Text)
    (h : rule.edits radius text = []) : rule.apply radius text = text := by
  rw [apply, flatMap_result_of_editsFrom_eq_nil h]
  exact rule.flatMap_source_pieces radius text

end Rule

end SdkUpgrade
