import SdkUpgrade.Intent

/-!
# Retired models and their successors

Every retired model belongs to a tier, and a tier names a successor for each intent. A model that
is not registered has a successor for each intent too.
-/

namespace SdkUpgrade

/-- The capability tier of a retired model. -/
inductive Tier where
  | flagshipChat
  | economyChat
  | fineEmbedding
  | economyEmbedding
  deriving DecidableEq, Repr

namespace Tier

/-- The name of a tier. -/
def name : Tier → Text
  | flagshipChat => "flagship-chat"
  | economyChat => "cost-optimized-chat"
  | fineEmbedding => "high-quality-embedding"
  | economyEmbedding => "cost-optimized-embedding"

/-- The successor that a tier names for an intent. -/
def successor : Tier → Intent → Text
  | flagshipChat, .reasoning => "o1"
  | flagshipChat, _ => "gpt-4.1"
  | economyChat, .reasoning => "o1-mini"
  | economyChat, _ => "gpt-4.1-mini"
  | fineEmbedding, _ => "text-embedding-3-large"
  | economyEmbedding, _ => "text-embedding-3-small"

/-- The intents in the order in which a tier's successors are listed. -/
def listedIntents : Tier → List Intent
  | flagshipChat | economyChat => [.general, .reasoning, .embedding]
  | fineEmbedding | economyEmbedding => Intent.all

end Tier

/-- A retired model with the tier it belongs to and a remark on its successor. -/
structure RetiredModel where
  name : Text
  tier : Tier
  note : Text
  deriving DecidableEq, Repr

namespace RetiredModel

/-- The successor of a model that is used for nothing in particular. -/
def successor (model : RetiredModel) : Text :=
  model.tier.successor .general

/-- Every registered model. -/
def registry : List RetiredModel :=
  [⟨"text-davinci-003", .flagshipChat, "High-quality chat completion"⟩,
   ⟨"text-davinci-002", .flagshipChat, "High-quality chat completion"⟩,
   ⟨"text-davinci-001", .economyChat, "Cost-optimized chat"⟩,
   ⟨"davinci", .flagshipChat, "High-quality chat completion"⟩,
   ⟨"text-curie-001", .economyChat, "Cost-optimized for simple tasks"⟩,
   ⟨"text-babbage-001", .economyChat, "Cost-optimized for simple tasks"⟩,
   ⟨"text-ada-001", .economyChat, "Cost-optimized for simple tasks"⟩,
   ⟨"curie", .economyChat, "Cost-optimized for simple tasks"⟩,
   ⟨"babbage", .economyChat, "Cost-optimized for simple tasks"⟩,
   ⟨"ada", .economyChat, "Cost-optimized for simple tasks"⟩,
   ⟨"text-embedding-ada-002", .fineEmbedding, "High-quality embeddings"⟩,
   ⟨"text-search-ada-doc-001", .economyEmbedding, "Cost-optimized embeddings"⟩,
   ⟨"text-search-ada-query-001", .economyEmbedding, "Cost-optimized embeddings"⟩]

/-- The registered model of a given name. -/
def find? (name : Text) : Option RetiredModel :=
  registry.find? fun model => decide (model.name = name)

/-- Names short enough to be ordinary words. They count as models only where a key says so. -/
def shortNames : List Text :=
  ["davinci", "curie", "babbage", "ada"]

/-- Names that count as models wherever they stand between quotes. -/
def longNames : List Text :=
  (registry.map name).filter fun name => decide (name ∉ shortNames)

end RetiredModel

/-- The successor of a model that is not registered. -/
def unregisteredSuccessor : Intent → Text
  | .reasoning => "o1"
  | .embedding => "text-embedding-3-small"
  | .general => "gpt-4.1"

/-- The successor of a model, registered or not, for an intent. -/
def successorOf (model : Text) (intent : Intent) : Text :=
  match RetiredModel.find? model with
  | some retired => retired.tier.successor intent
  | none => unregisteredSuccessor intent

/-- The successor of a model for the intent of the text around it. -/
def successorIn (model context : Text) : Text :=
  successorOf model (Intent.classify context)

end SdkUpgrade
