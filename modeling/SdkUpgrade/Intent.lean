import SdkUpgrade.Text.Classes

/-!
# Usage intent

The intent of a text is read off the keywords that it mentions. A keyword counts where a word
begins, in any letter case; the words of a longer keyword may stand apart by whitespace and
hyphens. Keywords of reasoning outrank keywords of embedding, and a text without either is
general.
-/

namespace SdkUpgrade

open Text

/-- What a text uses a model for. -/
inductive Intent where
  | reasoning
  | embedding
  | general
  deriving DecidableEq, Repr

namespace Intent

/-- The intents in the order in which they are listed. -/
def all : List Intent :=
  [reasoning, embedding, general]

/-- The name of an intent. -/
def name : Intent → Text
  | reasoning => "reasoning"
  | embedding => "embedding"
  | general => "general"

/-- The intent of a given name. -/
def ofName? (name : Text) : Option Intent :=
  all.find? fun intent => decide (intent.name = name)

/-- The strength of an intent as evidence: a stronger one wins over a weaker one. -/
def rank : Intent → Nat
  | reasoning => 2
  | embedding => 1
  | general => 0

/-- A phrase is a sequence of words in lower case. -/
abbrev Phrase := List Text

/-- The phrases that speak of reasoning. -/
def reasoningPhrases : List Phrase :=
  [["reasoning"], ["logic"], ["math"], ["problem", "solving"], ["analysis"], ["complex"],
   ["step", "by", "step"], ["chain", "of", "thought"], ["solve"], ["calculate"]]

/-- The phrases that speak of embeddings. -/
def embeddingPhrases : List Phrase :=
  [["embedding"], ["vector"], ["similarity"], ["search"], ["retrieval"], ["semantic"]]

/-- The ASCII letter that a character counts as when letter case is ignored: the long s, the
Kelvin sign and the two Turkish letters count as s, k and i. -/
def foldCase (c : Char) : Char :=
  if c = '\u017f' then 's'
  else if c = '\u212a' then 'k'
  else if c = '\u0131' ∨ c = '\u0130' then 'i'
  else c.toLower

/-- What follows `word` in `text`, letter case ignored, if the text begins with it. -/
def afterWord? : (word text : Text) → Option Text
  | [], text => some text
  | _ :: _, [] => none
  | c :: word, d :: text => if c = foldCase d then afterWord? word text else none

/-- A character that may stand between two words of a phrase. -/
def isGap (c : Char) : Bool :=
  isBlank c || c == '-'

/-- The text begins with the phrase. -/
def beginsWith : Phrase → Text → Bool
  | [], _ => true
  | [word], text => (afterWord? word text).isSome
  | word :: next :: words, text =>
      match afterWord? word text with
      | some (c :: rest) => isGap c && beginsWith (next :: words) (rest.dropWhile isGap)
      | _ => false

/-- Some word of the text begins one of the phrases. The second argument tells whether a word
character stands in front of the text. -/
def mentionsFrom (phrases : List Phrase) : Bool → Text → Bool
  | _, [] => false
  | inWord, c :: text =>
      (!inWord && phrases.any (beginsWith · (c :: text)))
        || mentionsFrom phrases (isWord c) text

/-- Some word of the text begins one of the phrases. -/
def mentions (phrases : List Phrase) (text : Text) : Bool :=
  mentionsFrom phrases false text

/-- The intent of a text. -/
def classify (text : Text) : Intent :=
  if mentions reasoningPhrases text then reasoning
  else if mentions embeddingPhrases text then embedding
  else general

end Intent

end SdkUpgrade
