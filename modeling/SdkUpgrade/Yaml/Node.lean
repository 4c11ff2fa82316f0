import SdkUpgrade.Yaml.Token

/-!
# Nodes of a YAML text

A text holds at most one document, which is a tree of scalars, sequences and mappings. A node can
be given a name by an anchor and used again by an alias. Where a node is missing, an empty plain
scalar takes its place. Collections may be nested up to a limit.
-/

namespace SdkUpgrade

namespace Yaml

/-- A node of a document. -/
inductive Node where
  | scalar (text : Text) (plain : Bool)
  | sequence (items : List Node)
  | mapping (entries : List (Node × Node))

/-- The node that stands where none is written. -/
def Node.missing : Node :=
  scalar [] true

/-- The tokens that are still to be read, the nodes that have names so far, and the number of
collections that are being read. -/
structure Supply where
  tokens : List Token
  anchors : List (Text × Node) := []
  depth : Nat := 0

/-- Reading takes tokens from the supply and may fail. -/
abbrev Reading := StateT Supply (Except Error)

/-- The next token, which must not be a fault. Behind the last one, the text has ended. -/
def nextToken : Reading Token := do
  match (← get).tokens.headD .streamEnd with
  | .fault error => throw error
  | token => return token

/-- Passes over the next token. -/
def passToken : Reading Unit :=
  modify fun s => { s with tokens := s.tokens.drop 1 }

/-- The text is not well formed. -/
def malformed {α : Type} : Reading α :=
  throw .malformed

/-- The largest number of collections within one another. -/
def depthLimit : Nat := 488

/-- Reads what is inside a collection. -/
def inside {α : Type} (read : Reading α) : Reading α := do
  if depthLimit ≤ (← get).depth then throw .tooDeep
  modify fun s => { s with depth := s.depth + 1 }
  let content ← read
  modify fun s => { s with depth := s.depth - 1 }
  return content

/-- The node of a given name. -/
def namedNode (name : Text) : Reading Node := do
  match (← get).anchors.lookup name with
  | some node => return node
  | none => malformed

/-- The name is free. -/
def checkFree (name : Text) : Reading Unit := do
  if ((← get).anchors.lookup name).isSome then malformed

/-- Gives a node a name. -/
def giveName (name : Text) (node : Node) : Reading Unit := do
  checkFree name
  modify fun s => { s with anchors := (name, node) :: s.anchors }

/-- Where a node is read: whether blocks may begin there, and whether a sequence may that is not
indented further than its key. -/
structure Spot where
  block : Bool
  indentless : Bool

/-- Inside brackets. -/
def Spot.inFlow : Spot := ⟨false, false⟩

/-- An item of a block sequence, or a whole document. -/
def Spot.inBlock : Spot := ⟨true, false⟩

/-- A key or a value of a block mapping. -/
def Spot.inEntry : Spot := ⟨true, true⟩

/-- Passes over the comma in front of an item inside brackets, which only the first does without,
and over the closing bracket, if one follows. The answer tells whether there was one. -/
def passComma (first : Bool) (closing : Token) : Reading Bool := do
  if (← nextToken) = closing then
    passToken
    return true
  if first then return false
  if (← nextToken) ≠ .flowEntry then malformed
  passToken
  if (← nextToken) = closing then
    passToken
    return true
  return false

mutual

/-- The node that begins with the next token. -/
def readNode (spot : Spot) : Nat → Reading Node
  | 0 => malformed
  | fuel + 1 => do
      match ← nextToken with
      | .alias name =>
          passToken
          namedNode name
      | .anchor name =>
          passToken
          let _ ← nextToken
          checkFree name
          let node := (← readContent? spot fuel).getD .missing
          giveName name node
          return node
      | _ =>
          match ← readContent? spot fuel with
          | some node => return node
          | none => malformed

/-- The content of a node, if the next token begins one. -/
def readContent? (spot : Spot) : Nat → Reading (Option Node)
  | 0 => malformed
  | fuel + 1 => do
      match ← nextToken with
      | .scalar text plain =>
          passToken
          return some (.scalar text plain)
      | .flowSequenceStart =>
          passToken
          return some (.sequence (← inside (readFlowItems true fuel)))
      | .flowMappingStart =>
          passToken
          return some (.mapping (← inside (readFlowEntries true fuel)))
      | .blockEntry =>
          if spot.indentless then
            return some (.sequence (← inside (readIndentless fuel)))
          else return none
      | .sequenceStart =>
          if spot.block then
            passToken
            return some (.sequence (← inside (readItems fuel)))
          else return none
      | .mappingStart =>
          if spot.block then
            passToken
            return some (.mapping (← inside (readEntries fuel)))
          else return none
      | _ => return none

/-- A node, or the missing one if one of the given tokens follows. -/
def readUnless (stops : List Token) (spot : Spot) : Nat → Reading Node
  | 0 => malformed
  | fuel + 1 => do
      if (← nextToken) ∈ stops then return .missing else readNode spot fuel

/-- The items of a block sequence, up to its end. -/
def readItems : Nat → Reading (List Node)
  | 0 => malformed
  | fuel + 1 => do
      match ← nextToken with
      | .blockEntry =>
          passToken
          let item ← readUnless [.blockEntry, .blockEnd] .inBlock fuel
          return item :: (← readItems fuel)
      | .blockEnd =>
          passToken
          return []
      | _ => malformed

/-- The items of a sequence that is not indented further than its key. -/
def readIndentless : Nat → Reading (List Node)
  | 0 => malformed
  | fuel + 1 => do
      match ← nextToken with
      | .blockEntry =>
          passToken
          let item ← readUnless [.blockEntry, .key, .value, .blockEnd] .inBlock fuel
          return item :: (← readIndentless fuel)
      | _ => return []

/-- The entries of a block mapping, up to its end. -/
def readEntries : Nat → Reading (List (Node × Node))
  | 0 => malformed
  | fuel + 1 => do
      match ← nextToken with
      | .key =>
          passToken
          let key ← readUnless [.key, .value, .blockEnd] .inEntry fuel
          let value ← readEntryValue [.key, .value, .blockEnd] .inEntry fuel
          return (key, value) :: (← readEntries fuel)
      | .blockEnd =>
          passToken
          return []
      | _ => malformed

/-- The value behind the colon of an entry, or the missing one if there is no colon or one of the
given tokens follows it. -/
def readEntryValue (stops : List Token) (spot : Spot) : Nat → Reading Node
  | 0 => malformed
  | fuel + 1 => do
      match ← nextToken with
      | .value =>
          passToken
          readUnless stops spot fuel
      | _ => return .missing

/-- The items of a sequence in brackets, up to its end. A comma stands in front of every item but
the first, and may stand behind the last. An item may be a single entry of a mapping. -/
def readFlowItems (first : Bool) : Nat → Reading (List Node)
  | 0 => malformed
  | fuel + 1 => do
      if ← passComma first .flowSequenceEnd then return []
      match ← nextToken with
      | .key =>
          passToken
          let key ← readUnless [.value, .flowEntry, .flowSequenceEnd] .inFlow fuel
          let value ← readEntryValue [.flowEntry, .flowSequenceEnd] .inFlow fuel
          return .mapping [(key, value)] :: (← readFlowItems false fuel)
      | _ =>
          let item ← readNode .inFlow fuel
          return item :: (← readFlowItems false fuel)

/-- The entries of a mapping in brackets, up to its end. An entry may be a key alone. -/
def readFlowEntries (first : Bool) : Nat → Reading (List (Node × Node))
  | 0 => malformed
  | fuel + 1 => do
      if ← passComma first .flowMappingEnd then return []
      match ← nextToken with
      | .key =>
          passToken
          let key ← readUnless [.value, .flowEntry, .flowMappingEnd] .inFlow fuel
          let value ← readEntryValue [.flowEntry, .flowMappingEnd] .inFlow fuel
          return (key, value) :: (← readFlowEntries false fuel)
      | _ =>
          let key ← readNode .inFlow fuel
          return (key, .missing) :: (← readFlowEntries false fuel)

end

/-- Passes over the directives in front of a document. Only one of them may declare a version, and
its main number must be one. -/
def passDirectives (declared : Bool) : Nat → Reading Unit
  | 0 => malformed
  | fuel + 1 => do
      match ← nextToken with
      | .directive none =>
          passToken
          passDirectives declared fuel
      | .directive (some major) =>
          if declared || major != 1 then malformed
          passToken
          passDirectives true fuel
      | _ => return

/-- Passes over the directives in front of a document and the marker of its beginning. -/
def passDocumentStart (fuel : Nat) : Reading Unit := do
  passDirectives false fuel
  if (← nextToken) ≠ .documentStart then malformed
  passToken

/-- Passes over the markers of the end of a document. -/
def passDocumentEnds : Nat → Reading Unit
  | 0 => malformed
  | fuel + 1 => do
      if (← nextToken) = .documentEnd then
        passToken
        passDocumentEnds fuel

/-- The content of a document. Nothing but its end may follow it. -/
def readDocument (fuel : Nat) : Reading Node := do
  let stops : List Token := [.documentStart, .documentEnd, .streamEnd, .directive none]
  let node ← readUnless stops .inBlock fuel
  passDocumentEnds fuel
  if (← nextToken) = .streamEnd then return node
  passDocumentStart fuel
  malformed

/-- The document of a text, if it has one. -/
def readDocument? (fuel : Nat) : Reading (Option Node) := do
  match ← nextToken with
  | .streamEnd => return none
  | .documentEnd => malformed
  | .directive _ | .documentStart =>
      passDocumentStart fuel
      return some (← readDocument fuel)
  | _ => return some (← readDocument fuel)

/-- The document that the tokens of a text make up, if there is one. -/
def document? (tokens : List Token) : Except Error (Option Node) :=
  (readDocument? (4 * tokens.length + 4)).run' { tokens }

end Yaml

end SdkUpgrade
