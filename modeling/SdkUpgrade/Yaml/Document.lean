import SdkUpgrade.Cleaning
import SdkUpgrade.Yaml.Node
import SdkUpgrade.Yaml.Scalar

/-!
# The value of a YAML text

The value of a text is the value of its document: scalars by their meaning, sequences as lists,
and mappings as maps. Keys are scalars, and of two entries with one key the last one counts. If
several scalars have no value, the fault of the one nearest to the root counts, and of those at
one depth the first. A text without a document has the value of an empty scalar.
-/

namespace SdkUpgrade

namespace Yaml

/-- A map with one more entry. A key that is there already keeps its place and gets the new value.
-/
def put (key : Scalar) (value : Value) : List (Scalar × Value) → List (Scalar × Value)
  | [] => [(key, value)]
  | (k, v) :: entries =>
      if k.sameKey key then (k, value) :: entries else (k, v) :: put key value entries

/-- The mark of an entry whose mapping's entries are to be taken over. -/
def mergeMark : Text := "<<"

/-- The mark of a default value. -/
def defaultMark : Text := "="

/-- The value of a scalar. The two marks have no value. -/
def scalarValue (text : Text) (plain : Bool) : Except Error Scalar :=
  if plain then
    if text = mergeMark ∨ text = defaultMark then .error .malformed else plainValue text
  else .ok (.text text)

/-- The key that a node stands for. A sequence or a mapping is none. -/
def Node.keyScalar : Node → Except Error Scalar
  | .scalar text plain =>
      if plain ∧ text = defaultMark then .ok (.text text) else scalarValue text plain
  | _ => .error .malformed

/-- The fault of a result, if it is one. -/
def faultOf {α : Type} : Except Error α → List Error
  | .ok _ => []
  | .error error => [error]

/-- Joins lists level by level. -/
def joinLevels {α : Type} : List (List α) → List (List α) → List (List α)
  | [], levels => levels
  | levels, [] => levels
  | level :: levels, level' :: levels' => (level ++ level') :: joinLevels levels levels'

mutual

/-- The faults of the scalars of a node by their depth, in their order at each depth. -/
def Node.faults : Node → List (List Error)
  | .scalar text plain => [faultOf (scalarValue text plain)]
  | .sequence items => [] :: itemFaults items
  | .mapping entries => [] :: entryFaults entries

/-- The faults of the items of a sequence. -/
def itemFaults : List Node → List (List Error)
  | [] => []
  | item :: items => joinLevels item.faults (itemFaults items)

/-- The faults of the entries of a mapping. -/
def entryFaults : List (Node × Node) → List (List Error)
  | [] => []
  | (key, node) :: entries =>
      joinLevels [faultOf key.keyScalar] (joinLevels node.faults (entryFaults entries))

end

mutual

/-- The value of a node whose scalars all have values. -/
def Node.construct : Node → Except Error Value
  | .scalar text plain => (scalarValue text plain).map .scalar
  | .sequence items => (constructItems items).map .list
  | .mapping entries => (constructEntries entries []).map .map

/-- The values of the items of a sequence. -/
def constructItems : List Node → Except Error (List Value)
  | [] => .ok []
  | item :: items => do
      let value ← item.construct
      let values ← constructItems items
      return value :: values

/-- The entries of a map, added to those there are. -/
def constructEntries :
    List (Node × Node) → List (Scalar × Value) → Except Error (List (Scalar × Value))
  | [], known => .ok known
  | (key, node) :: entries, known => do
      let key ← key.keyScalar
      let value ← node.construct
      constructEntries entries (put key value known)

end

/-- The value of a node, or the first of its faults. -/
def Node.value (node : Node) : Except Error Value :=
  match node.faults.flatten with
  | error :: _ => .error error
  | [] => node.construct

/-- The value of a text. -/
def value (text : Text) : Except Error Value := do
  match ← document? (tokens (Cleaning.unifyLineEndings text)) with
  | some node => node.value
  | none => return .scalar .null

end Yaml

end SdkUpgrade
