import SdkUpgrade.Text.Setting
import SdkUpgrade.Yaml.Styles

/-!
# Tokens of a YAML text

The tokens of a text make its structure explicit: where blocks begin and end, which by indentation
alone, and which scalar is a key. A key is known only when the colon behind it is met, so the
places where a key may have begun are remembered, one for each level of brackets, and the mark of
the key is put in front of it later. A key stands on one line and is at most 1024 characters long.
Where the text goes wrong, the tokens that are settled by then are followed by the fault.
-/

namespace SdkUpgrade

namespace Yaml

/-- A token. -/
inductive Token where
  | sequenceStart
  | mappingStart
  | blockEnd
  | flowSequenceStart
  | flowSequenceEnd
  | flowMappingStart
  | flowMappingEnd
  | blockEntry
  | flowEntry
  | key
  | value
  | alias (name : Text)
  | anchor (name : Text)
  | scalar (text : Text) (plain : Bool)
  /-- A directive, with the main number of the version if it declares one. -/
  | directive (version : Option Nat)
  | documentStart
  | documentEnd
  | streamEnd
  /-- The text goes wrong here. -/
  | fault (error : Error)
  deriving DecidableEq, Repr

/-- A place where a key may have begun. -/
structure KeyStart where
  level : Nat
  token : Nat
  required : Bool
  index : Nat
  line : Nat
  column : Nat
  deriving Repr

/-- What is known in the middle of a text. -/
structure Scanner where
  place : Place
  tokens : List Token := []
  flow : Nat := 0
  indent : Int := -1
  indents : List Int := []
  keyAllowed : Bool := true
  keys : List KeyStart := []
  deriving Repr

namespace Scanner

/-- Adds a token behind the others. -/
def emit (s : Scanner) (token : Token) : Scanner :=
  { s with tokens := s.tokens ++ [token] }

/-- Adds a token in front of the token of the given number. -/
def insert (s : Scanner) (number : Nat) (token : Token) : Scanner :=
  { s with tokens := s.tokens.take number ++ [token] ++ s.tokens.drop number }

/-- The place where a key may have begun on the present level. -/
def keyStart? (s : Scanner) : Option KeyStart :=
  s.keys.find? fun key => key.level == s.flow

/-- A key that began there is on an earlier line, or too far back. -/
def isStale (s : Scanner) (key : KeyStart) : Bool :=
  key.line != s.place.line || 1024 < s.place.index - key.index

/-- No key can have begun on an earlier line, or too far back. -/
def dropStale (s : Scanner) : Except Error Scanner :=
  if s.keys.any fun key => s.isStale key && key.required then .error .malformed
  else .ok { s with keys := s.keys.filter (! s.isStale ·) }

/-- The tokens that no colon can change any more: those in front of every place where
a key may have begun. -/
def settled (s : Scanner) : List Token :=
  let keys := s.keys.filter (! s.isStale ·)
  s.tokens.take ((keys.map (·.token)).foldl min s.tokens.length)

/-- No key begins on the present level any more. -/
def dropKey (s : Scanner) : Except Error Scanner :=
  match s.keyStart? with
  | none => .ok s
  | some key =>
      if key.required then .error .malformed
      else .ok { s with keys := s.keys.filter fun key => key.level != s.flow }

/-- A key may begin here. It must, if the block's indentation says so. -/
def saveKey (s : Scanner) : Except Error Scanner :=
  if s.keyAllowed then do
    let t ← s.dropKey
    let key : KeyStart :=
      { level := s.flow
        token := s.tokens.length
        required := s.flow == 0 && s.indent == s.place.column
        index := s.place.index
        line := s.place.line
        column := s.place.column }
    return { t with keys := key :: t.keys }
  else .ok s

/-- Ends the blocks that are indented further than the given column. -/
def unwind (s : Scanner) (column : Int) : Scanner :=
  if s.flow ≠ 0 then s
  else
    let rec go : List Int → Scanner → Scanner
      | [], s => s
      | outer :: indents, s =>
          if column < s.indent then
            go indents { s.emit .blockEnd with indent := outer, indents := indents }
          else s
    go s.indents s

/-- Begins a block at the given column, if it is further in than the present one. -/
def addIndent (s : Scanner) (column : Nat) : Scanner × Bool :=
  if s.indent < column then
    ({ s with indents := s.indent :: s.indents, indent := column }, true)
  else (s, false)

/-- Skips spaces, comments and line ends up to the next token. -/
def skipToToken : Nat → Scanner → Scanner
  | 0, s => s
  | fuel + 1, s =>
      let p := (s.place.skip (· == ' ')).skipComment
      if p.next.any isBreak then
        skipToToken fuel
          { s with place := p.lineBreak.2, keyAllowed := s.keyAllowed || s.flow == 0 }
      else { s with place := p }

/-- A name of ASCII letters, digits, hyphens and underscores. -/
def isAnchorChar (c : Char) : Bool :=
  c.isAlphanum || c == '-' || c == '_'

/-- The name of an anchor or an alias, behind its indicator. -/
def anchorName (p : Place) : Except Error (Text × Place) :=
  let name := p.step.run isAnchorChar
  let q := p.step.skip isAnchorChar
  let ends (c : Char) : Bool :=
    isSpacing c || c ∈ ['?', ':', ',', ']', '\x7d', '%', '@', '\x60']
  if name = [] ∨ endOr ends q.next = false then .error .malformed else .ok (name, q)

/-- The number at a place of a version. -/
def versionNumber (p : Place) : Except Error (Nat × Place) :=
  match p.run Char.isDigit with
  | [] => .error .malformed
  | digits =>
      if Text.digitLimit < digits.length then .error (.tooManyDigits digits.length)
      else .ok (digits.foldl (fun n c => 10 * n + (c.toNat - 48)) 0, p.skip Char.isDigit)

/-- A directive and the rest of its line. -/
def directive (p : Place) : Except Error (Token × Place) := do
  let name := p.step.run isAnchorChar
  let p := p.step.skip isAnchorChar
  if name = [] ∨ endOr (fun c => c == ' ' || isBreak c) p.next = false then throw .malformed
  if name = "YAML".toList then
    let (major, p) ← versionNumber (p.skip (· == ' '))
    if p.next ≠ some '.' then throw .malformed
    let (_, p) ← versionNumber p.step
    if endOr (fun c => c == ' ' || isBreak c) p.next = false then throw .malformed
    return (.directive (some major), ← blockHeaderEnd p)
  else
    return (.directive none, (p.skip (! isBreak ·)).lineBreak.2)

/-- Takes in a token that ends all blocks: a directive or a document marker. -/
def fetchOutermost (s : Scanner) (token : Except Error (Token × Place)) :
    Except Error Scanner := do
  let s ← (s.unwind (-1)).dropKey
  let (token, p) ← token
  return { s.emit token with place := p, keyAllowed := false }

/-- Takes in an opening bracket. -/
def fetchFlowStart (s : Scanner) (token : Token) : Except Error Scanner := do
  let s ← s.saveKey
  return { s.emit token with place := s.place.step, flow := s.flow + 1, keyAllowed := true }

/-- Takes in a closing bracket. -/
def fetchFlowEnd (s : Scanner) (token : Token) : Except Error Scanner := do
  let s ← s.dropKey
  if s.flow = 0 then throw .malformed
  return { s.emit token with place := s.place.step, flow := s.flow - 1, keyAllowed := false }

/-- Takes in a comma. -/
def fetchFlowEntry (s : Scanner) : Except Error Scanner := do
  let s ← s.dropKey
  return { s.emit .flowEntry with place := s.place.step, keyAllowed := true }

/-- Begins a block of the given kind at this column, where a key or an entry may begin. -/
def beginBlock (s : Scanner) (start : Token) : Except Error Scanner :=
  if s.flow ≠ 0 then .ok s
  else if s.keyAllowed = false then .error .malformed
  else
    let (s, deeper) := s.addIndent s.place.column
    .ok (if deeper then s.emit start else s)

/-- Takes in the hyphen of an entry. -/
def fetchBlockEntry (s : Scanner) : Except Error Scanner := do
  let s ← s.beginBlock .sequenceStart
  let s ← s.dropKey
  return { s.emit .blockEntry with place := s.place.step, keyAllowed := true }

/-- Takes in the question mark of a key. -/
def fetchKey (s : Scanner) : Except Error Scanner := do
  let s ← s.beginBlock .mappingStart
  let s ← s.dropKey
  return { s.emit .key with place := s.place.step, keyAllowed := s.flow == 0 }

/-- Takes in the colon of a value. If a key may have begun before, it did. -/
def fetchValue (s : Scanner) : Except Error Scanner :=
  match s.keyStart? with
  | some key =>
      let s := { s with keys := s.keys.filter fun key => key.level != s.flow }
      let s := s.insert key.token .key
      let s :=
        if s.flow = 0 then
          let (s, deeper) := s.addIndent key.column
          if deeper then s.insert key.token .mappingStart else s
        else s
      .ok { s.emit .value with place := s.place.step, keyAllowed := false }
  | none => do
      let s ← s.beginBlock .mappingStart
      let s ← s.dropKey
      return { s.emit .value with place := s.place.step, keyAllowed := s.flow == 0 }

/-- Takes in a scalar that may be a key. -/
def fetchScalar (s : Scanner) (token : Token) (p : Place) (keyAllowed : Bool) :
    Except Error Scanner := do
  let s ← s.saveKey
  return { s.emit token with place := p, keyAllowed := keyAllowed }

/-- Takes in a block scalar, behind which a key may begin. -/
def fetchBlockScalar (s : Scanner) (fold : Bool) : Except Error Scanner := do
  let s ← s.dropKey
  let (text, p) ← blockScalar fold s.indent s.place
  return { s.emit (.scalar text false) with place := p, keyAllowed := true }

/-- Takes in a quoted scalar. -/
def fetchQuoted (s : Scanner) (double : Bool) : Except Error Scanner := do
  let s ← s.saveKey
  let (text, p) ← quotedScalar double s.place
  return { s.emit (.scalar text false) with place := p, keyAllowed := false }

/-- Takes in a plain scalar. -/
def fetchPlain (s : Scanner) : Except Error Scanner :=
  let (text, p, newLine) := plain (s.flow != 0) (s.indent + 1) s.place
  s.fetchScalar (.scalar text true) p newLine

/-- Takes in an anchor or an alias. -/
def fetchAnchor (s : Scanner) (token : Text → Token) : Except Error Scanner := do
  let (name, p) ← anchorName s.place
  s.fetchScalar (token name) p false

/-- A character that cannot begin a plain scalar. -/
def isIndicator (c : Char) : Bool :=
  c ∈ ['-', '?', ':', ',', '[', ']', '\x7b', '\x7d', '#', '&', '*', '!', '|', '>', '\'', '"', '%',
    '@', '\x60']

/-- A plain scalar begins with this character. A hyphen may begin one if no spacing follows it,
and outside brackets so may a question mark or a colon. -/
def beginsPlain (s : Scanner) (c : Char) : Bool :=
  (!isSpacing c && !isIndicator c)
    || (!endOr isSpacing (s.place.peek 1) &&
      (c == '-' || (s.flow == 0 && (c == '?' || c == ':'))))

/-- Takes in the next token. -/
def fetch (s : Scanner) (c : Char) : Except Error Scanner :=
  let p := s.place
  let spaced := endOr isSpacing (p.peek 1)
  if c = '%' ∧ p.column = 0 then s.fetchOutermost (directive p)
  else if c = '-' ∧ p.column = 0 ∧ p.atMarker then
    s.fetchOutermost (.ok (.documentStart, p.forward 3))
  else if c = '.' ∧ p.column = 0 ∧ p.atMarker then
    s.fetchOutermost (.ok (.documentEnd, p.forward 3))
  else if c = '[' then s.fetchFlowStart .flowSequenceStart
  else if c = '\x7b' then s.fetchFlowStart .flowMappingStart
  else if c = ']' then s.fetchFlowEnd .flowSequenceEnd
  else if c = '\x7d' then s.fetchFlowEnd .flowMappingEnd
  else if c = ',' then s.fetchFlowEntry
  else if c = '-' ∧ spaced then s.fetchBlockEntry
  else if c = '?' ∧ (s.flow ≠ 0 ∨ spaced) then s.fetchKey
  else if c = ':' ∧ (s.flow ≠ 0 ∨ spaced) then s.fetchValue
  else if c = '*' then s.fetchAnchor .alias
  else if c = '&' then s.fetchAnchor .anchor
  else if c = '|' ∧ s.flow = 0 then s.fetchBlockScalar false
  else if c = '>' ∧ s.flow = 0 then s.fetchBlockScalar true
  else if c = '\'' then s.fetchQuoted false
  else if c = '"' then s.fetchQuoted true
  else if s.beginsPlain c then s.fetchPlain
  else .error .malformed

/-- Takes in the next token, or all that remains at the end of the text. The answer tells whether
the text has ended. -/
def advance (s : Scanner) : Except Error (Scanner × Bool) := do
  let s ← (s.skipToToken (s.place.rest.length + 1)).dropStale
  let s := s.unwind s.place.column
  match s.place.next with
  | none =>
      let s ← (s.unwind (-1)).dropKey
      return (s.emit .streamEnd, true)
  | some c => return (← s.fetch c, false)

/-- Takes in tokens up to the end of the text or to a fault. -/
def scan : Nat → Scanner → List Token
  | 0, s => s.settled ++ [.fault .malformed]
  | fuel + 1, s =>
      match s.advance with
      | .ok (s, true) => s.tokens
      | .ok (s, false) => scan fuel s
      | .error error => s.settled ++ [.fault error]

end Scanner

/-- A character that may stand in a text. -/
def isAllowed (c : Char) : Bool :=
  c == '\t' || c == '\n' || c == '\r' || c == '\x85' || (' ' ≤ c && c ≤ '~')
    || (0xa0 ≤ c.toNat && c.toNat ≤ 0xfffd) || 0x10000 ≤ c.toNat

/-- The tokens of a text. A byte order mark at its beginning is skipped. -/
def tokens (text : Text) : List Token :=
  if text.all isAllowed then
    let start := Place.start text
    let place := if start.next = some '\ufeff' then start.step else start
    Scanner.scan (text.length + 2) { place }
  else [.fault .malformed]

end Yaml

end SdkUpgrade
