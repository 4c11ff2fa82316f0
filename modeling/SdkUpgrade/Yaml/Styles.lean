import SdkUpgrade.Yaml.Place

/-!
# The styles of scalars

A scalar is written plainly, between quotes, or as a block. Each style has its own way of folding
lines: a line end alone becomes a space, further line ends are kept. Plain and quoted scalars may
not run over a document marker at the beginning of a line.
-/

namespace SdkUpgrade

namespace Yaml

/-! ## Plain scalars -/

/-- A bracket or a comma, which ends a plain scalar inside brackets. -/
def isFlowMark (c : Char) : Bool :=
  c == ',' || c == '[' || c == ']' || c == '\x7b' || c == '\x7d'

/-- The characters of a plain scalar up to the next spacing or mark. A colon belongs to the scalar
unless spacing follows it, or inside brackets a mark. -/
def plainRun (flow : Bool) : Text → Text
  | [] => []
  | c :: rest =>
      if isSpacing c then []
      else if c = ':' ∧ endOr (fun d => isSpacing d || (flow && isFlowMark d)) rest.head? then []
      else if flow ∧ (isFlowMark c ∨ c = '?') then []
      else c :: plainRun flow rest

/-- Empty lines and the indentation behind them: the line ends, the place behind them, and whether
a document marker was met. -/
def plainBreaks : Nat → Place → Text × Place × Bool
  | 0, p => ([], p, false)
  | fuel + 1, p =>
      match p.next with
      | some ' ' => plainBreaks fuel p.step
      | some c =>
          if isBreak c then
            let (brk, p) := p.lineBreak
            if p.atMarker then (brk, p, true)
            else
              let (breaks, p, marker) := plainBreaks fuel p
              (brk ++ breaks, p, marker)
          else ([], p, false)
      | none => ([], p, false)

/-- A line end and the empty lines behind it, folded. -/
def folded (brk breaks : Text) : Text :=
  if brk ≠ ['\n'] then brk ++ breaks
  else if breaks = [] then [' ']
  else breaks

/-- What stands between two runs of a plain scalar: the spacing that is kept (none at a document
marker), the place behind it, and whether a line ended. -/
def plainSpacing (p : Place) : Text × Place × Bool :=
  let gap := p.run (· == ' ')
  let p := p.skip (· == ' ')
  if p.next.any isBreak then
    let (brk, p) := p.lineBreak
    if p.atMarker then ([], p, true)
    else
      let (breaks, p, marker) := plainBreaks p.rest.length p
      (if marker then [] else folded brk breaks, p, true)
  else (gap, p, false)

/-- A plain scalar from its next run on. `spacing` stands in front of that run, and `newLine`
tells whether a line ended there. The answer has the text, the place behind the scalar, and
whether that place is on a new line. -/
def plainFrom (flow : Bool) (indent : Int) :
    Nat → (spacing : Text) → (newLine : Bool) → Place → Text × Place × Bool
  | 0, _, newLine, p => ([], p, newLine)
  | fuel + 1, spacing, newLine, p =>
      let run := if p.next = some '#' then [] else plainRun flow p.rest
      if run = [] then ([], p, newLine)
      else
        let (gap, q, crossed) := plainSpacing (p.forward run.length)
        if gap = [] ∨ q.next = some '#' ∨ (flow = false ∧ (q.column : Int) < indent) then
          (spacing ++ run, q, crossed)
        else
          let (text, q, newLine) := plainFrom flow indent fuel gap crossed q
          (spacing ++ run ++ text, q, newLine)

/-- The plain scalar that begins here. -/
def plain (flow : Bool) (indent : Int) (p : Place) : Text × Place × Bool :=
  plainFrom flow indent (p.rest.length + 1) [] false p

/-! ## Quoted scalars -/

/-- The character that a one-letter escape stands for. -/
def escaped? : Char → Option Char
  | '0' => some '\x00'
  | 'a' => some '\x07'
  | 'b' => some '\x08'
  | 't' => some '\t'
  | '\t' => some '\t'
  | 'n' => some '\n'
  | 'v' => some '\x0b'
  | 'f' => some '\x0c'
  | 'r' => some '\r'
  | 'e' => some '\x1b'
  | ' ' => some ' '
  | '"' => some '"'
  | '\\' => some '\\'
  | '/' => some '/'
  | 'N' => some '\x85'
  | '_' => some '\xa0'
  | 'L' => some '\u2028'
  | 'P' => some '\u2029'
  | _ => none

/-- The number of digits behind the letter of a numeric escape. -/
def escapeWidth? : Char → Option Nat
  | 'x' => some 2
  | 'u' => some 4
  | 'U' => some 8
  | _ => none

/-- The value of a hexadecimal digit. -/
def hexDigit? (c : Char) : Option Nat :=
  if '0' ≤ c ∧ c ≤ '9' then some (c.toNat - 48)
  else if 'a' ≤ c ∧ c ≤ 'f' then some (c.toNat - 87)
  else if 'A' ≤ c ∧ c ≤ 'F' then some (c.toNat - 55)
  else none

/-- The number with the given hexadecimal digits. -/
def hexNumber? (digits : Text) : Option Nat :=
  (digits.mapM hexDigit?).map fun values => values.foldl (fun n d => 16 * n + d) 0

/-- Empty lines inside a quoted scalar, with the spacing at both ends of each. -/
def quotedBreaks : Nat → Place → Except Error (Text × Place)
  | 0, p => .ok ([], p)
  | fuel + 1, p =>
      if p.atMarker then .error .malformed
      else
        let p := p.skip fun c => c == ' ' || c == '\t'
        if p.next.any isBreak then do
          let (brk, p) := p.lineBreak
          let (breaks, p) ← quotedBreaks fuel p
          return (brk ++ breaks, p)
        else .ok ([], p)

/-- Spacing inside a quoted scalar: kept within a line, folded at its end. -/
def quotedSpacing (p : Place) : Except Error (Text × Place) :=
  let gap := p.run fun c => c == ' ' || c == '\t'
  let p := p.skip fun c => c == ' ' || c == '\t'
  match p.next with
  | none => .error .malformed
  | some c =>
      if isBreak c then do
        let (brk, p) := p.lineBreak
        let (breaks, p) ← quotedBreaks (p.rest.length + 1) p
        return (folded brk breaks, p)
      else .ok (gap, p)

/-- The escape behind a backslash. -/
def escape (p : Place) : Except Error (Text × Place) :=
  match p.next with
  | none => .error .malformed
  | some c =>
      match escaped? c, escapeWidth? c with
      | some d, _ => .ok ([d], p.step)
      | none, some width =>
          let digits := (p.rest.drop 1).take width
          match hexNumber? digits with
          | some n =>
              if digits.length < width then .error .malformed
              else if 0x7fffffff < n then .error .codeTooLarge
              else if 0x10ffff < n then .error .badCodePoint
              else .ok ([Char.ofNat n], p.forward (width + 1))
          | none => .error .malformed
      | none, none =>
          if isBreak c then
            let (_, p) := p.lineBreak
            quotedBreaks (p.rest.length + 1) p
          else .error .malformed

/-- A quoted scalar up to its next spacing or its closing quote. -/
def quotedRun (double : Bool) : Nat → Place → Except Error (Text × Place)
  | 0, p => .ok ([], p)
  | fuel + 1, p =>
      let more (text : Text) (p : Place) : Except Error (Text × Place) := do
        let (rest, p) ← quotedRun double fuel p
        return (text ++ rest, p)
      match p.next with
      | none => .ok ([], p)
      | some c =>
          if isSpacing c then .ok ([], p)
          else if c = '\'' ∧ double = false then
            if p.peek 1 = some '\'' then more ['\''] (p.forward 2) else .ok ([], p)
          else if c = '"' ∧ double then .ok ([], p)
          else if c = '\\' ∧ double then do
            let (text, p) ← escape p.step
            more text p
          else more [c] p.step

/-- A quoted scalar from a place inside it on, with the place behind its closing quote. -/
def quotedFrom (double : Bool) : Nat → Place → Except Error (Text × Place)
  | 0, _ => .error .malformed
  | fuel + 1, p => do
      let (run, p) ← quotedRun double (p.rest.length + 1) p
      if p.next = some (if double then '"' else '\'') then return (run, p.step)
      let (gap, p) ← quotedSpacing p
      let (text, p) ← quotedFrom double fuel p
      return (run ++ gap ++ text, p)

/-- The quoted scalar whose opening quote is here. -/
def quotedScalar (double : Bool) (p : Place) : Except Error (Text × Place) :=
  quotedFrom double (p.rest.length + 1) p.step

/-! ## Block scalars -/

/-- What becomes of the line ends behind a block scalar. -/
inductive Chomping where
  | strip
  | clip
  | keep
  deriving DecidableEq, Repr

/-- The header of a block scalar: what becomes of its last line ends, and its indentation relative
to its parent, if given. -/
def blockHeader (p : Place) : Except Error (Chomping × Option Nat × Place) :=
  let chomping? : Option Char → Option Chomping
    | some '+' => some .keep
    | some '-' => some .strip
    | _ => none
  let digit? : Option Char → Option Nat
    | some c => if c.isDigit then some (c.toNat - 48) else none
    | none => none
  let (chomping, increment, p) : Option Chomping × Option Nat × Place :=
    match chomping? p.next, digit? p.next with
    | some chomping, _ =>
        match digit? (p.peek 1) with
        | some n => (some chomping, some n, p.forward 2)
        | none => (some chomping, none, p.step)
    | none, some n =>
        match chomping? (p.peek 1) with
        | some chomping => (some chomping, some n, p.forward 2)
        | none => (none, some n, p.step)
    | none, none => (none, none, p)
  if increment = some 0 then .error .malformed
  else if endOr (fun c => c == ' ' || isBreak c) p.next then
    .ok (chomping.getD .clip, increment, p)
  else .error .malformed

/-- The rest of the header's line, which may hold a comment. -/
def blockHeaderEnd (p : Place) : Except Error Place :=
  let p := (p.skip (· == ' ')).skipComment
  if endOr isBreak p.next then .ok p.lineBreak.2 else .error .malformed

/-- The empty lines in front of a block scalar without a given indentation: their ends, the
deepest column that they or the first line reach, and the place behind them. -/
def blockLead : Nat → (deepest : Nat) → Place → Text × Nat × Place
  | 0, deepest, p => ([], deepest, p)
  | fuel + 1, deepest, p =>
      match p.next with
      | some ' ' => blockLead fuel (max deepest p.step.column) p.step
      | some c =>
          if isBreak c then
            let (brk, p) := p.lineBreak
            let (breaks, deepest, p) := blockLead fuel deepest p
            (brk ++ breaks, deepest, p)
          else ([], deepest, p)
      | none => ([], deepest, p)

/-- The place behind at most the given indentation. -/
def blockIndent (indent : Nat) (p : Place) : Place :=
  p.forward (min (indent - p.column) (p.run (· == ' ')).length)

/-- Empty lines inside a block scalar of the given indentation. -/
def blockBreaks (indent : Nat) : Nat → Place → Text × Place
  | 0, p => ([], p)
  | fuel + 1, p =>
      let p := blockIndent indent p
      if p.next.any isBreak then
        let (brk, p) := p.lineBreak
        let (breaks, p) := blockBreaks indent fuel p
        (brk ++ breaks, p)
      else ([], p)

/-- The lines of a block scalar, given the line ends in front of them, with the last line end and
the empty lines behind it. -/
def blockLines (fold : Bool) (indent : Nat) :
    Nat → (breaks : Text) → Place → Text × Text × Text × Place
  | 0, breaks, p => ([], [], breaks, p)
  | fuel + 1, breaks, p =>
      if p.column = indent ∧ p.next.isSome then
        let line := p.run (! isBreak ·)
        let (brk, q) := (p.skip (! isBreak ·)).lineBreak
        let (after, q) := blockBreaks indent (q.rest.length + 1) q
        if q.column = indent ∧ q.next.isSome then
          let indented (c : Option Char) : Bool := c = some ' ' || c = some '\t'
          let glue :=
            if fold ∧ brk = ['\n'] ∧ indented p.next = false ∧ indented q.next = false then
              if after = [] then [' '] else []
            else brk
          let (text, last, tail, q) := blockLines fold indent fuel after q
          (breaks ++ line ++ glue ++ text, last, tail, q)
        else (breaks ++ line, brk, after, q)
      else ([], [], breaks, p)

/-- The block scalar whose indicator is here, inside a block of the given indentation. -/
def blockScalar (fold : Bool) (parent : Int) (p : Place) : Except Error (Text × Place) := do
  let (chomping, increment, p) ← blockHeader p.step
  let p ← blockHeaderEnd p
  let least := (max 1 (parent + 1)).toNat
  let (breaks, indent, p) : Text × Nat × Place :=
    match increment with
    | some n =>
        let indent := least + n - 1
        let (breaks, p) := blockBreaks indent (p.rest.length + 1) p
        (breaks, indent, p)
    | none =>
        let (breaks, deepest, p) := blockLead (p.rest.length + 1) 0 p
        (breaks, max least deepest, p)
  let (text, last, tail, p) := blockLines fold indent (p.rest.length + 1) breaks p
  match chomping with
  | .strip => return (text, p)
  | .clip => return (text ++ last, p)
  | .keep => return (text ++ last ++ tail, p)

end Yaml

end SdkUpgrade
