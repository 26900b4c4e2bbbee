import Galley.Yaml.Token.Remark

/-!
Scalars. The lines of a plain, quoted or folded scalar are joined: a single line end is a space,
and of more line ends all but the first are kept.
-/

namespace Galley.Yaml.Lex

/-- The gap between two words of a plain or quoted scalar. -/
structure Gap where
  /-- Whether a line end was met. -/
  broken : Bool := false
  blanks : Text := []
  first : Text := []
  more : Text := []

namespace Gap

/-- The text that a gap stands for. -/
def toText (g : Gap) : Text :=
  if g.broken then
    if g.first.head? = some 0x0a then
      if g.more.isEmpty then [0x20] else g.more
    else g.first ++ g.more
  else g.blanks

/-- Reads spaces, tabs and line ends. In a plain scalar a tab may not stand before `margin`. -/
def read (g : Gap) (start : Mark) (margin : Option Int) : Nat → Lex Gap
  | 0 => return g
  | n + 1 => do
    let c ← peek 0
    if isBlank c then
      let column : Int := (← here).column
      if g.broken && c == '\t' && margin.any (column < ·) then
        fail start "found a tab character that violates indentation"
      let t ← takeRun [c]
      read (if g.broken then g else { g with blanks := g.blanks ++ t }) start margin n
    else if isBreak c then
      let t ← takeBreak
      read (if g.broken then { g with more := g.more ++ t }
        else { g with broken := true, blanks := [], first := t }) start margin n
    else return g

end Gap

/-! ## Block scalars -/

/-- What is kept of the line ends after a block scalar. -/
inductive Chomping where
  | strip
  | clip
  | keep

/-- Reads a sign that tells what is kept of the line ends. -/
def chomping? : Lex (Option Chomping) := do
  match ← peek 0 with
  | '+' => skip 1; return some .keep
  | '-' => skip 1; return some .strip
  | _ => return none

/-- Reads a digit that tells the indentation. -/
def increment? (start : Mark) : Lex (Option Nat) := do
  let c ← peek 0
  if c == '0' then fail start "found an indentation indicator equal to 0"
  if c.isDigit then
    skip 1
    return some (c.toNat - 48)
  return none

/-- Reads what follows the sign of a block scalar. -/
def blockHeader (start : Mark) : Lex (Chomping × Option Nat) := do
  match ← chomping? with
  | some c => return (c, ← increment? start)
  | none =>
    match ← increment? start with
    | some n => return ((← chomping?).getD .clip, some n)
    | none => return (.clip, none)

/-- The end of a header: blanks, a comment and a line end. -/
def headerEnd (start : Mark) : Lex Unit := do
  skipBlanks
  if (← peek 0) == '#' then
    lineRemark start
    skipLine
  if !isLineEnd (← peek 0) then fail start "did not find expected comment or line break"
  discard takeBreak

/-- Reads empty lines and the indentation after them. Returns the line ends, the widest
indentation, and the place after the last line end. -/
def emptyLines (start : Mark) (indent : Option Nat) :
    Nat → Text → Nat → Mark → Lex (Text × Nat × Mark)
  | 0, breaks, widest, stop => return (breaks, widest, stop)
  | n + 1, breaks, widest, stop => do
    let s ← get
    let room := match indent with
      | some i => i - s.mark.column
      | none => s.rest.length
    skip ((s.rest.take room).takeWhile (· == ' ')).length
    let column := (← here).column
    let widest := max widest column
    let c ← peek 0
    if c == '\t' && indent.all (column < ·) then
      fail start "found a tab character where an indentation space is expected"
    if isBreak c then
      let t ← takeBreak
      emptyLines start indent n (breaks ++ t) widest (← here)
    else return (breaks, widest, stop)

/-- Reads the lines of a block scalar, of the indentation `indent`. -/
def blockLines (start : Mark) (folds : Bool) (indent : Nat) :
    Nat → Text → Text → Text → Bool → Mark → Lex (Text × Text × Text × Mark)
  | 0, out, first, more, _, stop => return (out, first, more, stop)
  | n + 1, out, first, more, leadingBlank, stop => do
    lookAhead
    let c ← peek 0
    if (← here).column ≠ indent || c == endChar then return (out, first, more, stop)
    let blank := isBlank c
    let joint : Text :=
      if folds && !leadingBlank && !blank && first.head? = some 0x0a then
        if more.isEmpty then [0x20] else []
      else first
    let line ← takeWhile fun c => !isLineEnd c
    let first ← takeBreak
    let size := (← get).rest.length + 1
    let (breaks, _, stop) ← emptyLines start (some indent) size [] 0 (← here)
    blockLines start folds indent n (out ++ joint ++ more ++ line) first breaks blank stop

/-- Reads a block scalar. -/
def blockScalar (style : Style) : Lex Unit := do
  let start ← here
  skip 1
  let (chomping, increment) ← blockHeader start
  headerEnd start
  let s ← get
  let indent := increment.map fun n => if 0 ≤ s.indent then s.indent.toNat + n else n
  let size := s.rest.length + 1
  let (breaks, widest, stop) ← emptyLines start indent size [] 0 s.mark
  let indent := indent.getD (max widest (max (s.indent + 1).toNat 1))
  let (out, first, more, stop) ←
    blockLines start (style == .folded) indent size [] [] breaks false stop
  let tail := match chomping with
    | .strip => []
    | .clip => first
    | .keep => first ++ more
  addToken (.scalar (out ++ tail) style) start stop

/-! ## Quoted scalars -/

/-- The character of a short escape. -/
def shortEscape (c : Char) : Option Nat :=
  [('0', 0x00), ('a', 0x07), ('b', 0x08), ('t', 0x09), ('\t', 0x09), ('n', 0x0a), ('v', 0x0b),
    ('f', 0x0c), ('r', 0x0d), ('e', 0x1b), (' ', 0x20), ('\x22', 0x22), ('\x27', 0x27), ('\\', 0x5c),
    ('N', 0x85), ('_', 0xa0), ('L', 0x2028), ('P', 0x2029)].lookup c

/-- The number of digits of a long escape. -/
def escapeDigits (c : Char) : Option Nat :=
  [('x', 2), ('u', 4), ('U', 8)].lookup c

/-- The value of a hexadecimal digit. -/
def hexDigit? (c : Char) : Option Nat :=
  if c.isDigit then some (c.toNat - 48)
  else if 'a' ≤ c ∧ c ≤ 'f' then some (c.toNat - 87)
  else if 'A' ≤ c ∧ c ≤ 'F' then some (c.toNat - 55)
  else none

/-- Reads an escape. -/
def escape (start : Mark) : Lex Text := do
  let c ← peek 1
  match shortEscape c, escapeDigits c with
  | some code, _ =>
    skip 2
    return Text.encode code
  | none, some digits =>
    skip 2
    let s ← get
    let run := s.rest.take digits
    let values := run.filterMap hexDigit?
    if values.length < digits then fail start "did not find expected hexdecimal number"
    let code := values.foldl (fun v d => v * 16 + d) 0
    if (0xd800 ≤ code && code ≤ 0xdfff) || 0x10ffff < code then
      fail start "found invalid Unicode character escape code"
    skip digits
    return Text.encode code
  | none, none => fail start "found unknown escape character"

/-- Reads a word of a quoted scalar. Returns the word, and whether an escaped line end ends it. -/
def quotedWord (start : Mark) (double : Bool) : Nat → Text → Lex (Text × Bool)
  | 0, out => return (out, false)
  | n + 1, out => do
    let c ← peek 0
    if isGap c then return (out, false)
    if !double && c == '\x27' then
      if (← peek 1) ≠ '\x27' then return (out, false)
      skip 2
      quotedWord start double n (out ++ [0x27])
    else if double && c == '\x22' then return (out, false)
    else if double && c == '\\' then
      if isBreak (← peek 1) then
        skip 1
        discard takeBreak
        return (out, true)
      let t ← escape start
      quotedWord start double n (out ++ t)
    else
      let t ← takeRun [c]
      quotedWord start double n (out ++ t)

/-- Reads the words of a quoted scalar up to its closing quote. -/
def quotedWords (start : Mark) (double : Bool) : Nat → Text → Lex Text
  | 0, out => return out
  | n + 1, out => do
    lookAhead
    if (← atDocumentMark).isSome then fail start "found unexpected document indicator"
    if (← peek 0) == endChar then fail start "found unexpected end of stream"
    let size := (← get).rest.length + 1
    let (word, broken) ← quotedWord start double size []
    if (← peek 0) == (if double then '\x22' else '\x27') then return out ++ word
    let gap : Gap := { broken }
    let gap ← gap.read start none size
    quotedWords start double n (out ++ word ++ gap.toText)

/-- Reads a quoted scalar. -/
def quotedScalar (double : Bool) : Lex Unit := do
  let start ← here
  skip 1
  let value ← quotedWords start double ((← get).rest.length + 1) []
  skip 1
  addToken (.scalar value (if double then .doubleQuoted else .singleQuoted)) start (← here)

/-! ## Plain scalars -/

/-- The characters that mean something inside a flow collection. -/
def flowIndicators : List Char := [',', '?', '[', ']', '\x7b', '\x7d']

/-- The word of a plain scalar at the start of some characters. -/
def plainWord (flow : Bool) : List Char → List Char
  | [] => []
  | c :: rest =>
    if isGap c || (c == ':' && isGap (rest.headD endChar)) || (flow && flowIndicators.elem c) then
      []
    else c :: plainWord flow rest

/-- Reads the words of a plain scalar that is indented to `margin`. Returns its text, where it
stops, and whether a line end was met after the last word. -/
def plainWords (start : Mark) (margin : Int) : Nat → Text → Gap → Mark → Lex (Text × Mark × Bool)
  | 0, out, gap, stop => return (out, stop, gap.broken)
  | n + 1, out, gap, stop => do
    lookAhead
    let s ← get
    if (← atDocumentMark).isSome || (← peek 0) == '#' then return (out, stop, gap.broken)
    let word ← takeRun (plainWord (s.flowDepth > 0) s.rest)
    let (out, gap, stop) ←
      if word.isEmpty then pure (out, gap, stop)
      else do pure (out ++ gap.toText ++ word, ({} : Gap), ← here)
    let c ← peek 0
    if !isBlank c && !isBreak c then return (out, stop, gap.broken)
    let gap ← gap.read start (some margin) (s.rest.length + 1)
    if s.flowDepth = 0 && ((← here).column : Int) < margin then return (out, stop, gap.broken)
    plainWords start margin n out gap stop

/-- Reads a plain scalar. -/
def plainScalar : Lex Unit := do
  let s ← get
  let (value, stop, broken) ←
    plainWords s.mark (s.indent + 1) (s.rest.length + 1) [] {} s.mark
  addToken (.scalar value .plain) s.mark stop
  if broken then modify fun s => { s with keyAllowed := true }

end Galley.Yaml.Lex
