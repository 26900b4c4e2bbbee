import Galley.Yaml.Token.Lexer

/-!
Comments between tokens. A comment on the line of a token is a line comment. Others stand before
what follows them, as its head, or after what they follow, as its foot: they are a foot when they
come right after it and a blank line or a lesser indentation comes next. A gap that opens on the
first line is taken for the top of the source, where a blank line makes no foot.
-/

namespace Galley.Yaml.Lex

/-- How far ahead a comment is looked for. -/
def reach : Nat := 512

/-- Reads a comment that follows on the same line, for the token at `owner`. -/
def lineRemark (owner : Mark) : Lex Unit := do
  let s ← get
  if s.newlines = 0 then
    let gap := (s.rest.takeWhile isBlank).length
    if gap < reach && (← peek gap) == '#' then
      let start := { s.mark with
        index := s.mark.index + gap, column := s.mark.column + gap }
      skip gap
      let text ← takeWhile fun c => !isLineEnd c
      addRemark { owner, start, line := text }

/-- Comments as they are gathered. -/
structure Gathering where
  scanStart : Mark
  owner : Mark
  start : Mark
  text : Text
  /-- The column up to which text is part of the block at hand. -/
  nextIndent : Nat
  recentEmpty : Bool
  firstEmpty : Bool
  /-- The line on which a foot starts, and -1 if none can. -/
  footLine : Int
  line : Nat
  column : Nat
  /-- The number of characters looked at. -/
  ahead : Nat

namespace Gathering

/-- The place that is looked at. -/
def place (g : Gathering) (s : Lexer) : Mark := ⟨s.mark.index + g.ahead, g.line, g.column⟩

/-- Closes the comments gathered so far as a foot. -/
def closeFoot (g : Gathering) (owner : Mark) : Lex Gathering := do
  let stop := g.place (← get)
  addRemark { scanStart := g.scanStart, owner, start := g.start, stop, foot := g.text }
  return { g with scanStart := stop, owner := stop, text := [] }

/-- Moves past the characters looked at, and what is left of their line. -/
def catchUp (target : Int) : Lex Text := do
  repeatStep do
    let s ← get
    if target ≤ s.mark.index then return false
    if isBreak (← peek 0) then
      discard takeBreak
      return true
    if (← peek 0) == endChar then return false
    skip 1
    return true
  takeWhile fun c => !isLineEnd c

/-- The line looked at is empty, or ends the flow collection. -/
def emptyLine (g : Gathering) (last : TokenKind) (c : Char) (closing : Bool) : Lex Gathering := do
  if !closing && g.recentEmpty then return g
  let dedented := decide (g.start.column < g.nextIndent + 1)
  if closing || g.firstEmpty && ((g.start.line : Int) == g.footLine && last != .value || dedented)
  then
    if g.text.isEmpty then return g
    else g.closeFoot (if dedented then g.start else g.owner)
  else if g.text.isEmpty || c == endChar then return g
  else return { g with text := g.text ++ [0x0a] }

/-- Looks at one more character, and returns the gathering and whether it goes on. -/
def step (last : TokenKind) (g : Gathering) : Lex (Gathering × Bool) := do
  let s ← get
  let g := { g with column := g.column + 1 }
  let c ← peek g.ahead
  let onward := fun (g : Gathering) => { g with ahead := g.ahead + 1 }
  if isBlank c then return (onward g, true)
  let closing := s.flowDepth > 0 && (c == ']' || c == '}')
  if closing || isLineEnd c then
    let g ← g.emptyLine last c closing
    if !isBreak c then return (g, false)
    return (onward { g with
      firstEmpty := false, recentEmpty := true, column := 0, line := g.line + 1 }, true)
  let g ←
    if !g.text.isEmpty && g.column < g.nextIndent + 1 && g.column ≠ g.start.column then
      g.closeFoot g.owner
    else pure g
  if c ≠ '#' then return (g, false)
  let g :=
    if g.text.isEmpty then { g with start := g.place s }
    else { g with text := g.text ++ [0x0a] }
  let text ← catchUp (s.mark.index + g.ahead)
  let after ← get
  return ({ g with
    text := g.text ++ text
    recentEmpty := false
    ahead := 1
    column := 0
    line := after.mark.line
    nextIndent := after.indent.toNat }, true)

/-- Looks at characters, `n` at most, until something other than a comment comes. -/
def run (last : TokenKind) : Nat → Gathering → Lex Gathering
  | 0, g => return g
  | n + 1, g => do
    if g.ahead < reach then
      let (g, more) ← g.step last
      if more then run last n g else return g
    else return g

end Gathering

/-- Reads the comments that start here, in a scan that started at `scanStart`. -/
def remarks (scanStart : Mark) : Lex Unit := do
  let s ← get
  let n := s.tokens.size
  let last := s.tokens.getD (n - 1) ⟨.streamStart, {}, {}⟩
  let last :=
    if last.kind = .flowEntry && 1 < n then s.tokens.getD (n - 2) last else last
  let footLine : Int :=
    if scanStart.line = 0 then -1
    else
      let l : Int := (s.mark.line : Int) - s.newlines + 1
      if s.newlines = 0 && 1 < s.mark.column then l + 1 else l
  let g : Gathering := {
    scanStart, owner := last.start, start := {}, text := []
    nextIndent := s.indent.toNat
    recentEmpty := false
    firstEmpty := s.newlines ≤ 1
    footLine, line := s.mark.line, column := s.mark.column, ahead := 0 }
  let g ← g.run last.kind ((reach + 1) * (s.rest.length + 1))
  if !g.text.isEmpty then
    let s ← get
    let stop : Mark := ⟨s.mark.index + g.ahead - 1, g.line, g.column⟩
    addRemark { scanStart := g.scanStart, owner := g.start, start := g.start, stop, head := g.text }

end Galley.Yaml.Lex
