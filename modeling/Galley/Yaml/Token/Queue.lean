import Galley.Yaml.Token.Tag

/-!
The queue of tokens. What starts a key shows only at the colon after it, so a token is handed out
when no key can start before it any more, and two more tokens are read ahead for the comments that
belong to it. The tokens that open and close blocks come from the indentation.
-/

namespace Galley.Yaml.Lex

/-- How deep collections may be nested. -/
def maxDepth : Nat := 10000

/-! ## Possible keys -/

/-- Whether a key may still start at a site: it must end on its line, within 1024 characters. -/
def siteValid (level : Nat) : Lex Bool := do
  let s ← get
  let site := s.sites.getD level {}
  if !site.possible then return false
  if site.mark.line < s.mark.line || site.mark.index + 1024 < s.mark.index then
    if site.required then fail site.mark "could not find expected ':'"
    modify fun s => { s with sites := s.sites.setIfInBounds level { site with possible := false } }
    return false
  return true

/-- Gives up the possible key of the flow level at hand. -/
def dropSite : Lex Unit := do
  let s ← get
  let level := s.sites.size - 1
  let site := s.sites.getD level {}
  if site.possible then
    if site.required then fail site.mark "could not find expected ':'"
    set { s with
      sites := s.sites.setIfInBounds level { site with possible := false }
      siteOf := s.siteOf.filter (·.1 ≠ site.token) }

/-- Notes that a key may start here. -/
def noteSite : Lex Unit := do
  let s ← get
  if s.keyAllowed then
    dropSite
    modify fun s =>
      let level := s.sites.size - 1
      let token := s.tokens.size
      { s with
        sites := s.sites.setIfInBounds level {
          possible := true
          required := s.flowDepth = 0 && s.indent = s.mark.column
          token, mark := s.mark }
        siteOf := (token, level) :: s.siteOf.filter (·.1 ≠ token) }

/-- Says whether a key may start after this. -/
def allowKey (allowed : Bool) : Lex Unit := modify fun s => { s with keyAllowed := allowed }

/-- Opens a flow collection. -/
def openFlow : Lex Unit := do
  modify fun s => { s with
    sites := s.sites.push { token := s.tokens.size, mark := s.mark }
    flowDepth := s.flowDepth + 1 }
  if maxDepth < (← get).flowDepth then fail (← here) "exceeded max depth of 10000"

/-- Closes a flow collection. -/
def closeFlow : Lex Unit :=
  modify fun s =>
    if s.flowDepth = 0 then s
    else
      let site := s.sites.getD (s.sites.size - 1) {}
      { s with
        flowDepth := s.flowDepth - 1
        siteOf := s.siteOf.filter (·.1 ≠ site.token)
        sites := s.sites.pop }

/-! ## Indentation -/

/-- Opens a block at a column, before the token of some number if one is given. -/
def openBlock (column : Nat) (number : Option Nat) (kind : TokenKind) (place : Mark) :
    Lex Unit := do
  let s ← get
  if s.flowDepth = 0 && s.indent < column then
    set { s with indents := s.indent :: s.indents, indent := column }
    if maxDepth < s.indents.length + 1 then fail (← here) "exceeded max depth of 10000"
    match number with
    | some n => insertToken n kind place
    | none => addToken kind place place

/-- Where the block at `indent` ends, going back through the remarks that adjoin `place`: a remark
at the column of the block belongs after it. -/
def blockEndPlace (indent : Int) (place : Mark) : List Remark → Int → Mark
  | [], _ => place
  | r :: rest, stop =>
    if r.stop.index < stop then place
    else
      let place := if (r.start.column : Int) = indent + 1 then r.start else place
      blockEndPlace indent place rest r.scanStart.index

/-- Closes the blocks that are indented further than a column. -/
def closeBlocks (column : Int) : List Int → Mark → Lex Unit
  | [], _ => return
  | outer :: rest, place => do
    let s ← get
    if column < s.indent then
      let place := blockEndPlace s.indent place s.remarks.toList.reverse place.index
      addToken .blockEnd place place
      modify fun s => { s with indent := outer, indents := rest }
      closeBlocks column rest place

/-- Closes the blocks that are indented further than a column, after the place where the gap
before it starts. -/
def unindent (column : Int) (gapStart : Mark) : Lex Unit := do
  let s ← get
  if s.flowDepth = 0 then
    closeBlocks column s.indents { gapStart with index := gapStart.index - 1 }

/-! ## Tokens -/

/-- A comment right after the sign of an entry is the head of what follows. -/
def retitle : Lex Unit := do
  let s ← get
  let n := s.tokens.size
  match s.remarks.back?, s.tokens[n - 2]?, s.tokens.back? with
  | some r, some a, some b =>
    if 1 < n && a.kind = .blockSequenceStart && b.kind = .blockEntry && !r.line.isEmpty &&
        !isBreak (← peek 0) then
      let owner := if r.start.line + 1 = s.mark.line then s.mark else r.owner
      set { s with remarks := s.remarks.pop.push { r with head := r.line, line := [], owner } }
  | _, _, _ => return

/-- Moves on to the next token, past blanks, comments and line ends. -/
def skipGap : Lex Unit := do
  let scanStart ← here
  repeatStep do
    lookAhead
    let s ← get
    if s.mark.column = 0 && s.rest.head? = some '\ufeff' then skip 1
    let s ← get
    let tabs := s.flowDepth > 0 || !s.keyAllowed
    discard (takeWhile fun c => c == ' ' || (tabs && c == '\t'))
    retitle
    if (← peek 0) == '#' then remarks scanStart
    if isBreak (← peek 0) then
      discard takeBreak
      if s.flowDepth = 0 then allowKey true
      return true
    return false

/-- The end of the source. -/
def endToken : Lex Unit := do
  let s ← get
  if s.mark.column ≠ 0 then
    set { s with mark := { s.mark with column := 0, line := s.mark.line + 1 } }
  unindent (-1) (← here)
  dropSite
  allowKey false
  let place ← here
  addToken .streamEnd place place

/-- An entry of a block sequence. -/
def entryToken : Lex Unit := do
  let s ← get
  if s.flowDepth = 0 then
    if !s.keyAllowed then fail s.mark "block sequence entries are not allowed in this context"
    openBlock s.mark.column none .blockSequenceStart s.mark
  dropSite
  allowKey true
  markToken .blockEntry 1

/-- The sign of a key. -/
def keyToken : Lex Unit := do
  let s ← get
  if s.flowDepth = 0 then
    if !s.keyAllowed then fail s.mark "mapping keys are not allowed in this context"
    openBlock s.mark.column none .blockMappingStart s.mark
  dropSite
  allowKey (s.flowDepth = 0)
  markToken .key 1

/-- The sign of a value: what started at the possible key is a key. -/
def valueToken : Lex Unit := do
  let level := (← get).sites.size - 1
  if ← siteValid level then
    let s ← get
    let site := s.sites.getD level {}
    insertToken site.token .key site.mark
    openBlock site.mark.column (some site.token) .blockMappingStart site.mark
    modify fun s => { s with
      sites := s.sites.setIfInBounds level { site with possible := false }
      siteOf := s.siteOf.filter (·.1 ≠ site.token) }
    allowKey false
  else
    let s ← get
    if s.flowDepth = 0 then
      if !s.keyAllowed then fail s.mark "mapping values are not allowed in this context"
      openBlock s.mark.column none .blockMappingStart s.mark
    allowKey (s.flowDepth = 0)
  markToken .value 1

/-- The start of a flow collection. -/
def flowStart (kind : TokenKind) : Lex Unit := do
  noteSite
  openFlow
  allowKey true
  markToken kind 1

/-- The end of a flow collection. -/
def flowEnd (kind : TokenKind) : Lex Unit := do
  dropSite
  closeFlow
  allowKey false
  markToken kind 1

/-- What may start a key. -/
def keyStart (read : Lex Unit) : Lex Unit := do
  noteSite
  allowKey false
  read

/-- A scalar of several lines, after which a key may start. -/
def blockToken (style : Style) : Lex Unit := do
  dropSite
  allowKey true
  blockScalar style

/-- The characters that start no plain scalar. -/
def indicators : List Char :=
  ['-', '?', ':', ',', '[', ']', '\x7b', '\x7d', '#', '&', '*', '!', '|', '>', '\x27', '\x22', '%',
    '@', '\x60']

/-- Whether a plain scalar starts with a character, `next` being the one after it. -/
def startsPlain (flow : Bool) (c next : Char) : Bool :=
  !(isGap c || indicators.elem c) || (c == '-' && !isBlank next) ||
    (!flow && (c == '?' || c == ':') && !isGap next)

/-- Reads the token that starts with a character, `next` being the one after it. -/
def tokenAt (flow : Bool) (c next : Char) : Lex Unit := do
  match c with
  | '[' => flowStart .flowSequenceStart
  | '\x7b' => flowStart .flowMappingStart
  | ']' => flowEnd .flowSequenceEnd
  | '\x7d' => flowEnd .flowMappingEnd
  | ',' =>
    dropSite
    allowKey true
    markToken .flowEntry 1
  | '*' => keyStart (named .reference)
  | '&' => keyStart (named .anchor)
  | '!' => keyStart tag
  | '\x27' => keyStart (quotedScalar false)
  | '\x22' => keyStart (quotedScalar true)
  | _ =>
    if c == '-' && isGap next then entryToken
    else if c == '?' && (flow || isGap next) then keyToken
    else if c == ':' && (flow || isGap next) then valueToken
    else if c == '|' && !flow then blockToken .literal
    else if c == '>' && !flow then blockToken .folded
    else if startsPlain flow c next then keyStart plainScalar
    else fail (← here) "found character that cannot start any token"

/-- Reads a token with the comment on its line. A comment after the colon of a block or the comma
of a flow collection belongs to what stands before that. -/
def contentToken : Lex Unit := do
  let s ← get
  let flow := s.flowDepth > 0
  let c ← peek 0
  let owner := match s.tokens.back? with
    | some t => if c == (if flow then ',' else ':') then t.start else s.mark
    | none => s.mark
  tokenAt flow c (← peek 1)
  if (← get).tokens.back?.all (·.kind ≠ .blockEntry) then lineRemark owner

/-- Reads one more token, with those that open or close blocks around it. -/
def fetch : Lex Unit := do
  let gapStart ← here
  skipGap
  unindent (← here).column gapStart
  lookAhead
  let c ← peek 0
  if c == endChar then endToken
  else if (← here).column = 0 && c == '%' then
    unindent (-1) (← here)
    dropSite
    allowKey false
    directive
  else
    match ← atDocumentMark with
    | some kind =>
      unindent (-1) (← here)
      dropSite
      allowKey false
      markToken kind 3
    | none => contentToken

/-- Reads tokens until the first unused one is settled. -/
def settle : Lex Unit := do
  loop ((← get).rest.length + 5) do
    let s ← get
    if s.used + 2 < s.tokens.size then
      match s.siteOf.lookup s.used with
      | none => return false
      | some level => if !(← siteValid level) then return false
    fetch
    return true

end Galley.Yaml.Lex
