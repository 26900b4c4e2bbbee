import Galley.Layout.Page

/-!
The layout engine: an online printer. Tokens are held back only until the size of the group or
break they belong to is known, and are then written to the page, so that memory is bounded by the
current line and the open nesting. `Call` is what a caller may ask of a printer, `Printer.call`
what the printer does then.
-/

namespace Galley.Layout

variable {ι : Type} [Columns ι]

/-- A token held back. A negative size is pending: it is the negated total of everything before
the entry, and becomes the entry's size when the total after it is added. -/
structure Entry (ι : Type) where
  token : Token ι
  size : ι

/-- The flat width that an entry leaves behind when it is written. -/
def Entry.flatWidth (e : Entry ι) : ι :=
  match e.token with
  | .lineBreak b => b.width
  | .text _ => e.size
  | _ => 0

/-- The resource use of a render. -/
structure Stats where
  /-- The number of calls. -/
  tokens : Nat
  /-- The largest number of tokens held back at once. -/
  peakBuffer : Nat
  /-- The largest number of undecided groups and breaks. -/
  peakPending : Nat
  deriving DecidableEq, Repr

/-- A render in progress. -/
structure Printer (ι : Type) where
  config : Config ι
  page : Page ι
  /-- Tokens whose layout is not decided yet. -/
  buf : Ring (Entry ι)
  /-- Positions of the pending group starts and breaks of open groups. -/
  scan : Ring Int
  /-- Positions of the starts and last breaks of closed groups. Text may still follow on the same
  line, so they stay pending until the next break. -/
  closed : List Int
  /-- The flat width of everything written out of the buffer. -/
  leftTotal : ι
  /-- The flat width of everything put into the buffer. -/
  rightTotal : ι
  /-- The open groups, innermost first, each with the indentation pushed in it, last first. -/
  scopes : List (List ι)
  stats : Stats
  done : Bool

/-- What a caller may ask of a printer. -/
inductive Call (ι : Type) where
  /-- Text that is never split. -/
  | text (s : Text)
  /-- A break of the given width, indented by the offset past the group when taken. -/
  | lineBreak (width offset : ι)
  /-- A break that is always taken. -/
  | hardBreak
  /-- A break of no width that writes a comma when taken. -/
  | trailingComma
  | groupStart (breaks : Breaks) (offset : ι)
  /-- A group whose broken lines line up with the column where it starts. -/
  | alignStart (breaks : Breaks)
  | groupEnd
  /-- More indentation for the breaks that follow in the innermost group. -/
  | indent (delta : ι)
  /-- Undoes the last indentation of the innermost group. -/
  | outdent
  /-- A raw token. -/
  | emit (token : Token ι)
  /-- The end of the document. -/
  | eof
  deriving DecidableEq, Repr

namespace Call

/-- A space that never breaks. -/
def nbsp : Call ι := .text [0x20]

/-- A break that is one space when flat. -/
def space : Call ι := .lineBreak 1 0

/-- A break that is nothing when flat. -/
def softBreak : Call ι := .lineBreak 0 0

/-- A consistent group. -/
def consistentBox (offset : ι) : Call ι := .groupStart .consistent offset

/-- An inconsistent group. -/
def inconsistentBox (offset : ι) : Call ι := .groupStart .inconsistent offset

end Call

namespace Printer

/-- A printer for one render. A margin or unit of zero takes its standard value. -/
def ofConfig (c : Config ι) : Except Fault (Printer ι) :=
  let c := c.withDefaults
  if c.margin < 0 ∨ maxMargin < c.margin ∨ c.unit < 0 then
    breach (.invalidConfig (Columns.toInt c.margin) (Columns.toInt c.unit))
  else
    .ok {
      config := c
      page := Page.ofConfig c
      buf := .empty
      scan := .empty
      closed := []
      leftTotal := 0
      rightTotal := 0
      scopes := [[]]
      stats := ⟨0, 0, 0⟩
      done := false }

/-- The columns of one indentation level. -/
def unit (p : Printer ι) : ι := p.config.unit

/-- Everything written so far. -/
def output (p : Printer ι) : Text := p.page.sink.text

/-- Whether no decision is pending. The buffer is empty then. -/
def idle (p : Printer ι) : Bool := p.scan.length = 0 ∧ p.closed.isEmpty

/-- Keeps the largest number of undecided entries. -/
def trackPending (p : Printer ι) : Printer ι :=
  { p with
    stats.peakPending := max p.stats.peakPending (p.scan.length + p.closed.length) }

/-- Puts an entry into the buffer. -/
def push (p : Printer ι) (e : Entry ι) : Printer ι :=
  let buf := p.buf.pushBack e
  { p with buf := buf, stats.peakBuffer := max p.stats.peakBuffer buf.length }

/-- Puts a token into the buffer whose size is not known yet. -/
def pushPending (p : Printer ι) (t : Token ι) : Printer ι :=
  let p := p.push ⟨t, -p.rightTotal⟩
  trackPending { p with scan := p.scan.pushBack p.buf.backPos }

/-- Moves a position from the open to the closed ones. -/
def close (p : Printer ι) (pos : Int) : Printer ι :=
  trackPending { p with closed := p.closed ++ [pos] }

/-- Makes the size of a pending entry known: it ends here. -/
def resolve (p : Printer ι) (pos : Int) : Except Fault (Printer ι) := do
  let e ← queue (p.buf.read pos)
  let buf ← queue (p.buf.write pos { e with size := e.size + p.rightTotal })
  return { p with buf := buf }

/-- Resolves everything closed. -/
def resolveClosed (p : Printer ι) : Except Fault (Printer ι) := do
  let p ← p.closed.foldlM resolve p
  return { p with closed := [] }

/-- Whether the innermost pending entry of an open group satisfies a test. -/
def pendingIs (p : Printer ι) (test : Token ι → Bool) : Except Fault Bool :=
  if p.scan.length = 0 then .ok false
  else do
    let pos ← queue p.scan.back
    let e ← queue (p.buf.read pos)
    return test e.token

/-- Whether a token is a break. -/
def isBreak : Token ι → Bool
  | .lineBreak _ => true
  | _ => false

/-- Whether a token starts a group. -/
def isGroupStart : Token ι → Bool
  | .groupStart _ => true
  | _ => false

/-- Writes decided entries from the head of the buffer, at most `fuel` of them. -/
def advanceUpTo : Nat → Printer ι → Except Fault (Printer ι)
  | 0, p => .ok p
  | fuel + 1, p =>
    if p.buf.length = 0 then .ok p
    else do
      let e ← queue p.buf.front
      if e.size < 0 then return p
      let (e, buf) ← queue p.buf.popFront
      let page ← p.page.write e.token e.size
      advanceUpTo fuel { p with
        buf := buf, page := page, leftTotal := p.leftTotal + e.flatWidth }

/-- Writes all decided entries from the head of the buffer. -/
def advance (p : Printer ι) : Except Fault (Printer ι) := advanceUpTo p.buf.length p

/-- Decides the entry at the head of the buffer as broken, if it is pending. -/
def breakHead (p : Printer ι) : Except Fault (Printer ι) := do
  let e ← queue p.buf.front
  if e.size < 0 then
    let head := p.buf.frontPos
    let first ← if p.scan.length = 0 then pure none else some <$> queue p.scan.front
    let p ← if first = some head then do
        let (_, scan) ← queue p.scan.popFront
        pure { p with scan := scan }
      else pure { p with closed := p.closed.erase head }
    let buf ← queue (p.buf.write head { e with size := infiniteWidth })
    return { p with buf := buf }
  else return p

/-- At most `fuel` rounds of `checkStream`. -/
def checkStreamUpTo : Nat → Printer ι → Except Fault (Printer ι)
  | 0, p => .ok p
  | fuel + 1, p =>
    if p.page.sink.space < p.rightTotal - p.leftTotal ∧ 0 < p.buf.length then do
      let p ← p.breakHead
      checkStreamUpTo fuel (← p.advance)
    else .ok p

/-- Writes from the head of the buffer while its content is wider than the rest of the line: the
oldest pending group or break cannot fit whatever follows. Every round shortens the buffer. -/
def checkStream (p : Printer ι) : Except Fault (Printer ι) := checkStreamUpTo p.buf.length p

/-- Totals count from one where a new line of decisions starts. -/
def restart (p : Printer ι) : Printer ι := { p with leftTotal := 1, rightTotal := 1 }

/-- Takes in a group start. -/
def scanStart (p : Printer ι) (g : Group ι) : Printer ι :=
  (if p.idle then restart p else p).pushPending (.groupStart g)

/-- Takes in a group end. A pending break on top is the group's last; a group start on top is its
own, and is missing if the group is already broken. -/
def scanEnd (p : Printer ι) : Except Fault (Printer ι) :=
  if p.idle then do
    return { p with page := ← p.page.write .groupEnd 0 }
  else do
    let closeTop (p : Printer ι) : Except Fault (Printer ι) := do
      let (pos, scan) ← queue p.scan.popBack
      return close { p with scan := scan } pos
    let p ← if ← p.pendingIs isBreak then closeTop p else pure p
    let p ← if ← p.pendingIs isGroupStart then closeTop p else pure p
    (p.push ⟨.groupEnd, 0⟩).advance

/-- Writes what waits for a break of any group. -/
def writeClosed (p : Printer ι) : Except Fault (Printer ι) :=
  if p.closed.isEmpty then .ok p else do (← p.resolveClosed).advance

/-- Resolves the last break of the innermost group, if it is pending. Totals start anew where
nothing is. -/
def resolveLast (p : Printer ι) : Except Fault (Printer ι) :=
  if p.scan.length = 0 then .ok (restart p)
  else do
    if ← p.pendingIs isBreak then
      let (pos, scan) ← queue p.scan.popBack
      resolve { p with scan := scan } pos
    else return p

/-- Takes in a break. -/
def scanBreak (p : Printer ι) (b : Break ι) : Except Fault (Printer ι) := do
  let p ← p.writeClosed
  let p ← p.resolveLast
  let p := p.pushPending (.lineBreak b)
  let p ← checkStream { p with rightTotal := p.rightTotal + b.width }
  p.advance

/-- Takes in text. -/
def scanText (p : Printer ι) (s : Text) : Except Fault (Printer ι) :=
  let w := p.config.width s
  if p.idle then .ok { p with page.sink := p.page.sink.write s w }
  else
    let p := p.push ⟨.text s, w⟩
    checkStream { p with rightTotal := p.rightTotal + w }

/-- Takes in a change of indentation. -/
def scanIndent (p : Printer ι) (delta : ι) : Except Fault (Printer ι) :=
  if p.idle then do return { p with page := ← p.page.write (.indent delta) 0 }
  else .ok (p.push ⟨.indent delta, 0⟩)

/-- Counts a call, unless the document has ended. -/
def count (p : Printer ι) : Except Fault (Printer ι) :=
  if p.done then breach .finished
  else .ok { p with stats.tokens := p.stats.tokens + 1 }

/-- Opens a group. -/
def openGroup (p : Printer ι) (g : Group ι) : Except Fault (Printer ι) := do
  let p ← p.count
  match g.breaks with
  | .unknown code => breach (.unknownBreaks code)
  | _ => return scanStart { p with scopes := [] :: p.scopes } g

/-- Closes the innermost group, and with it the indentation pushed there. -/
def closeGroup (p : Printer ι) : Except Fault (Printer ι) := do
  let p ← p.count
  match p.scopes with
  | _ :: outer :: rest => scanEnd { p with scopes := outer :: rest }
  | _ => breach .endWithoutStart

/-- Adds indentation. -/
def pushIndent (p : Printer ι) (delta : ι) : Except Fault (Printer ι) := do
  let p ← p.count
  if delta < 0 then breach (.negativeIndent (Columns.toInt delta))
  else
    match p.scopes with
    | [] => .error .noFrame
    | scope :: rest => scanIndent { p with scopes := (delta :: scope) :: rest } delta

/-- Undoes the last indentation of the innermost group. -/
def popIndent (p : Printer ι) : Except Fault (Printer ι) := do
  let p ← p.count
  match p.scopes with
  | (delta :: scope) :: rest => scanIndent { p with scopes := scope :: rest } (-delta)
  | _ => breach .outdentWithoutIndent

/-- Takes in a raw token. -/
def emit (p : Printer ι) : Token ι → Except Fault (Printer ι)
  | .text s => do (← p.count).scanText s
  | .lineBreak b => do
    let p ← p.count
    if b.kind = .hard then p.scanBreak { b with blank := 0 }
    else if b.blank < 0 then breach (.negativeBreak (Columns.toInt b.blank))
    else p.scanBreak b
  | .groupStart g => p.openGroup g
  | .groupEnd => p.closeGroup
  | .indent delta =>
    if 0 ≤ delta then p.pushIndent delta
    else if (p.scopes.head?.bind List.head?) = some (-delta) then p.popIndent
    else breach (.unmatchedIndent (Columns.toInt delta))
  | .missing => breach .unknownToken

/-- Resolves the pending breaks outside any group, innermost first, at most `fuel` of them. -/
def resolveScan : Nat → Printer ι → Except Fault (Printer ι)
  | 0, p => .ok p
  | fuel + 1, p =>
    if p.scan.length = 0 then .ok p
    else do
      let (pos, scan) ← queue p.scan.popBack
      resolveScan fuel (← resolve { p with scan := scan } pos)

/-- Ends the document. All groups must be closed. -/
def finish (p : Printer ι) : Except Fault (Printer ι) := do
  let p ← p.count
  let openCount := p.scopes.length - 1
  if 0 < openCount then breach (.openGroups openCount)
  else
    let p ← p.resolveClosed
    let p ← resolveScan p.scan.length p
    let p ← p.advance
    return { p with done := true }

/-- Does what a call asks. -/
def call (p : Printer ι) : Call ι → Except Fault (Printer ι)
  | .text s => do (← p.count).scanText s
  | .lineBreak width offset => do
    let p ← p.count
    if width < 0 then breach (.negativeBreak (Columns.toInt width))
    else p.scanBreak ⟨if width = 0 then .zero else .space, width, offset, []⟩
  | .hardBreak => do (← p.count).scanBreak ⟨.hard, 0, 0, []⟩
  | .trailingComma => do (← p.count).scanBreak ⟨.zero, 0, 0, ","⟩
  | .groupStart breaks offset => p.openGroup ⟨breaks, offset, false⟩
  | .alignStart breaks => p.openGroup ⟨breaks, 0, true⟩
  | .groupEnd => p.closeGroup
  | .indent delta => p.pushIndent delta
  | .outdent => p.popIndent
  | .emit token => p.emit token
  | .eof => p.finish

/-- Does what a sequence of calls asks. -/
def run (p : Printer ι) (calls : List (Call ι)) : Except Fault (Printer ι) := calls.foldlM call p

/-- The printer after a whole document, given as calls without the final `eof`. -/
def print (c : Config ι) (calls : List (Call ι)) : Except Fault (Printer ι) := do
  let p ← ofConfig c
  let p ← p.run calls
  p.finish

end Printer

/-- The text of a whole document, given as calls without the final `eof`. -/
def printCalls (c : Config ι) (calls : List (Call ι)) : Except Fault Text :=
  Printer.output <$> Printer.print c calls

/-- The text of a whole document, given as raw tokens. -/
def render (c : Config ι) (tokens : List (Token ι)) : Except Fault Text :=
  printCalls c (tokens.map Call.emit)

end Galley.Layout
