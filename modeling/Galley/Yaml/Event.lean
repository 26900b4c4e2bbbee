import Galley.Yaml.Token.Queue

/-!
Events: the nodes of a source as they open and close, each with its comments. Tokens become events
by a machine with a stack of what is expected next.
-/

namespace Galley.Yaml

/-- The comments around a node. -/
structure Notes where
  head : Text := []
  line : Text := []
  foot : Text := []
  deriving DecidableEq, Repr, Inhabited

/-- What a node is called and what it is tagged with, if it is. -/
structure Label where
  anchor : Option Text := none
  tag : Text := []
  deriving DecidableEq, Repr

/-- What happens. -/
inductive EventKind where
  | streamStart
  | streamEnd
  | documentStart
  | documentEnd
  | reference (name : Text)
  | scalar (label : Label) (value : Text) (style : Style)
  | sequenceStart (label : Label) (flow : Bool)
  | sequenceEnd
  | mappingStart (label : Label) (flow : Bool)
  | mappingEnd
  deriving DecidableEq, Repr

/-- What happens, where, and the comments around it. -/
structure Event where
  kind : EventKind
  start : Mark
  notes : Notes := {}
  deriving DecidableEq, Repr

/-- What is expected next. -/
inductive Expectation where
  | streamStart
  | implicitDocument
  | document
  | documentContent
  | documentEnd
  | blockNode
  | sequenceEntry (first : Bool)
  | indentlessEntry
  | mappingKey (first : Bool)
  | mappingValue
  | flowEntry (first : Bool)
  | flowEntryKey
  | flowEntryValue
  | flowEntryEnd
  | flowKey (first : Bool)
  | flowValue
  | flowEmptyValue
  | nothing
  deriving DecidableEq, Repr

/-- The state in which events are made. -/
structure Machine where
  lexer : Lexer
  state : Expectation := .streamStart
  states : List Expectation := []
  /-- Where the open collections start. -/
  marks : List Mark := []
  /-- What the handles of tags stand for. -/
  shorthands : List (Text × Text) := []
  /-- Comments that no event has taken yet. -/
  notes : Notes := {}
  /-- The comment before an entry that is itself a collection. -/
  stem : Text := []

/-- Making events may fail. -/
abbrev Make := StateT Machine (Except Problem)

namespace Make

/-- Comments with one more after them. -/
def joinNotes (a b : Text) : Text :=
  if b.isEmpty then a else if a.isEmpty then b else a ++ [0x0a] ++ b

/-- Takes the comments that belong to a token or stand before it. A block that ends has no head:
its comments wait for the next token. -/
def takeRemarks (token : Token) : List Remark → Notes → Nat → Notes × Nat
  | [], notes, n => (notes, n)
  | r :: rest, notes, n =>
    if token.start.index < r.owner.index || (!r.head.isEmpty && token.kind = .blockEnd) then
      (notes, n)
    else
      takeRemarks token rest
        ⟨joinNotes notes.head r.head, joinNotes notes.line r.line, joinNotes notes.foot r.foot⟩
        (n + 1)

/-- The next token. -/
def peek : Make Token := do
  let m ← get
  let (_, lexer) ← Lex.settle m.lexer
  let token := lexer.tokens.getD lexer.used ⟨.streamEnd, lexer.mark, lexer.mark⟩
  let waiting := lexer.remarks.toList.drop lexer.remarksUsed
  let (notes, n) := takeRemarks token waiting m.notes lexer.remarksUsed
  set { m with lexer := { lexer with remarksUsed := n }, notes }
  return token

/-- Uses up the next token. -/
def skip : Make Unit :=
  modify fun m => { m with lexer := { m.lexer with used := m.lexer.used + 1 } }

/-- Says what is expected next. -/
def expect (e : Expectation) : Make Unit := modify fun m => { m with state := e }

/-- Says what is expected after what comes next. -/
def push (e : Expectation) : Make Unit := modify fun m => { m with states := e :: m.states }

/-- Goes back to what was to be expected after what came last. -/
def pop : Make Unit :=
  modify fun m => { m with state := m.states.headD .nothing, states := m.states.tail }

/-- Forgets where the innermost collection starts. -/
def popMark : Make Mark := do
  let m ← get
  set { m with marks := m.marks.tail }
  return m.marks.headD {}

/-- A token stands out of place. -/
def fail {α : Type} (context : Mark) (cause : Text) (place : Mark) : Make α :=
  throw (.structural cause context place)

/-- The comments gathered so far, which are forgotten. -/
def takeNotes : Make Notes := do
  let m ← get
  set { m with notes := {}, stem := [] }
  return m.notes

/-- The comment before an entry that is itself a collection, which is forgotten. -/
def takeStem : Make Notes := do
  let m ← get
  set { m with stem := [] }
  return { head := m.stem }

/-- A scalar that is not written. -/
def emptyScalar (place : Mark) : Make Event := return ⟨.scalar {} [] .plain, place, {}⟩

/-! ## Documents -/

/-- What the handles of tags stand for where nothing else is said. -/
def standardShorthands : List (Text × Text) :=
  [([0x21], [0x21]), ([0x21, 0x21], "tag:yaml.org,2002:")]

/-- Reads directives. -/
def directives : Nat → Bool → List (Text × Text) → Make Unit
  | 0, _, _ => return
  | n + 1, versioned, found => do
    let token ← peek
    match token.kind with
    | .version major minor =>
      if versioned then fail {} "found duplicate %YAML directive" token.start
      if major ≠ 1 || minor ≠ 1 then fail {} "found incompatible YAML document" token.start
      skip
      directives n true found
    | .shorthand handle text =>
      if (found.lookup handle).isSome then fail {} "found duplicate %TAG directive" token.start
      skip
      directives n versioned (found ++ [(handle, text)])
    | _ =>
      let missing := standardShorthands.filter fun s => (found.lookup s.1).isNone
      modify fun m => { m with shorthands := found ++ missing }

/-- Cuts the last lines of a comment off at the last empty line in it, if there is one: the part
before it belongs to the document. Both parts are given backwards. -/
def cutTitle : Text → Text → Text × Text
  | below, 0x0a :: 0x0a :: above => (above.reverse, below)
  | below, b :: above => cutTitle (b :: below) above
  | below, [] => ([], below)

/-- The comment of a document and that of its first node. -/
def splitTitle (head : Text) : Text × Text :=
  match head.reverse with
  | 0x0a :: b :: above => ((b :: above).reverse, [])
  | back => cutTitle [] back

/-- The start of a document, or the end of the stream. -/
def documentStart (implicit : Bool) : Make Event := do
  let token ← peek
  let starts := match token.kind with
    | .version _ _ | .shorthand _ _ | .documentStart | .streamEnd => true
    | _ => false
  if implicit && !starts then
    directives 1 false []
    push .documentEnd
    expect .blockNode
    let m ← get
    let (title, head) := splitTitle m.notes.head
    set { m with notes := { m.notes with head } }
    return ⟨.documentStart, token.start, { head := title }⟩
  else if token.kind = .streamEnd then
    expect .nothing
    skip
    return ⟨.streamEnd, token.start, {}⟩
  else
    directives ((← get).lexer.rest.length + 4) false []
    let next ← peek
    if next.kind ≠ .documentStart then fail {} "did not find expected <document start>" next.start
    push .documentEnd
    expect .documentContent
    skip
    return ⟨.documentStart, token.start, {}⟩

/-- Moves past further ends of a document. -/
def skipDocumentEnds : Nat → Make Unit
  | 0 => return
  | n + 1 => do
    if (← peek).kind = .documentEnd then
      skip
      skipDocumentEnds n

/-- The end of a document. What stands before it is its foot. -/
def documentEnd : Make Event := do
  let token ← peek
  if token.kind = .documentEnd then skip
  modify fun m => { m with shorthands := [] }
  expect .document
  let notes ← takeNotes
  let notes :=
    if !notes.head.isEmpty && notes.foot.isEmpty then { notes with head := [], foot := notes.head }
    else notes
  return ⟨.documentEnd, token.start, notes⟩

/-! ## Nodes -/

/-- The label before a node, as its tokens give it, and where the node starts. -/
structure Heading where
  start : Mark
  anchor : Option Text := none
  tag : Option (Text × Text × Mark) := none

/-- Reads an anchor and a tag, in either order. -/
def heading (token : Token) : Make (Heading × Token) := do
  match token.kind with
  | .anchor name =>
    skip
    let next ← peek
    match next.kind with
    | .tag handle suffix =>
      skip
      return (⟨token.start, some name, some (handle, suffix, next.start)⟩, ← peek)
    | _ => return (⟨token.start, some name, none⟩, next)
  | .tag handle suffix =>
    skip
    let next ← peek
    match next.kind with
    | .anchor name =>
      skip
      return (⟨token.start, some name, some (handle, suffix, token.start)⟩, ← peek)
    | _ => return (⟨token.start, none, some (handle, suffix, token.start)⟩, next)
  | _ => return (⟨token.start, none, none⟩, token)

/-- The label that a heading gives, with the handle of the tag written out. -/
def resolve (h : Heading) : Make Label := do
  match h.tag with
  | none => return ⟨h.anchor, []⟩
  | some (handle, suffix, place) =>
    if handle.isEmpty then return ⟨h.anchor, suffix⟩
    let tag := match (← get).shorthands.lookup handle with
      | some start => start ++ suffix
      | none => []
    if tag.isEmpty then fail h.start "found undefined tag handle" place
    return ⟨h.anchor, tag⟩

/-- A node. In a block it may be a block collection, and as a value of a mapping a sequence that is
not indented. -/
def node (block indentless : Bool) : Make Event := do
  let token ← peek
  match token.kind with
  | .reference name =>
    pop
    let notes ← takeNotes
    skip
    return ⟨.reference name, token.start, notes⟩
  | _ =>
    let (h, token) ← heading token
    let label ← resolve h
    let flowStart := fun (kind : EventKind) (e : Expectation) => do
      expect e
      return ⟨kind, h.start, ← takeNotes⟩
    let blockStart := fun (kind : EventKind) (e : Expectation) => do
      expect e
      return ⟨kind, h.start, ← takeStem⟩
    let unwritten := do
      if label.anchor.isNone && label.tag.isEmpty then
        fail h.start "did not find expected node content" token.start
      pop
      return ⟨.scalar label [] .plain, h.start, {}⟩
    match token.kind with
    | .blockEntry =>
      if indentless then
        expect .indentlessEntry
        return ⟨.sequenceStart label false, h.start, {}⟩
      else unwritten
    | .scalar value style =>
      pop
      let notes ← takeNotes
      skip
      return ⟨.scalar label value style, h.start, notes⟩
    | .flowSequenceStart => flowStart (.sequenceStart label true) (.flowEntry true)
    | .flowMappingStart => flowStart (.mappingStart label true) (.flowKey true)
    | .blockSequenceStart =>
      if block then blockStart (.sequenceStart label false) (.sequenceEntry true) else unwritten
    | .blockMappingStart =>
      if block then blockStart (.mappingStart label false) (.mappingKey true) else unwritten
    | _ => unwritten

/-- Moves into a collection. -/
def enter : Make Unit := do
  let token ← peek
  modify fun m => { m with marks := token.start :: m.marks }
  skip

/-- A part of a collection: a node, after which `next` is expected, or nothing at `place` if a token
follows that cannot start one. -/
def part (next : Expectation) (ends : TokenKind → Bool) (place : Token → Mark)
    (read : Make Event) : Make Event := do
  let token ← peek
  if ends token.kind then
    expect next
    emptyScalar (place token)
  else
    push next
    read

/-- The comment before an entry belongs to the entry, and what follows it to the first node in
it. -/
def splitStem (length : Nat) : Make Unit := do
  if length ≠ 0 then
    let token ← peek
    if token.kind = .blockSequenceStart || token.kind = .blockMappingStart then
      modify fun m => { m with
        stem := m.notes.head.take length
        notes := { m.notes with head := m.notes.head.drop (length + 1) } }

/-- Moves past the sign of an entry. -/
def entrySign (token : Token) : Make Mark := do
  let length := (← get).notes.head.length
  skip
  splitStem length
  return token.stop

/-- Whether a block entry ends before a token. -/
def endsEntry (k : TokenKind) : Bool := k = .blockEntry || k = .blockEnd

/-- Whether an entry of a sequence that is not indented ends before a token. -/
def endsIndentless (k : TokenKind) : Bool :=
  k = .blockEntry || k = .key || k = .value || k = .blockEnd

/-- Whether a key or a value of a block mapping ends before a token. -/
def endsPair (k : TokenKind) : Bool := k = .key || k = .value || k = .blockEnd

/-- An entry of a block sequence, or its end. -/
def sequenceEntry (first : Bool) : Make Event := do
  if first then enter
  let token ← peek
  match token.kind with
  | .blockEntry =>
    let place ← entrySign token
    part (.sequenceEntry false) endsEntry (fun _ => place) (node true false)
  | .blockEnd =>
    pop
    discard popMark
    skip
    return ⟨.sequenceEnd, token.start, {}⟩
  | _ => fail (← popMark) "did not find expected '-' indicator" token.start

/-- An entry of a sequence that is not indented, or its end. -/
def indentlessEntry : Make Event := do
  let token ← peek
  match token.kind with
  | .blockEntry =>
    let place ← entrySign token
    part .indentlessEntry endsIndentless (fun _ => place) (node true false)
  | _ =>
    pop
    return ⟨.sequenceEnd, token.start, {}⟩

/-- A key of a block mapping, or its end. -/
def mappingKey (first : Bool) : Make Event := do
  if first then enter
  let token ← peek
  match token.kind with
  | .key =>
    skip
    part .mappingValue endsPair (fun _ => token.stop) (node true true)
  | .blockEnd =>
    pop
    discard popMark
    let notes ← takeNotes
    skip
    return ⟨.mappingEnd, token.start, notes⟩
  | _ => fail (← popMark) "did not find expected key" token.start

/-- A value of a block mapping. -/
def mappingValue : Make Event := do
  let token ← peek
  if token.kind = .value then
    skip
    part (.mappingKey false) endsPair (fun _ => token.stop) (node true true)
  else
    expect (.mappingKey false)
    emptyScalar token.start

/-- The end of a flow collection. -/
def flowEnd (kind : EventKind) (token : Token) : Make Event := do
  pop
  discard popMark
  let notes ← takeNotes
  skip
  return ⟨kind, token.start, notes⟩

/-- Moves past the comma before any entry but the first. -/
def comma (first : Bool) (cause : Text) : Make Token := do
  let token ← peek
  if first then return token
  if token.kind = .flowEntry then
    skip
    peek
  else fail (← popMark) cause token.start

/-- An entry of a flow sequence, or its end. An entry may be a single pair. -/
def flowEntry (first : Bool) : Make Event := do
  if first then enter
  let token ← peek
  if token.kind = .flowSequenceEnd then flowEnd .sequenceEnd token
  else
    let token ← comma first "did not find expected ',' or ']'"
    match token.kind with
    | .key =>
      expect .flowEntryKey
      skip
      return ⟨.mappingStart {} true, token.start, {}⟩
    | .flowSequenceEnd => flowEnd .sequenceEnd token
    | _ =>
      push (.flowEntry false)
      node false false

/-- The key of a single pair. The token that comes in its place is used up with it. -/
def flowEntryKey : Make Event := do
  let token ← peek
  match token.kind with
  | .value | .flowEntry | .flowSequenceEnd =>
    skip
    expect .flowEntryValue
    emptyScalar token.stop
  | _ =>
    push .flowEntryValue
    node false false

/-- The value after a key, or nothing in its place. -/
def flowValueThen (next : Expectation) (stop : TokenKind) : Make Event := do
  let token ← peek
  if token.kind = .value then
    skip
    part next (fun k => k = .flowEntry || k = stop) (·.start) (node false false)
  else
    expect next
    emptyScalar token.start

/-- A key of a flow mapping, or its end. -/
def flowKey (first : Bool) : Make Event := do
  if first then enter
  let token ← peek
  if token.kind = .flowMappingEnd then flowEnd .mappingEnd token
  else
    let token ← comma first "did not find expected ',' or '\x7d'"
    match token.kind with
    | .key =>
      skip
      part .flowValue (fun k => k = .value || k = .flowEntry || k = .flowMappingEnd) (·.start)
        (node false false)
    | .flowMappingEnd => flowEnd .mappingEnd token
    | _ =>
      push .flowEmptyValue
      node false false

/-- The next event. -/
def next : Make Event := do
  match (← get).state with
  | .streamStart =>
    let token ← peek
    skip
    expect .implicitDocument
    return ⟨.streamStart, token.start, {}⟩
  | .implicitDocument => documentStart true
  | .document =>
    skipDocumentEnds ((← get).lexer.rest.length + 4)
    documentStart false
  | .documentContent =>
    let token ← peek
    match token.kind with
    | .version _ _ | .shorthand _ _ | .documentStart | .documentEnd | .streamEnd =>
      pop
      emptyScalar token.start
    | _ => node true false
  | .documentEnd => documentEnd
  | .blockNode => node true false
  | .sequenceEntry first => sequenceEntry first
  | .indentlessEntry => indentlessEntry
  | .mappingKey first => mappingKey first
  | .mappingValue => mappingValue
  | .flowEntry first => flowEntry first
  | .flowEntryKey => flowEntryKey
  | .flowEntryValue => flowValueThen .flowEntryEnd .flowSequenceEnd
  | .flowEntryEnd =>
    let token ← peek
    expect (.flowEntry false)
    return ⟨.mappingEnd, token.start, {}⟩
  | .flowKey first => flowKey first
  | .flowValue => flowValueThen (.flowKey false) .flowMappingEnd
  | .flowEmptyValue =>
    let token ← peek
    expect (.flowKey false)
    emptyScalar token.start
  | .nothing => return ⟨.streamEnd, {}, {}⟩

end Make

namespace Event

/-- The events from a state on, up to the end of the stream or the first problem. -/
def collect : Nat → Machine → List Event × Option Problem
  | 0, _ => ([], none)
  | n + 1, m =>
    match Make.next m with
    | .error p => ([], some p)
    | .ok (e, m) =>
      if e.kind = .streamEnd then ([e], none)
      else
        let (rest, p) := collect n m
        (e :: rest, p)

/-- The events of a source up to its end or the first problem. -/
def ofText (t : Text) : List Event × Option Problem :=
  let src := Source.ofText t
  collect (8 * src.chars.length + 64) { lexer := { rest := src.chars, fault := src.fault } }

end Event

end Galley.Yaml
