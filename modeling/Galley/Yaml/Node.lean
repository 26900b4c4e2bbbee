import Galley.Yaml.Event

/-!
The nodes of a YAML document, made from events. A comment after a pair is kept with its key.
-/

namespace Galley.Yaml

/-- What every node has. -/
structure Info where
  /-- Counted from one. -/
  line : Int64
  column : Int64
  notes : Notes := {}
  anchor : Text := []
  /-- The tag, where the source gives one. -/
  tag : Option Text := none
  deriving DecidableEq, Repr

/-- A node of a document. No source has a document inside another one. -/
inductive Node where
  | scalar (info : Info) (style : Style) (value : Text)
  | reference (info : Info) (name : Text)
  | sequence (info : Info) (flow : Bool) (items : List Node)
  | mapping (info : Info) (flow : Bool) (pairs : List (Node × Node))
  | document (info : Info) (flow : Bool) (nodes : List Node)
  deriving Repr

namespace Node

/-- What every node has. -/
def info : Node → Info
  | .scalar i _ _ => i
  | .reference i _ => i
  | .sequence i _ _ => i
  | .mapping i _ _ => i
  | .document i _ _ => i

/-- The node with something else in place of its comments. -/
def withNotes (f : Notes → Notes) : Node → Node
  | .scalar i s v => .scalar { i with notes := f i.notes } s v
  | .reference i n => .reference { i with notes := f i.notes } n
  | .sequence i f' items => .sequence { i with notes := f i.notes } f' items
  | .mapping i f' pairs => .mapping { i with notes := f i.notes } f' pairs
  | .document i f' nodes => .document { i with notes := f i.notes } f' nodes

/-- The comment after a node. -/
def foot (n : Node) : Text := n.info.notes.foot

/-- The node with a comment after it. -/
def withFoot (n : Node) (t : Text) : Node := n.withNotes fun c => { c with foot := t }

/-- The pairs with a comment after the key of the last one. -/
def footLast (t : Text) : List (Node × Node) → List (Node × Node)
  | [] => []
  | [(k, v)] => [(k.withFoot t, v)]
  | p :: rest => p :: footLast t rest

/-- The pairs with one more. The comment that a key of a block brings along stands before it, after
the pair before; and the comment after a value is kept with its key. -/
def addPair (flow : Bool) (pairs : List (Node × Node)) (k v : Node) : List (Node × Node) :=
  let (pairs, k) :=
    if !flow && !k.foot.isEmpty && !pairs.isEmpty then (footLast k.foot pairs, k.withFoot [])
    else (pairs, k)
  let (k, v) :=
    if k.foot.isEmpty && !v.foot.isEmpty then (k.withFoot v.foot, v.withFoot []) else (k, v)
  pairs ++ [(k, v)]

/-- The comments of a collection that ends: its head is known from its start. -/
def closeNotes (opening closing : Notes) : Notes := { closing with head := opening.head }

/-- A mapping that ends. The comment before the end of a block is kept with its last key. -/
def closeMapping (i : Info) (flow : Bool) (pairs : List (Node × Node)) (closing : Notes) : Node :=
  let notes := closeNotes i.notes closing
  if !flow && !notes.foot.isEmpty && !pairs.isEmpty then
    .mapping { i with notes := { notes with foot := [] } } flow (footLast notes.foot pairs)
  else .mapping { i with notes } flow pairs

/-- The start of the tags that every document knows. -/
def standardTag : Text := "tag:yaml.org,2002:"

/-- A tag as a node keeps it: the tags that every document knows are shortened, and `!` is none. -/
def shortTag (t : Text) : Option Text :=
  if t.isEmpty || t = [0x21] then none
  else if t.startsWith standardTag then some ([0x21, 0x21] ++ t.drop standardTag.length)
  else some t

/-- What a node has that starts with an event. -/
def infoOf (e : Event) (label : Label) : Info :=
  ⟨.ofNat e.start.line + 1, .ofNat e.start.column + 1, e.notes, label.anchor.getD [], shortTag label.tag⟩

end Node

/-- A document. -/
structure Document where
  info : Info
  root : Option Node

/-- The state in which nodes are made: the events that are left, the problem after them, and the
anchors met so far. -/
structure Feed where
  events : List Event
  problem : Option Problem
  anchors : List Text := []

/-- Making nodes may fail. -/
abbrev Build := StateT Feed (Except Problem)

namespace Build

/-- The next event. -/
def peek : Build (Option Event) := do
  let f ← get
  match f.events, f.problem with
  | e :: _, _ => return some e
  | [], some p => throw p
  | [], none => return none

/-- Uses up the next event. -/
def skip : Build Unit := modify fun f => { f with events := f.events.tail }

/-- Notes the anchor of a node. -/
def noteAnchor (label : Label) : Build Unit :=
  match label.anchor with
  | some a => modify fun f => { f with anchors := a :: f.anchors }
  | none => return

mutual

/-- A node. -/
def node : Nat → Build (Option Node)
  | 0 => return none
  | n + 1 => do
    match ← peek with
    | none => return none
    | some e =>
      skip
      match e.kind with
      | .reference name =>
        if (← get).anchors.elem name then return some (.reference (Node.infoOf e {}) name)
        throw (.unknownAnchor name)
      | .scalar label value style =>
        noteAnchor label
        return some (.scalar (Node.infoOf e label) style value)
      | .sequenceStart label flow =>
        noteAnchor label
        sequence n (Node.infoOf e label) flow []
      | .mappingStart label flow =>
        noteAnchor label
        mapping n (Node.infoOf e label) flow []
      | _ => return none

/-- What is left of a sequence, after some items in reverse. -/
def sequence : Nat → Info → Bool → List Node → Build (Option Node)
  | 0, _, _, _ => return none
  | n + 1, i, flow, items => do
    match ← peek with
    | none => return none
    | some e =>
      if e.kind = .sequenceEnd then
        skip
        return some (.sequence { i with notes := Node.closeNotes i.notes e.notes } flow
          items.reverse)
      match ← node n with
      | some item => sequence n i flow (item :: items)
      | none => return none

/-- What is left of a mapping, after some pairs. -/
def mapping : Nat → Info → Bool → List (Node × Node) → Build (Option Node)
  | 0, _, _, _ => return none
  | n + 1, i, flow, pairs => do
    match ← peek with
    | none => return none
    | some e =>
      if e.kind = .mappingEnd then
        skip
        return some (Node.closeMapping i flow pairs e.notes)
      match ← node n with
      | none => return none
      | some k =>
        match ← node n with
        | none => return none
        | some v => mapping n i flow (Node.addPair flow pairs k v)

end

/-- The next document, or nothing at the end of the stream. -/
def document : Build (Option Document) := do
  match ← peek with
  | none => return none
  | some e =>
    if e.kind = .streamEnd then return none
    skip
    let root ← node ((← get).events.length + 1)
    match ← peek with
    | none => return none
    | some close =>
      skip
      let i := Node.infoOf e {}
      return some ⟨{ i with notes := { i.notes with foot := close.notes.foot } }, root⟩

/-- The documents up to the first problem. -/
def documents : Nat → Feed → List Document × Option Problem
  | 0, _ => ([], none)
  | n + 1, f =>
    match document f with
    | .error p => ([], some p)
    | .ok (none, _) => ([], none)
    | .ok (some d, f) =>
      let (rest, p) := documents n f
      (d :: rest, p)

end Build

/-- The documents of a source up to the first problem. -/
def Document.read (src : Text) : List Document × Option Problem :=
  let (events, problem) := Event.ofText src
  Build.documents (events.length + 1)
    { events := events.filter (·.kind ≠ .streamStart), problem }

end Galley.Yaml
