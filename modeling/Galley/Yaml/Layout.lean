import Galley.Comment.Table
import Galley.Failure
import Galley.Options
import Galley.Yaml.Node

/-!
The layout of YAML documents: every collection is written in flow style, with its comments on lines
of their own or after the entry they follow. Comments and blank lines force a collection onto
several lines.
-/

namespace Galley.Yaml

open Layout (Call Columns)
open Comment (Span Table)

variable {ι : Type} [Columns ι]

namespace Node

/-! ## Places -/

/-- The place of a node as one number. -/
def pos (i : Info) : Int := (i.line <<< 16 ||| i.column).toInt

mutual

/-- The place of the last node inside a node, or its own if there is none. -/
def lastPos : Node → Int
  | .scalar i _ _ => pos i
  | .reference i _ => pos i
  | .sequence i _ items => lastPosItems (pos i) items
  | .mapping i _ pairs => lastPosPairs (pos i) pairs
  | .document i _ nodes => lastPosItems (pos i) nodes

/-- The place of the last node of some items. -/
def lastPosItems (own : Int) : List Node → Int
  | [] => own
  | n :: rest => lastPosItems n.lastPos rest

/-- The place of the last node of some pairs. -/
def lastPosPairs (own : Int) : List (Node × Node) → Int
  | [] => own
  | (_, v) :: rest => lastPosPairs v.lastPos rest

end

/-- A node from its own place to that of its last node. A collection starts where its first entry
does, so the end keeps the two apart. -/
def span (n : Node) : Span := ⟨pos n.info, n.lastPos⟩

/-- The number of newlines in a text. -/
def newlines (t : Text) : Nat := t.count 0x0a

/-- The number of lines of a comment. -/
def commentHeight (t : Text) : Nat := if t.isEmpty then 0 else newlines t + 1

/-- The number of lines below its first that a scalar takes up. -/
def bodyHeight (style : Style) (value : Text) : Nat :=
  match style with
  | .literal | .folded =>
    newlines (if value.endsWith [0x0a] then value.dropLast else value) + 1
  | _ => 0

/-- The later of two lines. -/
def later (a b : Int64) : Int64 := if a < b then b else a

mutual

/-- The last line taken up by a node and the comment after it. -/
def endLine : Node → Int64
  | .scalar i style value => i.line + .ofNat (bodyHeight style value) + .ofNat (commentHeight i.notes.foot)
  | .reference i _ => i.line + .ofNat (commentHeight i.notes.foot)
  | .sequence i _ items => endLineItems i.line items + .ofNat (commentHeight i.notes.foot)
  | .mapping i _ pairs => endLinePairs i.line pairs + .ofNat (commentHeight i.notes.foot)
  | .document i _ nodes => endLineItems i.line nodes + .ofNat (commentHeight i.notes.foot)

/-- The last line taken up by some items. -/
def endLineItems (least : Int64) : List Node → Int64
  | [] => least
  | n :: rest => endLineItems (later least n.endLine) rest

/-- The last line taken up by some pairs. -/
def endLinePairs (least : Int64) : List (Node × Node) → Int64
  | [] => least
  | (k, v) :: rest => endLinePairs (later (later least k.endLine) v.endLine) rest

end

/-! ## Comments -/

/-- What starts a comment. -/
def marker : Text := "#"

/-- The lines of a comment. -/
def commentLines (t : Text) : List Comment :=
  if t.isEmpty then []
  else t.lines.map fun l =>
    let l := Text.trim l
    if l.isEmpty then .blankLine else .line marker (Text.dropStart l marker)

/-- Whether an empty line stands between a node and the end of what comes before it. -/
def apart (before : Int64) (n : Node) : Bool :=
  before + 1 < n.info.line - .ofNat (commentHeight n.info.notes.head)

/-- Keeps the empty line before a node. -/
def spaceBefore (flow : Bool) (before : Option Int64) (n : Node) (t : Table) : Table :=
  match before with
  | some line => if !flow && n.apart line then t.addLeading n.span [.blankLine] else t
  | none => t

mutual

/-- Records the comments of a node, and the empty lines between the entries of its blocks. -/
def collect : Node → Table → Table
  | .scalar i s v, t =>
    let span := (Node.scalar i s v).span
    (t.addLeading span (commentLines i.notes.head)).addTrailing span (commentLines i.notes.foot)
  | .reference i name, t =>
    let span := (Node.reference i name).span
    (t.addLeading span (commentLines i.notes.head)).addTrailing span (commentLines i.notes.foot)
  | .sequence i flow items, t =>
    let span := (Node.sequence i flow items).span
    let t := collectItems flow none items (t.addLeading span (commentLines i.notes.head))
    t.addTrailing span (commentLines i.notes.foot)
  | .mapping i flow pairs, t =>
    let span := (Node.mapping i flow pairs).span
    let t := collectPairs flow none pairs (t.addLeading span (commentLines i.notes.head))
    t.addTrailing span (commentLines i.notes.foot)
  | .document i flow nodes, t =>
    let span := (Node.document i flow nodes).span
    let t := collectItems flow none nodes (t.addLeading span (commentLines i.notes.head))
    t.addTrailing span (commentLines i.notes.foot)

/-- Records the comments of items after one that ends on line `before`. -/
def collectItems (flow : Bool) (before : Option Int64) : List Node → Table → Table
  | [], t => t
  | n :: rest, t =>
    collectItems flow (some n.endLine) rest (n.collect (n.spaceBefore flow before t))

/-- Records the comments of pairs after one that ends on line `before`. -/
def collectPairs (flow : Bool) (before : Option Int64) : List (Node × Node) → Table → Table
  | [], t => t
  | (k, v) :: rest, t =>
    collectPairs flow (some v.endLine) rest (v.collect (k.collect (k.spaceBefore flow before t)))

end

/-! ## Scalars -/

/-- Whether a plain text would be read as something else inside a flow collection. -/
def needsQuotes (v : Text) : Bool :=
  v.isEmpty || v.any (fun b => [0x2c, 0x5b, 0x5d, 0x7b, 0x7d, 0x0a].elem b) ||
    v.includes [0x3a, 0x20] || v.includes [0x20, 0x23] || v.endsWith [0x3a]

/-- Whether a plain scalar without text is null: it is unless a tag says otherwise. -/
def isNull (tag : Option Text) : Bool := tag.all (· = ("!!null" : Text))

/-- A scalar, written so that it reads back the same inside a flow collection. -/
def scalarText (style : Style) (tag : Option Text) (v : Text) : Text :=
  match style with
  | .singleQuoted => [0x27] ++ v.flatMap (fun b => if b = 0x27 then [0x27, 0x27] else [b]) ++ [0x27]
  | .doubleQuoted | .literal | .folded => v.quoted
  | .plain =>
    if v.isEmpty && isNull tag then "null"
    else if needsQuotes v then v.quoted
    else v

/-- Whether the source gives a scalar the tag `!`, which says that it is no number, date or other
value than a text. `lines` are the lines of the source. -/
def nonSpecific (lines : List Text) (i : Info) : Bool :=
  if i.line < 1 || i.column < 1 then false
  else
    match lines[i.line.toNatClampNeg - 1]? with
    | none => false
    | some l =>
      let s : Text := Text.ofGlyphs (l.glyphs.drop (i.column.toNatClampNeg - 1))
      let s : Text :=
        if i.anchor.isEmpty then s
        else
          (s.dropStart ([0x26] ++ i.anchor)).dropWhile fun b => b = 0x20 || b = 0x09
      s = [0x21] || s.startsWith [0x21, 0x20] || s.startsWith [0x21, 0x09]

/-- A text after a tag. -/
def tagged (tag : Option Text) (s : Text) : Text :=
  match tag with
  | some t => t ++ [0x20] ++ s
  | none => s

/-- A text after the name of its node. -/
def anchored (anchor s : Text) : Text :=
  if anchor.isEmpty then s else [0x26] ++ anchor ++ [0x20] ++ s

/-- A text with the tag and the name of its node. -/
def decorate (i : Info) (s : Text) : Text := anchored i.anchor (tagged i.tag s)

/-- A scalar with its tag and its name. -/
def decorated (lines : List Text) (i : Info) (style : Style) (v : Text) : Text :=
  let s := scalarText style i.tag v
  if i.tag.isNone && nonSpecific lines i then anchored i.anchor ([0x21, 0x20] ++ s)
  else decorate i s

/-! ## Calls -/

/-- Writes comments on the lines after the current one. -/
def footer (o : Options ι) (items : List Comment) : List (Call ι) :=
  (o.comments.normalize (Comment.trimBlank items)).flatMap fun c =>
    if c.blank then [.hardBreak] else [.hardBreak, .text c.toText]

/-- Writes the comment on the line of an entry: of several, the first. -/
def lineNote (nodes : List Node) : List (Call ι) :=
  match nodes.find? fun n => !n.info.notes.line.isEmpty with
  | some n => [.nbsp, .text n.info.notes.line]
  | none => []

/-- Takes the comments before some nodes. -/
def takeLeading : List Node → Table → List Comment × Table
  | [], t => ([], t)
  | n :: rest, t =>
    let (a, t) := t.takeLeading n.span
    let (b, t) := takeLeading rest t
    (a ++ b, t)

/-- Takes the comments after some nodes. -/
def takeTrailing : List Node → Table → List Comment × Table
  | [], t => ([], t)
  | n :: rest, t =>
    let (a, t) := t.takeTrailing n.span
    let (b, t) := takeTrailing rest t
    (a ++ b, t)

/-- Writes what stands after an entry: a comma unless it is the last, its comments, and a break,
which is hard after comments. -/
def entryEnd (o : Options ι) (close : Text) (nodes : List Node) (last : Bool) (foot : List Comment) :
    List (Call ι) :=
  let note := lineNote nodes
  let below := footer o foot
  let hard := !note.isEmpty || !below.isEmpty
  (if last then [] else [.text [0x2c]]) ++ note ++ below ++
    if last then
      [.outdent, if hard then .hardBreak else .softBreak, .text close]
    else [if hard then .hardBreak else .space]

/-- Writes what opens a collection with entries. -/
def opening (o : Options ι) (i : Info) (sign : Text) : List (Call ι) :=
  [.consistentBox 0, .text (decorate i sign), .indent o.config.withDefaults.unit, .softBreak]

/-- Writes a collection without entries. -/
def bare (i : Info) (sign close : Text) : List (Call ι) :=
  [.consistentBox 0, .text (decorate i sign), .text close, .groupEnd]

mutual

/-- Writes a node, with the comments of its entries. -/
def calls (o : Options ι) (lines : List Text) : Node → Table → List (Call ι) × Table
  | .scalar i style v, t => ([.text (decorated lines i style v)], t)
  | .reference _ name, t => ([.text ([0x2a] ++ name)], t)
  | .sequence i _ [], t => (bare i [0x5b] [0x5d], t)
  | .sequence i _ (n :: rest), t =>
    let (body, t) := itemCalls o lines (n :: rest) t
    (opening o i [0x5b] ++ body ++ [.groupEnd], t)
  | .mapping i _ [], t => (bare i [0x7b] [0x7d], t)
  | .mapping i _ (p :: rest), t =>
    let (body, t) := pairCalls o lines (p :: rest) t
    (opening o i [0x7b] ++ body ++ [.groupEnd], t)
  | .document _ _ nodes, t => nodeCalls o lines nodes t

/-- Writes the items of a sequence. -/
def itemCalls (o : Options ι) (lines : List Text) : List Node → Table → List (Call ι) × Table
  | [], t => ([], t)
  | n :: rest, t =>
    let (lead, t) := takeLeading [n] t
    let (entry, t) := n.calls o lines t
    let (foot, t) := takeTrailing [n] t
    let (others, t) := itemCalls o lines rest t
    (o.comments.calls lead ++ entry ++ entryEnd o [0x5d] [n] rest.isEmpty foot ++ others, t)

/-- Writes nodes one after the other, with nothing between them. -/
def nodeCalls (o : Options ι) (lines : List Text) : List Node → Table → List (Call ι) × Table
  | [], t => ([], t)
  | n :: rest, t =>
    let (first, t) := n.calls o lines t
    let (others, t) := nodeCalls o lines rest t
    (first ++ others, t)

/-- Writes the pairs of a mapping. -/
def pairCalls (o : Options ι) (lines : List Text) :
    List (Node × Node) → Table → List (Call ι) × Table
  | [], t => ([], t)
  | (k, v) :: rest, t =>
    let (lead, t) := takeLeading [k, v] t
    let (key, t) := k.calls o lines t
    let (value, t) := v.calls o lines t
    let (foot, t) := takeTrailing [k, v] t
    let (others, t) := pairCalls o lines rest t
    (o.comments.calls lead ++ key ++ [.text [0x3a], .nbsp] ++ value ++
      entryEnd o [0x7d] [k, v] rest.isEmpty foot ++ others, t)

end

end Node

namespace Document

/-- A document from its own place to that of its last node. -/
def span (d : Document) : Span :=
  ⟨Node.pos d.info, (d.root.map Node.lastPos).getD (Node.pos d.info)⟩

/-- Records the comments of a document. -/
def collect (d : Document) (t : Table) : Table :=
  let t := t.addLeading d.span (Node.commentLines d.info.notes.head)
  let t := match d.root with
    | some n => n.collect t
    | none => t
  t.addTrailing d.span (Node.commentLines d.info.notes.foot)

/-- Writes a document with its comments. -/
def calls (o : Options ι) (lines : List Text) (d : Document) (t : Table) :
    List (Call ι) × Table :=
  let (own, t) := t.takeLeading d.span
  match d.root with
  | none =>
    let (foot, t) := t.takeTrailing d.span
    (o.comments.calls (Comment.trimBlank own) ++ Node.footer o foot, t)
  | some n =>
    let (lead, t) := t.takeLeading n.span
    let (body, t) := n.calls o lines t
    let (foot, t) := t.takeTrailing n.span
    let (below, t) := t.takeTrailing d.span
    (o.comments.calls (Comment.trimBlank (own ++ lead)) ++ body ++ Node.lineNote [n] ++
      Node.footer o (foot ++ below), t)

/-- Writes documents, each after the first below a line that divides it from the one before. -/
def allCalls (o : Options ι) (lines : List Text) :
    List Document → Bool → Table → List (Call ι)
  | [], _, _ => []
  | d :: rest, first, t =>
    let (body, t) := d.calls o lines (d.collect t)
    (if first then [] else [.hardBreak, .text "---", .hardBreak]) ++ body ++
      allCalls o lines rest false t

end Document

/-- Documents, laid out. `lines` are the lines of their source, and `problem` says why no more of it could be
read. -/
def formatRead (o : Options ι) (lines : List Text) (docs : List Document) (problem : Option Text) :
    Except Failure Text :=
  let written := do
    let p ← Layout.Printer.ofConfig o.config
    p.run (Document.allCalls o lines docs true .empty)
  match written, problem with
  | .error f, _ => .error (.layout f)
  | .ok _, some message =>
    .error (.source (("parse yaml document " : Text) ++ Text.ofNat (docs.length + 1) ++
      (": " : Text) ++ message))
  | .ok p, none =>
    match p.finish with
    | .ok p => .ok p.output.trimRight
    | .error f => .error (.layout f)

/-- The documents of a source, laid out. -/
def format (o : Options ι) (src : Text) : Except Failure Text :=
  let read := Document.read src
  formatRead o src.lines read.1 (read.2.map (·.message))

end Galley.Yaml
