import Galley.Proofs.Decoding
import Galley.Proofs.FrontEnds

/-! The comments of formatted YAML streams, and what stands around them. A stream is written as words, breaks,
groups and comments, one after the other: a comment has a line of its own, before or after an entry, or
follows an entry on its line. Main statement: nothing is asked for on the line of a comment after it, and
before a comment on a line of its own stands a newline, or a break of a group which has a newline after the
comment. -/
namespace Galley.Layout.Annotation
open Yaml (Node Document Info)
open Comment (Table)

variable {ι : Type} [Columns ι]

/-- What a stream is written as. -/
inductive Part where
  | word (s : Text)
  | newline
  | space
  | softBreak
  | start
  | stop
  | indent
  | outdent
  /-- A comment on a line of its own. -/
  | own (t : Text)
  /-- A comment on the line of an entry. -/
  | note (t : Text)

/-- What is asked for a part. -/
def Part.call (o : Options ι) : Part → Call ι
  | .word s => .text s
  | .newline => .hardBreak
  | .space => .space
  | .softBreak => .softBreak
  | .start => .consistentBox 0
  | .stop => .groupEnd
  | .indent => .indent o.config.withDefaults.unit
  | .outdent => .outdent
  | .own t => .text t
  | .note t => .text t

/-- Items at the start of a line. -/
def headLines (items : List Comment) : List Part :=
  items.flatMap fun c => if c.blank then [.newline] else [.own c.toText, .newline]

/-- Items on the lines after the current one. -/
def footLines (items : List Comment) : List Part :=
  items.flatMap fun c => if c.blank then [.newline] else [.newline, .own c.toText]

/-- The comments before an entry. -/
def headParts (pol : Comment.Policy) (items : List Comment) : List Part := headLines (pol.normalize items)

/-- The comments after an entry. -/
def footParts (pol : Comment.Policy) (items : List Comment) : List Part :=
  footLines (pol.normalize (Comment.trimBlank items))

/-- The comment on the line of an entry. -/
def noteParts (nodes : List Node) : List Part :=
  match nodes.find? fun n => !n.info.notes.line.isEmpty with
  | some n => [.word [0x20], .note n.info.notes.line]
  | none => []

/-- What stands after an entry. -/
def endParts (pol : Comment.Policy) (close : Text) (nodes : List Node) (last : Bool) (foot : List Comment) :
    List Part :=
  let remarks := noteParts nodes ++ footParts pol foot
  if last then remarks ++ [.outdent, if remarks.isEmpty then .softBreak else .newline, .word close]
  else .word [0x2c] :: remarks ++ [if remarks.isEmpty then .space else .newline]

/-- What opens a collection with entries. -/
def openParts (i : Info) (sign : Text) : List Part := [.start, .word (Node.decorate i sign), .indent, .softBreak]

/-- A collection without entries. -/
def bareParts (i : Info) (sign close : Text) : List Part :=
  [.start, .word (Node.decorate i sign), .word close, .stop]

mutual

/-- A node, with the comments of its entries. -/
def nodeParts (pol : Comment.Policy) (lines : List Text) : Node → Table → List Part × Table
  | .scalar i style v, t => ([.word (Node.decorated lines i style v)], t)
  | .reference _ name, t => ([.word ([0x2a] ++ name)], t)
  | .sequence i _ [], t => (bareParts i [0x5b] [0x5d], t)
  | .sequence i _ (n :: rest), t =>
    let (body, t) := itemParts pol lines (n :: rest) t
    (openParts i [0x5b] ++ body ++ [.stop], t)
  | .mapping i _ [], t => (bareParts i [0x7b] [0x7d], t)
  | .mapping i _ (p :: rest), t =>
    let (body, t) := pairParts pol lines (p :: rest) t
    (openParts i [0x7b] ++ body ++ [.stop], t)
  | .document _ _ nodes, t => nodesParts pol lines nodes t

/-- The items of a sequence. -/
def itemParts (pol : Comment.Policy) (lines : List Text) : List Node → Table → List Part × Table
  | [], t => ([], t)
  | n :: rest, t =>
    let (lead, t) := Node.takeLeading [n] t
    let (entry, t) := nodeParts pol lines n t
    let (foot, t) := Node.takeTrailing [n] t
    let (others, t) := itemParts pol lines rest t
    (headParts pol lead ++ entry ++ endParts pol [0x5d] [n] rest.isEmpty foot ++ others, t)

/-- Nodes one after the other. -/
def nodesParts (pol : Comment.Policy) (lines : List Text) : List Node → Table → List Part × Table
  | [], t => ([], t)
  | n :: rest, t =>
    let (first, t) := nodeParts pol lines n t
    let (others, t) := nodesParts pol lines rest t
    (first ++ others, t)

/-- The pairs of a mapping. -/
def pairParts (pol : Comment.Policy) (lines : List Text) : List (Node × Node) → Table → List Part × Table
  | [], t => ([], t)
  | (k, v) :: rest, t =>
    let (lead, t) := Node.takeLeading [k, v] t
    let (key, t) := nodeParts pol lines k t
    let (value, t) := nodeParts pol lines v t
    let (foot, t) := Node.takeTrailing [k, v] t
    let (others, t) := pairParts pol lines rest t
    (headParts pol lead ++ key ++ [.word [0x3a], .word [0x20]] ++ value ++
      endParts pol [0x7d] [k, v] rest.isEmpty foot ++ others, t)

end

/-- A document with its comments. -/
def documentParts (pol : Comment.Policy) (lines : List Text) (d : Document) (t : Table) : List Part × Table :=
  let (own, t) := t.takeLeading d.span
  match d.root with
  | none =>
    let (foot, t) := t.takeTrailing d.span
    (headParts pol (Comment.trimBlank own) ++ footParts pol foot, t)
  | some n =>
    let (lead, t) := t.takeLeading n.span
    let (body, t) := nodeParts pol lines n t
    let (foot, t) := t.takeTrailing n.span
    let (below, t) := t.takeTrailing d.span
    (headParts pol (Comment.trimBlank (own ++ lead)) ++ body ++ noteParts [n] ++ footParts pol (foot ++ below), t)

/-- Documents, each after the first below a line that divides it from the one before. -/
def streamParts (pol : Comment.Policy) (lines : List Text) : List Document → Bool → Table → List Part
  | [], _, _ => []
  | d :: rest, first, t =>
    let (body, t) := documentParts pol lines d (d.collect t)
    (if first then [] else [.newline, .word "---", .newline]) ++ body ++ streamParts pol lines rest false t

section Calls

variable (o : Options ι)

theorem headParts_calls (items : List Comment) :
    (headParts o.comments items).map (Part.call o) = o.comments.calls items := by
  rw [headParts, headLines, Comment.Policy.calls, Comment.lineCalls, List.map_flatMap]
  congr 1
  funext c
  split <;> rfl

theorem footParts_calls (items : List Comment) :
    (footParts o.comments items).map (Part.call o) = Node.footer o items := by
  rw [footParts, footLines, Node.footer, List.map_flatMap]
  congr 1
  funext c
  split <;> rfl

theorem noteParts_calls (nodes : List Node) : (noteParts nodes).map (Part.call o) = Node.lineNote nodes := by
  unfold noteParts Node.lineNote
  cases nodes.find? fun n => !n.info.notes.line.isEmpty <;> rfl

theorem endParts_calls (close : Text) (nodes : List Node) (last : Bool) (foot : List Comment) :
    (endParts o.comments close nodes last foot).map (Part.call o) = Node.entryEnd o close nodes last foot := by
  have note := noteParts_calls o nodes
  have below := footParts_calls o foot
  simp only [endParts, Node.entryEnd, ← note, ← below]
  cases last <;> cases noteParts nodes <;> cases footParts o.comments foot <;> simp [Part.call]

mutual

theorem nodeParts_calls (lines : List Text) : ∀ (n : Node) (t : Table),
    ((nodeParts o.comments lines n t).1.map (Part.call o), (nodeParts o.comments lines n t).2) = n.calls o lines t
  | .scalar i style v, t => by rw [nodeParts, Node.calls]; rfl
  | .reference i name, t => by rw [nodeParts, Node.calls]; rfl
  | .sequence i flow [], t => by rw [nodeParts, Node.calls]; rfl
  | .sequence i flow (n :: rest), t => by
    rw [nodeParts, Node.calls, ← itemParts_calls lines (n :: rest) t]
    simp [openParts, Node.opening, Part.call]
  | .mapping i flow [], t => by rw [nodeParts, Node.calls]; rfl
  | .mapping i flow (p :: rest), t => by
    rw [nodeParts, Node.calls, ← pairParts_calls lines (p :: rest) t]
    simp [openParts, Node.opening, Part.call]
  | .document i flow nodes, t => by
    rw [nodeParts, Node.calls]
    exact nodesParts_calls lines nodes t

theorem itemParts_calls (lines : List Text) : ∀ (items : List Node) (t : Table),
    ((itemParts o.comments lines items t).1.map (Part.call o), (itemParts o.comments lines items t).2) =
      Node.itemCalls o lines items t
  | [], t => by rw [itemParts, Node.itemCalls]; rfl
  | n :: rest, t => by
    rw [itemParts, Node.itemCalls]
    simp only [← nodeParts_calls lines n, ← itemParts_calls lines rest, List.map_append, headParts_calls,
      endParts_calls]

theorem nodesParts_calls (lines : List Text) : ∀ (nodes : List Node) (t : Table),
    ((nodesParts o.comments lines nodes t).1.map (Part.call o), (nodesParts o.comments lines nodes t).2) =
      Node.nodeCalls o lines nodes t
  | [], t => by rw [nodesParts, Node.nodeCalls]; rfl
  | n :: rest, t => by
    rw [nodesParts, Node.nodeCalls]
    simp only [← nodeParts_calls lines n, ← nodesParts_calls lines rest, List.map_append]

theorem pairParts_calls (lines : List Text) : ∀ (pairs : List (Node × Node)) (t : Table),
    ((pairParts o.comments lines pairs t).1.map (Part.call o), (pairParts o.comments lines pairs t).2) =
      Node.pairCalls o lines pairs t
  | [], t => by rw [pairParts, Node.pairCalls]; rfl
  | (k, v) :: rest, t => by
    rw [pairParts, Node.pairCalls]
    simp only [← nodeParts_calls lines k, ← nodeParts_calls lines v, ← pairParts_calls lines rest, List.map_append,
      headParts_calls, endParts_calls]
    rfl

end

theorem documentParts_calls (lines : List Text) (d : Document) (t : Table) :
    ((documentParts o.comments lines d t).1.map (Part.call o), (documentParts o.comments lines d t).2) =
      d.calls o lines t := by
  obtain ⟨info, root⟩ := d
  cases root with
  | none => simp only [documentParts, Document.calls, List.map_append, headParts_calls, footParts_calls]
  | some n =>
    simp only [documentParts, Document.calls, ← nodeParts_calls, List.map_append, headParts_calls, footParts_calls,
      noteParts_calls]

/-- The parts of a stream are what is asked for. -/
theorem streamParts_calls (lines : List Text) (docs : List Document) (first : Bool) (t : Table) :
    (streamParts o.comments lines docs first t).map (Part.call o) = Document.allCalls o lines docs first t := by
  induction docs generalizing first t with
  | nil => rfl
  | cons d docs ih =>
    rw [streamParts, Document.allCalls]
    simp only [← documentParts_calls, List.map_append, ih]
    cases first <;> rfl

end Calls

/-- What the current line has on it. -/
inductive Line where
  /-- Nothing: a newline came last, or nothing at all. -/
  | fresh
  /-- Nothing yet after a break of a group, which may stay flat. -/
  | soft
  /-- A comment right after such a break. -/
  | head
  /-- A comment at its end. -/
  | noted
  /-- Something else. -/
  | busy

/-- A line that may be written on. -/
def Line.Open (line : Line) : Prop := line ≠ .head ∧ line ≠ .noted

/-- A line with no break or comment that is still to be decided. -/
def Line.Decided (line : Line) : Prop := line ≠ .soft ∧ line ≠ .head

/-- How many groups are open, and what the current line has on it. -/
structure Spot where
  depth : Nat
  line : Line

/-- A part that may come next, and what it leads to. -/
inductive Step : Spot → Part → Spot → Prop where
  | word {n : Nat} {line : Line} (free : line.Open) (s : Text) : Step ⟨n, line⟩ (.word s) ⟨n, .busy⟩
  | newline {n : Nat} (line : Line) : Step ⟨n, line⟩ .newline ⟨n, .fresh⟩
  | space {n : Nat} {line : Line} (free : line.Open) : Step ⟨n + 1, line⟩ .space ⟨n + 1, .soft⟩
  | softBreak {n : Nat} {line : Line} (free : line.Open) : Step ⟨n + 1, line⟩ .softBreak ⟨n + 1, .soft⟩
  | start {n : Nat} {line : Line} (free : line.Open) : Step ⟨n, line⟩ .start ⟨n + 1, .busy⟩
  | stop {n : Nat} : Step ⟨n + 1, .busy⟩ .stop ⟨n, .busy⟩
  | indent {n : Nat} {line : Line} (known : line.Decided) : Step ⟨n, line⟩ .indent ⟨n, line⟩
  | outdent {n : Nat} {line : Line} (known : line.Decided) : Step ⟨n, line⟩ .outdent ⟨n, line⟩
  | own {n : Nat} (t : Text) : Step ⟨n, .fresh⟩ (.own t) ⟨n, .noted⟩
  | head {n : Nat} (t : Text) : Step ⟨n, .soft⟩ (.own t) ⟨n, .head⟩
  | note {n : Nat} {line : Line} (free : line.Open) (t : Text) : Step ⟨n, line⟩ (.note t) ⟨n, .noted⟩

/-- Parts that may come one after the other. -/
inductive Run : Spot → List Part → Spot → Prop where
  | nil (s : Spot) : Run s [] s
  | cons {s next last : Spot} {part : Part} {rest : List Part} (first : Step s part next)
      (later : Run next rest last) : Run s (part :: rest) last

section Order

variable {s t u : Spot} {xs ys : List Part} {n : Nat} {line : Line} (pol : Comment.Policy)

theorem run_append (first : Run s xs t) (second : Run t ys u) : Run s (xs ++ ys) u := by
  induction first with
  | nil => exact second
  | cons step _ ih => exact .cons step (ih second)

theorem run_split {part : Part} (run : Run s (xs ++ part :: ys) u) :
    ∃ mid next, Step mid part next ∧ Run next ys u := by
  induction xs generalizing s with
  | nil =>
    cases run with
    | cons step later => exact ⟨s, _, step, later⟩
  | cons _ xs ih =>
    cases run with
    | cons _ later => exact ih later

theorem run_one {part : Part} (step : Step s part t) : Run s [part] t := .cons step (.nil t)

/-- A line on which an item may start. -/
def Line.Starts (line : Line) : Prop := line = .soft ∨ line = .fresh

theorem starts_open (starts : line.Starts) : line.Open := by
  rcases starts with rfl | rfl <;> exact ⟨by simp, by simp⟩

theorem decided_fresh : Line.fresh.Decided := ⟨by simp, by simp⟩

theorem decided_noted : Line.noted.Decided := ⟨by simp, by simp⟩

theorem decided_busy : Line.busy.Decided := ⟨by simp, by simp⟩

theorem open_busy : Line.busy.Open := ⟨by simp, by simp⟩

theorem headLines_fresh (items : List Comment) : Run ⟨n, .fresh⟩ (headLines items) ⟨n, .fresh⟩ := by
  induction items with
  | nil => exact .nil _
  | cons c items ih =>
    rw [headLines, List.flatMap_cons]
    refine run_append ?_ ih
    split
    · exact run_one (.newline _)
    · exact .cons (.own _) (run_one (.newline _))

/-- Items before an entry leave a line on which it may start. -/
theorem headLines_run (starts : line.Starts) (items : List Comment) :
    ∃ next : Line, next.Starts ∧ Run ⟨n, line⟩ (headLines items) ⟨n, next⟩ := by
  rcases starts with rfl | rfl
  · cases items with
    | nil => exact ⟨.soft, .inl rfl, .nil _⟩
    | cons c items =>
      refine ⟨.fresh, .inr rfl, ?_⟩
      rw [headLines, List.flatMap_cons]
      refine run_append ?_ (headLines_fresh items)
      split
      · exact run_one (.newline _)
      · exact .cons (.head _) (run_one (.newline _))
  · exact ⟨.fresh, .inr rfl, headLines_fresh items⟩

theorem footLines_run (known : line.Decided) (items : List Comment) :
    ∃ next : Line, next.Decided ∧ Run ⟨n, line⟩ (footLines items) ⟨n, next⟩ := by
  induction items generalizing line with
  | nil => exact ⟨line, known, .nil _⟩
  | cons c items ih =>
    rw [footLines, List.flatMap_cons]
    split
    · obtain ⟨next, settled, run⟩ := ih decided_fresh
      exact ⟨next, settled, .cons (.newline _) run⟩
    · obtain ⟨next, settled, run⟩ := ih decided_noted
      exact ⟨next, settled, .cons (.newline _) (.cons (.own _) run)⟩

theorem noteParts_run (nodes : List Node) :
    ∃ next : Line, next.Decided ∧ Run ⟨n, .busy⟩ (noteParts nodes) ⟨n, next⟩ := by
  unfold noteParts
  split
  · exact ⟨.noted, decided_noted, .cons (.word open_busy _) (run_one (.note open_busy _))⟩
  · exact ⟨.busy, decided_busy, .nil _⟩

/-- Remarks after an entry leave a line that is known. -/
theorem remarks_run (nodes : List Node) (foot : List Comment) :
    ∃ next : Line, next.Decided ∧ Run ⟨n, .busy⟩ (noteParts nodes ++ footParts pol foot) ⟨n, next⟩ := by
  obtain ⟨mid, known, first⟩ := noteParts_run (n := n) nodes
  obtain ⟨next, settled, second⟩ := footLines_run (n := n) known (pol.normalize (Comment.trimBlank foot))
  exact ⟨next, settled, run_append first second⟩

theorem endParts_last (close : Text) (nodes : List Node) (foot : List Comment) :
    Run ⟨n + 1, .busy⟩ (endParts pol close nodes true foot) ⟨n + 1, .busy⟩ := by
  obtain ⟨next, known, run⟩ := remarks_run pol (n := n + 1) nodes foot
  unfold endParts
  cases remarks : noteParts nodes ++ footParts pol foot with
  | nil =>
    exact .cons (.outdent decided_busy) (.cons (.softBreak open_busy) (run_one (.word ⟨by simp, by simp⟩ _)))
  | cons part more =>
    rw [remarks] at run
    exact run_append run (.cons (.outdent known) (.cons (.newline _) (run_one (.word ⟨by simp, by simp⟩ _))))

theorem endParts_more (close : Text) (nodes : List Node) (foot : List Comment) :
    ∃ next : Line, next.Starts ∧ Run ⟨n + 1, .busy⟩ (endParts pol close nodes false foot) ⟨n + 1, next⟩ := by
  obtain ⟨next, known, run⟩ := remarks_run pol (n := n + 1) nodes foot
  unfold endParts
  cases remarks : noteParts nodes ++ footParts pol foot with
  | nil => exact ⟨.soft, .inl rfl, .cons (.word open_busy _) (run_one (.space open_busy))⟩
  | cons part more =>
    rw [remarks] at run
    exact ⟨.fresh, .inr rfl, .cons (.word open_busy _) (run_append run (run_one (.newline _)))⟩

theorem bareParts_run (free : line.Open) (i : Info) (sign close : Text) :
    Run ⟨n, line⟩ (bareParts i sign close) ⟨n, .busy⟩ :=
  .cons (.start free) (.cons (.word open_busy _) (.cons (.word open_busy _) (run_one .stop)))

/-- A collection is written from its first entry on, up to the sign that closes it. -/
theorem collection_run (free : line.Open) (i : Info) (sign : Text)
    (entries : Run ⟨n + 1, .soft⟩ xs ⟨n + 1, .busy⟩) :
    Run ⟨n, line⟩ (openParts i sign ++ xs ++ [.stop]) ⟨n, .busy⟩ := by
  have opens : Run ⟨n, line⟩ (openParts i sign) ⟨n + 1, .soft⟩ :=
    .cons (.start free) (.cons (.word open_busy _) (.cons (.indent decided_busy) (run_one (.softBreak open_busy))))
  exact run_append (run_append opens entries) (run_one .stop)

/-- An entry before the others of its collection, if there are any. -/
theorem entry_run {close : Text} {nodes : List Node} {foot : List Comment} {last : Bool}
    (entry : Run ⟨n + 1, line⟩ xs ⟨n + 1, .busy⟩) (none : last = true → ys = [])
    (others : last = false → ∀ next : Line, next.Starts → Run ⟨n + 1, next⟩ ys ⟨n + 1, .busy⟩) :
    Run ⟨n + 1, line⟩ (xs ++ endParts pol close nodes last foot ++ ys) ⟨n + 1, .busy⟩ := by
  cases last with
  | true =>
    rw [none rfl, List.append_nil]
    exact run_append entry (endParts_last pol close nodes foot)
  | false =>
    obtain ⟨next, starts, run⟩ := endParts_more pol (n := n) close nodes foot
    exact run_append (run_append entry run) (others rfl next starts)

mutual

theorem node_run (lines : List Text) : ∀ (node : Node) (t : Table) {n : Nat} {line : Line},
    node.decoded = true → line.Open → Run ⟨n, line⟩ (nodeParts pol lines node t).1 ⟨n, .busy⟩
  | .scalar i style v, t, n, line, _, free => by
    rw [nodeParts]
    exact run_one (.word free _)
  | .reference i name, t, n, line, _, free => by
    rw [nodeParts]
    exact run_one (.word free _)
  | .sequence i flow [], t, n, line, _, free => by
    rw [nodeParts]
    exact bareParts_run free i _ _
  | .sequence i flow (item :: rest), t, n, line, decoded, free => by
    rw [nodeParts]
    rw [Node.decoded] at decoded
    exact collection_run free i _ (items_run lines (item :: rest) t decoded (by simp) (.inl rfl))
  | .mapping i flow [], t, n, line, _, free => by
    rw [nodeParts]
    exact bareParts_run free i _ _
  | .mapping i flow (p :: rest), t, n, line, decoded, free => by
    rw [nodeParts]
    rw [Node.decoded] at decoded
    exact collection_run free i _ (pairs_run lines (p :: rest) t decoded (by simp) (.inl rfl))
  | .document i flow nodes, t, n, line, decoded, free => by
    rw [Node.decoded] at decoded
    cases decoded

theorem items_run (lines : List Text) : ∀ (items : List Node) (t : Table) {n : Nat} {line : Line},
    Node.decodedItems items = true → items ≠ [] → line.Starts →
    Run ⟨n + 1, line⟩ (itemParts pol lines items t).1 ⟨n + 1, .busy⟩
  | [], t, n, line, _, filled, starts => absurd rfl filled
  | item :: rest, t, n, line, decoded, filled, starts => by
    rw [itemParts]
    rw [Node.decodedItems, Bool.and_eq_true] at decoded
    obtain ⟨next, begins, lead⟩ := headLines_run (n := n + 1) starts (pol.normalize (Node.takeLeading [item] t).1)
    have entry := node_run lines item (Node.takeLeading [item] t).2 (n := n + 1) decoded.1 (starts_open begins)
    refine entry_run pol (run_append lead entry) (fun last => ?_) (fun more next starts => ?_)
    · rw [List.isEmpty_iff.mp last, itemParts]
    · exact items_run lines rest _ decoded.2 (by simpa using more) starts

theorem pairs_run (lines : List Text) : ∀ (pairs : List (Node × Node)) (t : Table) {n : Nat} {line : Line},
    Node.decodedPairs pairs = true → pairs ≠ [] → line.Starts →
    Run ⟨n + 1, line⟩ (pairParts pol lines pairs t).1 ⟨n + 1, .busy⟩
  | [], t, n, line, _, filled, starts => absurd rfl filled
  | (k, v) :: rest, t, n, line, decoded, filled, starts => by
    rw [pairParts]
    rw [Node.decodedPairs, Bool.and_eq_true, Bool.and_eq_true] at decoded
    obtain ⟨next, begins, lead⟩ := headLines_run (n := n + 1) starts (pol.normalize (Node.takeLeading [k, v] t).1)
    have key := node_run lines k (Node.takeLeading [k, v] t).2 (n := n + 1) decoded.1.1 (starts_open begins)
    have colon : Run ⟨n + 1, .busy⟩ [.word [0x3a], .word [0x20]] ⟨n + 1, .busy⟩ :=
      .cons (.word open_busy _) (run_one (.word open_busy _))
    have value := node_run lines v (nodeParts pol lines k (Node.takeLeading [k, v] t).2).2 (n := n + 1) decoded.1.2
      open_busy
    refine entry_run pol (run_append (run_append (run_append lead key) colon) value) (fun last => ?_)
      (fun more next starts => ?_)
    · rw [List.isEmpty_iff.mp last, pairParts]
    · exact pairs_run lines rest _ decoded.2 (by simpa using more) starts

end

theorem document_run (lines : List Text) (d : Document) (t : Table) (decoded : d.decoded = true) :
    ∃ next : Line, next.Decided ∧ Run ⟨0, .fresh⟩ (documentParts pol lines d t).1 ⟨0, next⟩ := by
  have below {line : Line} (known : line.Decided) := footLines_run (n := 0) known
  obtain ⟨info, root⟩ := d
  cases root with
  | none => exact (below decided_fresh _).imp fun next ends => ⟨ends.1, run_append (headLines_fresh _) ends.2⟩
  | some node =>
    obtain ⟨mid, known, note⟩ := noteParts_run (n := 0) [node]
    have body (t : Table) : Run ⟨0, .fresh⟩ (nodeParts pol lines node t).1 ⟨0, .busy⟩ :=
      node_run pol lines node t decoded (starts_open (.inr rfl))
    exact (below known _).imp fun next ends =>
      ⟨ends.1, run_append (run_append (run_append (headLines_fresh _) (body _)) note) ends.2⟩

/-- The parts of a stream come in order. -/
theorem stream_run (lines : List Text) (docs : List Document) (first : Bool) (t : Table)
    (decoded : ∀ d ∈ docs, d.decoded = true) (known : line.Decided) (begins : first = true → line = .fresh) :
    ∃ next : Line, next.Decided ∧ Run ⟨0, line⟩ (streamParts pol lines docs first t) ⟨0, next⟩ := by
  induction docs generalizing first t line with
  | nil => exact ⟨line, known, .nil _⟩
  | cons d docs ih =>
    obtain ⟨here, others⟩ := List.forall_mem_cons.mp decoded
    obtain ⟨mid, still, body⟩ := document_run pol lines d (d.collect t) here
    obtain ⟨next, settled, later⟩ := ih false (documentParts pol lines d (d.collect t)).2 others still (by simp)
    refine ⟨next, settled, ?_⟩
    rw [streamParts]
    cases first with
    | true =>
      cases begins rfl
      exact run_append body later
    | false =>
      have divides : Run ⟨0, line⟩ [.newline, .word "---", .newline] ⟨0, .fresh⟩ :=
        .cons (.newline _) (.cons (.word ⟨by simp, by simp⟩ _) (run_one (.newline _)))
      exact run_append (run_append divides body) later

end Order

end Galley.Layout.Annotation
