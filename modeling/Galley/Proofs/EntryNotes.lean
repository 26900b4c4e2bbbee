import Galley.Proofs.Bookkeeping
import Galley.Proofs.CommentPlacement

/-! Comments on the lines of entries. They do not go over the table: each entry of a stream, a root, an item
or a pair, is written with the first of the comments that its nodes have on their lines, right after its own
words and its comma. So nothing is lost as long as the key and the value of a pair do not both have one, and
where they do the comment of the value is not written. -/
namespace Galley.Layout.EntryNotes
open Annotation Twinning FrontEnds Reformatting Wraparound
open Yaml (Node Document Info)
open Comment (Table)
open CommentPlacement
open Bookkeeping (infos itemInfos pairInfos)

section Entries

mutual

/-- The entries inside a node, each after those inside it. An item is an entry of one node, a pair of two. -/
def entries : Node → List (List Node)
  | .scalar .. | .reference .. => []
  | .sequence _ _ items => itemEntries items
  | .mapping _ _ pairs => pairEntries pairs
  | .document _ _ nodes => nodeEntries nodes

/-- Items, and the entries inside them. -/
def itemEntries : List Node → List (List Node)
  | [] => []
  | n :: rest => entries n ++ [n] :: itemEntries rest

/-- The entries inside nodes that are no entries themselves. -/
def nodeEntries : List Node → List (List Node)
  | [] => []
  | n :: rest => entries n ++ nodeEntries rest

/-- Pairs, and the entries inside their nodes. -/
def pairEntries : List (Node × Node) → List (List Node)
  | [] => []
  | (k, v) :: rest => entries k ++ entries v ++ [k, v] :: pairEntries rest

end

/-- The entries of a document. Its root counts as one. -/
def documentEntries (d : Document) : List (List Node) := (d.root.map fun n => entries n ++ [[n]]).getD []

/-- The entries of some documents. -/
def streamEntries (docs : List Document) : List (List Node) := docs.flatMap documentEntries

/-- The comment on the line of a node, if there is one. -/
def noteOn (i : Info) : Option Text := if i.notes.line.isEmpty then none else some i.notes.line

/-- The comments on the lines of the nodes of an entry. -/
def remarksOn (entry : List Node) : List Text := entry.filterMap fun n => noteOn n.info

/-- The comment that is written on the line of an entry. -/
def shown (entry : List Node) : Option Text := (remarksOn entry).head?

/-- The comments on the lines of all nodes of some documents. -/
def lineComments (docs : List Document) : List Text :=
  (docs.flatMap fun d => (d.root.map infos).getD []).filterMap noteOn

end Entries

section Parts

variable (pol : Comment.Policy) (lines : List Text)

/-- The comment that a part is, if it stands on the line of an entry. -/
def noteOf : Part → Option Text
  | .note t => some t
  | _ => none

/-- What an entry is written as, but for its comma and its comments. -/
inductive EntrySpelt : List Node → List Part → Prop where
  | item (n : Node) (t : Table) : EntrySpelt [n] (nodeParts pol lines n t).1
  | pair (k v : Node) (t u : Table) : EntrySpelt [k, v]
      ((nodeParts pol lines k t).1 ++ [.word [0x3a], .word [0x20]] ++ (nodeParts pol lines v u).1)

/-- Parts in which some entries are written, one after the other or one inside the other, each with its
comment after it. -/
inductive NotedParts : List (List Node) → List Part → Prop where
  | quiet {parts : List Part} (none : parts.filterMap noteOf = []) : NotedParts [] parts
  | append {before after : List (List Node)} {parts more : List Part} (first : NotedParts before parts)
      (second : NotedParts after more) : NotedParts (before ++ after) (parts ++ more)
  | entry {inside : List (List Node)} {entry : List Node} {own comma : List Part} (inner : NotedParts inside own)
      (entered : EntrySpelt pol lines entry own) (ends : comma = [] ∨ comma = [.word [0x2c]]) :
      NotedParts (inside ++ [entry]) (own ++ comma ++ noteParts entry)

/-- An entry in some parts: right after its own words and its comma comes its comment, after the comments of the
entries before it and before those of the entries after it. -/
def NoteFollows (parts : List Part) (before : List (List Node)) (entry : List Node) (after : List (List Node)) : Prop :=
  ∃ ahead own comma later, parts = ahead ++ own ++ comma ++ noteParts entry ++ later ∧
    EntrySpelt pol lines entry own ∧ (comma = [] ∨ comma = [.word [0x2c]]) ∧
    (ahead ++ own).filterMap noteOf = before.filterMap shown ∧ later.filterMap noteOf = after.filterMap shown

end Parts

section Writing

variable {pol : Comment.Policy} {lines : List Text} {parts more : List Part} {before after : List (List Node)}
  {entry : List Node}

/-- The comment of an entry is the first that its nodes have on their lines. -/
theorem noteParts_shown (entry : List Node) :
    noteParts entry = (shown entry).elim [] fun t => [.word [0x20], .note t] := by
  unfold noteParts shown remarksOn
  induction entry with
  | nil => rfl
  | cons n entry ih =>
    cases bare : n.info.notes.line.isEmpty with
    | true =>
      have none : noteOn n.info = .none := if_pos bare
      rw [List.find?_cons_of_neg (by simp [bare]), List.filterMap_cons, none]
      exact ih
    | false =>
      have here : noteOn n.info = some n.info.notes.line := if_neg (ne_true_of_eq_false bare)
      rw [List.find?_cons_of_pos (by simp [bare]), List.filterMap_cons, here]
      rfl

theorem filterMap_noteParts (entry : List Node) : (noteParts entry).filterMap noteOf = (shown entry).toList := by
  rw [noteParts_shown]
  cases shown entry <;> rfl

theorem filterMap_comma {comma : List Part} (ends : comma = [] ∨ comma = [.word [0x2c]]) :
    comma.filterMap noteOf = [] := by
  rcases ends with rfl | rfl <;> rfl

/-- The comments that are written are the first ones of all entries. -/
theorem notes_shown (notes : NotedParts pol lines before parts) : parts.filterMap noteOf = before.filterMap shown := by
  induction notes with
  | quiet none => exact none
  | append _ _ first second => rw [List.filterMap_append, List.filterMap_append, first, second]
  | @entry inside entry own comma _ _ ends inner =>
    rw [List.filterMap_append, List.filterMap_append, List.filterMap_append, inner, filterMap_comma ends,
      filterMap_noteParts, List.append_nil]
    cases found : shown entry <;> simp [found]

theorem follows_right (first : NoteFollows pol lines parts before entry after) {others : List (List Node)}
    (second : NotedParts pol lines others more) :
    NoteFollows pol lines (parts ++ more) before entry (after ++ others) := by
  obtain ⟨ahead, own, comma, later, rfl, entered, ends, early, late⟩ := first
  refine ⟨ahead, own, comma, later ++ more, by simp, entered, ends, early, ?_⟩
  rw [List.filterMap_append, List.filterMap_append, late, notes_shown second]

theorem follows_left {others : List (List Node)} (first : NotedParts pol lines others more)
    (second : NoteFollows pol lines parts before entry after) :
    NoteFollows pol lines (more ++ parts) (others ++ before) entry after := by
  obtain ⟨ahead, own, comma, later, rfl, entered, ends, early, late⟩ := second
  refine ⟨more ++ ahead, own, comma, later, by simp, entered, ends, ?_, late⟩
  rw [List.append_assoc, List.filterMap_append, early, notes_shown first, ← List.filterMap_append]

/-- Each entry is written with its comment after it. -/
theorem notes_follow {all : List (List Node)} (notes : NotedParts pol lines all parts) :
    ∀ before entry after, all = before ++ entry :: after → NoteFollows pol lines parts before entry after := by
  induction notes with
  | quiet none =>
    intro before entry after same
    simp at same
  | append first second left right =>
    intro before entry after same
    rcases List.append_eq_append_iff.mp same with ⟨others, rfl, rest⟩ | ⟨others, whole, rest⟩
    · exact follows_left first (right others entry after rest)
    · cases others with
      | nil =>
        rw [List.append_nil] at whole
        subst whole
        have here := right [] entry after (by simpa using rest.symm)
        simpa using follows_left first here
      | cons head others =>
        obtain ⟨rfl, rfl⟩ := List.cons.inj rest
        exact follows_right (left before entry others whole) second
  | @entry inside last own comma inner entered ends deeper =>
    intro before entry after same
    rcases List.eq_nil_or_concat after with rfl | ⟨others, final, rfl⟩
    · obtain ⟨rfl, one⟩ := List.append_inj' same rfl
      obtain rfl := (List.cons.inj one).1
      exact ⟨[], own, comma, [], by simp, entered, ends, notes_shown inner, rfl⟩
    · have split : inside ++ [last] = (before ++ entry :: others) ++ [final] := by simpa using same
      obtain ⟨whole, one⟩ := List.append_inj' split rfl
      obtain rfl := (List.cons.inj one).1
      obtain ⟨ahead, body, sign, later, rfl, written, stops, early, late⟩ := deeper before entry others whole
      refine ⟨ahead, body, sign, later ++ comma ++ noteParts last, by simp, written, stops, early, ?_⟩
      rw [List.filterMap_append, List.filterMap_append, late, filterMap_comma ends, filterMap_noteParts,
        List.append_nil, List.concat_eq_append, List.filterMap_append]
      cases found : shown last <;> simp [found]

end Writing

section Streams

variable (pol : Comment.Policy) (lines : List Text) {es fs : List (List Node)} {parts more : List Part}

theorem filterMap_owned {items : List Comment} {write : Comment → List Part}
    (each : ∀ c, (write c).filterMap noteOf = []) : (items.flatMap write).filterMap noteOf = [] := by
  induction items with
  | nil => rfl
  | cons c items ih => rw [List.flatMap_cons, List.filterMap_append, each, ih, List.append_nil]

theorem headParts_quiet (items : List Comment) : (headParts pol items).filterMap noteOf = [] :=
  filterMap_owned fun c => by cases c.blank <;> rfl

theorem footParts_quiet (items : List Comment) : (footParts pol items).filterMap noteOf = [] :=
  filterMap_owned fun c => by cases c.blank <;> rfl

/-- What stands after an entry begins with its comma and its comment. -/
theorem endParts_split (close : Text) (entry : List Node) (last : Bool) (foot : List Comment) :
    ∃ comma later, endParts pol close entry last foot = comma ++ noteParts entry ++ later ∧
      (comma = [] ∨ comma = [.word [0x2c]]) ∧ later.filterMap noteOf = [] := by
  have quiet {rest : List Part} (none : rest.filterMap noteOf = []) :
      (footParts pol foot ++ rest).filterMap noteOf = [] := by
    rw [List.filterMap_append, footParts_quiet, none, List.append_nil]
  unfold endParts
  dsimp only
  generalize (noteParts entry ++ footParts pol foot).isEmpty = none
  cases last with
  | true =>
    refine ⟨[], _, List.append_assoc .., .inl rfl, quiet ?_⟩
    cases none <;> rfl
  | false =>
    refine ⟨[.word [0x2c]], _, List.append_assoc (.word [0x2c] :: noteParts entry) .., .inr rfl, quiet ?_⟩
    cases none <;> rfl

theorem notes_after {first : List Part} (quiet : first.filterMap noteOf = []) (later : NotedParts pol lines es parts) :
    NotedParts pol lines es (first ++ parts) := by
  simpa using NotedParts.append (.quiet quiet) later

/-- An entry after the comments before it, with what stands after it and the entries that follow. -/
theorem notes_entry {entry : List Node} {close : Text} {last : Bool} {lead foot : List Comment}
    {begun : List Part} (entered : EntrySpelt pol lines entry parts) (inner : NotedParts pol lines es parts)
    (others : NotedParts pol lines fs more) (begins : begun = headParts pol lead ++ parts) :
    NotedParts pol lines (es ++ entry :: fs) (begun ++ endParts pol close entry last foot ++ more) := by
  subst begins
  obtain ⟨comma, later, split, ends, quiet⟩ := endParts_split pol close entry last foot
  have here : NotedParts pol lines (es ++ [entry]) (headParts pol lead ++ (parts ++ comma ++ noteParts entry)) :=
    notes_after pol lines (headParts_quiet pol lead) (.entry inner entered ends)
  have all := (here.append (.quiet quiet)).append others
  rw [split]
  simpa using all

/-- A collection has the entries that it is written with. -/
theorem notes_collection {first last : List Part} (opens : first.filterMap noteOf = [])
    (closes : last.filterMap noteOf = []) (inner : NotedParts pol lines es parts) :
    NotedParts pol lines es (first ++ parts ++ last) := by
  simpa using (notes_after pol lines opens inner).append (.quiet closes)

mutual

theorem node_notes : ∀ (n : Node) (t : Table), NotedParts pol lines (entries n) (nodeParts pol lines n t).1
  | .scalar i style v, t => by
    rw [entries, nodeParts]
    exact .quiet rfl
  | .reference i name, t => by
    rw [entries, nodeParts]
    exact .quiet rfl
  | .sequence i flow [], t => by
    rw [entries, itemEntries, nodeParts]
    exact .quiet rfl
  | .sequence i flow (n :: rest), t => by
    rw [entries, nodeParts]
    exact notes_collection pol lines rfl rfl (items_notes (n :: rest) t)
  | .mapping i flow [], t => by
    rw [entries, pairEntries, nodeParts]
    exact .quiet rfl
  | .mapping i flow (p :: rest), t => by
    rw [entries, nodeParts]
    exact notes_collection pol lines rfl rfl (pairs_notes (p :: rest) t)
  | .document i flow nodes, t => by
    rw [entries, nodeParts]
    exact nodes_notes nodes t

theorem items_notes : ∀ (items : List Node) (t : Table),
    NotedParts pol lines (itemEntries items) (itemParts pol lines items t).1
  | [], t => by
    rw [itemEntries, itemParts]
    exact .quiet rfl
  | n :: rest, t => by
    rw [itemEntries, itemParts]
    exact notes_entry pol lines (.item n _) (node_notes n _) (items_notes rest _) rfl

theorem nodes_notes : ∀ (nodes : List Node) (t : Table),
    NotedParts pol lines (nodeEntries nodes) (nodesParts pol lines nodes t).1
  | [], t => by
    rw [nodeEntries, nodesParts]
    exact .quiet rfl
  | n :: rest, t => by
    rw [nodeEntries, nodesParts]
    exact .append (node_notes n _) (nodes_notes rest _)

theorem pairs_notes : ∀ (pairs : List (Node × Node)) (t : Table),
    NotedParts pol lines (pairEntries pairs) (pairParts pol lines pairs t).1
  | [], t => by
    rw [pairEntries, pairParts]
    exact .quiet rfl
  | (k, v) :: rest, t => by
    rw [pairEntries, pairParts]
    have colon : NotedParts pol lines [] [.word [0x3a], .word [0x20]] := .quiet rfl
    have nodes (t u : Table) : NotedParts pol lines (entries k ++ entries v)
        ((nodeParts pol lines k t).1 ++ [.word [0x3a], .word [0x20]] ++ (nodeParts pol lines v u).1) := by
      simpa using ((node_notes k t).append colon).append (node_notes v u)
    have grouped (lead key colon value : List Part) : lead ++ key ++ colon ++ value = lead ++ (key ++ colon ++ value) :=
      by simp
    exact notes_entry pol lines (.pair k v _ _) (nodes _ _) (pairs_notes rest _) (grouped ..)

end

theorem document_notes (d : Document) (t : Table) :
    NotedParts pol lines (documentEntries d) (documentParts pol lines d t).1 := by
  obtain ⟨info, root⟩ := d
  cases root with
  | none =>
    refine .quiet ?_
    show (headParts pol _ ++ footParts pol _).filterMap noteOf = []
    rw [List.filterMap_append, headParts_quiet, footParts_quiet, List.append_nil]
  | some n =>
    have entry (t : Table) : NotedParts pol lines (entries n ++ [[n]])
        ((nodeParts pol lines n t).1 ++ noteParts [n]) := by
      simpa using NotedParts.entry (node_notes pol lines n t) (.item n t) (.inl rfl)
    have whole (lead foot : List Comment) (t : Table) :=
      notes_collection pol lines (headParts_quiet pol lead) (footParts_quiet pol foot) (entry t)
    simp only [← List.append_assoc] at whole
    exact whole _ _ _

theorem stream_notes (docs : List Document) (first : Bool) (t : Table) :
    NotedParts pol lines (streamEntries docs) (streamParts pol lines docs first t) := by
  induction docs generalizing first t with
  | nil => exact .quiet rfl
  | cons d docs ih =>
    have lead : (if first then [] else [.newline, .word "---", .newline] : List Part).filterMap noteOf = [] := by
      cases first <;> rfl
    exact .append (notes_after pol lines lead (document_notes pol lines d _)) (ih false _)

end Streams

section Counts

/-- The first elements of some lists are all their elements exactly if none of them has two. -/
theorem heads_perm {α β : Type} (f : α → List β) (l : List α) :
    (l.filterMap fun a => (f a).head?).Perm (l.flatMap f) ↔ ∀ a ∈ l, (f a).length ≤ 1 := by
  have short (l : List α) : (l.filterMap fun a => (f a).head?).length ≤ (l.flatMap f).length := by
    induction l with
    | nil => exact Nat.le_refl 0
    | cons a l ih => cases found : f a <;> simp [found] at ih ⊢ <;> omega
  constructor
  · intro same
    have lengths := same.length_eq
    clear same
    induction l with
    | nil => simp
    | cons a l ih =>
      have rest := short l
      have here : (f a).length ≤ 1 := by
        cases found : f a with
        | nil => exact Nat.zero_le 1
        | cons b bs =>
          simp only [List.filterMap_cons, found, List.head?_cons, List.flatMap_cons, List.length_cons,
            List.length_append] at lengths
          simp only [List.length_cons]
          omega
      refine List.forall_mem_cons.mpr ⟨here, ih ?_⟩
      cases found : f a <;> simp [found] at lengths here <;> simp_all
  · intro single
    induction l with
    | nil => exact .refl _
    | cons a l ih =>
      obtain ⟨here, rest⟩ := List.forall_mem_cons.mp single
      have later := ih rest
      match found : f a with
      | [] => simpa [found] using later
      | [b] => simpa [found] using later
      | b :: c :: bs => simp [found] at here

/-- A node after those inside it, or before them. -/
theorem around_remarks {n : Node} {is : List Info} {es : List (List Node)}
    (inside : (is.filterMap noteOn).Perm (es.flatMap remarksOn)) :
    ((n.info :: is).filterMap noteOn).Perm ((es ++ [[n]]).flatMap remarksOn) := by
  have own : [n].filterMap (fun n => noteOn n.info) = [n.info].filterMap noteOn := rfl
  rw [List.flatMap_append, List.flatMap_singleton, remarksOn, own, ← List.singleton_append, List.filterMap_append]
  exact (inside.append_left _).trans List.perm_append_comm

mutual

/-- The comments of all nodes in a node are those of the entries inside it and its own. -/
theorem node_remarks : ∀ n : Node, n.decoded = true →
    ((infos n).filterMap noteOn).Perm ((entries n ++ [[n]]).flatMap remarksOn)
  | .scalar i style v, _ => by
    rw [infos, entries]
    exact around_remarks (n := .scalar i style v) (.refl _)
  | .reference i name, _ => by
    rw [infos, entries]
    exact around_remarks (n := .reference i name) (.refl _)
  | .sequence i flow items, decoded => by
    rw [Node.decoded] at decoded
    rw [infos, entries]
    exact around_remarks (n := .sequence i flow items) (item_remarks items decoded)
  | .mapping i flow pairs, decoded => by
    rw [Node.decoded] at decoded
    rw [infos, entries]
    exact around_remarks (n := .mapping i flow pairs) (pair_remarks pairs decoded)
  | .document i flow nodes, decoded => by
    rw [Node.decoded] at decoded
    cases decoded

theorem item_remarks : ∀ items : List Node, Node.decodedItems items = true →
    ((itemInfos items).filterMap noteOn).Perm ((itemEntries items).flatMap remarksOn)
  | [], _ => by
    rw [itemInfos, itemEntries]
    exact .refl _
  | n :: rest, decoded => by
    rw [Node.decodedItems, Bool.and_eq_true] at decoded
    rw [itemInfos, itemEntries, List.filterMap_append]
    refine ((node_remarks n decoded.1).append (item_remarks rest decoded.2)).trans ?_
    rw [← List.flatMap_append, List.append_assoc]
    exact .refl _

theorem pair_remarks : ∀ pairs : List (Node × Node), Node.decodedPairs pairs = true →
    ((pairInfos pairs).filterMap noteOn).Perm ((pairEntries pairs).flatMap remarksOn)
  | [], _ => by
    rw [pairInfos, pairEntries]
    exact .refl _
  | (k, v) :: rest, decoded => by
    rw [Node.decodedPairs, Bool.and_eq_true, Bool.and_eq_true] at decoded
    have nodes := (node_remarks k decoded.1.1).append (node_remarks v decoded.1.2)
    rw [pairInfos, pairEntries, List.filterMap_append, List.filterMap_append]
    refine (nodes.append (pair_remarks rest decoded.2)).trans ?_
    have both : remarksOn [k, v] = remarksOn [k] ++ remarksOn [v] := List.filterMap_append (l := [k])
    simp only [List.flatMap_append, List.flatMap_cons, both, List.flatMap_nil, List.append_nil, List.append_assoc]
    -- The comment of the key comes before the entries inside the value, and is written after them.
    refine List.Perm.append_left _ ?_
    rw [← List.append_assoc, ← List.append_assoc (List.flatMap _ _)]
    exact List.perm_append_comm.append_right _

end

theorem stream_remarks (docs : List Document) (decoded : ∀ d ∈ docs, d.decoded = true) :
    (lineComments docs).Perm ((streamEntries docs).flatMap remarksOn) := by
  unfold lineComments streamEntries
  induction docs with
  | nil => exact .refl _
  | cons d docs ih =>
    obtain ⟨here, others⟩ := List.forall_mem_cons.mp decoded
    rw [List.flatMap_cons, List.flatMap_cons, List.filterMap_append, List.flatMap_append]
    refine List.Perm.append ?_ (ih others)
    obtain ⟨info, root⟩ := d
    cases root with
    | none => exact .refl _
    | some n => exact node_remarks n here

end Counts

section Outputs

variable {ι : Type} [Columns ι]

/-- No entry has more than one comment on its line. -/
def NotesSingle (docs : List Document) : Prop := ∀ entry ∈ streamEntries docs, (remarksOn entry).length ≤ 1

instance (docs : List Document) : Decidable (NotesSingle docs) := inferInstanceAs (Decidable (∀ _ ∈ _, _))

/-- An output of documents, without the white space at its end, with the comment of each entry after it: before the
comment stands what was written up to the comma of the entry, blanks aside, and after it a newline, or the end, where
it is cut off if it ends in white space. -/
def EntriesNoted (pol : Comment.Policy) (lines : List Text) (docs : List Document) (out : Text) : Prop :=
  ∀ before entry after t, streamEntries docs = before ++ entry :: after → shown entry = some t →
    ∃ ahead own comma later head,
      streamParts pol lines docs true .empty = ahead ++ own ++ comma ++ noteParts entry ++ later ∧
      EntrySpelt pol lines entry own ∧ (comma = [] ∨ comma = [.word [0x2c]]) ∧
      (ahead ++ own).filterMap noteOf = before.filterMap shown ∧ later.filterMap noteOf = after.filterMap shown ∧
      solid head = solid ((ahead ++ own ++ comma).flatMap wordOf) ∧
      ((∃ rest, out = head ++ t ++ 0x0a :: rest) ∨ out = (head ++ t).trimRight)

theorem noted_of_closed {pol : Comment.Policy} {lines : List Text} {docs : List Document} {out : Text}
    (comments : CommentsClosed (streamParts pol lines docs true .empty) out) : EntriesNoted pol lines docs out := by
  intro before entry after t same found
  obtain ⟨ahead, own, comma, later, parts, entered, ends, early, late⟩ :=
    notes_follow (stream_notes pol lines docs true .empty) before entry after same
  have note : streamParts pol lines docs true .empty =
      (ahead ++ own ++ comma ++ [.word [0x20]]) ++ .note t :: later := by
    rw [parts, noteParts_shown, found]
    simp
  obtain ⟨head, words, ending⟩ := comments _ _ t _ note rfl
  refine ⟨ahead, own, comma, later, head, parts, entered, ends, early, late, ?_, ending⟩
  rw [words, List.flatMap_append, solid_append]
  exact List.append_nil _

/-- Documents that are formatted with the comments of their entries after them. -/
def StreamNotesEntries (o : Options ι) (lines : List Text) (docs : List Document) : Prop :=
  ∃ out, Yaml.formatRead o lines docs none = .ok out ∧ EntriesNoted o.comments lines docs out

theorem notes_of_keeps {o : Options ι} {lines : List Text} {docs : List Document}
    (keeps : StreamKeepsComments o lines docs) : StreamNotesEntries o lines docs := by
  obtain ⟨out, formatted, shown⟩ := keeps.shown
  refine ⟨out, formatted, noted_of_closed fun before part t after same comment => ?_⟩
  obtain ⟨head, words, -, ending⟩ := shown before part t after same comment
  exact ⟨head, words, ending⟩

end Outputs

/-- The comments on the lines of entries are written once each, as long as no pair has one with its key and one with
its value: of each entry the first is written, right after the entry, and no other. Machine words have to count the
texts for that, but not the indentation; where they count that too, nothing is refused. -/
theorem line_comments_follow_entries (lines : List Text) (docs : List Document)
    (decoded : ∀ d ∈ docs, d.decoded = true) :
    (∀ pol, (streamParts pol lines docs true .empty).filterMap noteOf = (streamEntries docs).filterMap shown ∧
      (((streamParts pol lines docs true .empty).filterMap noteOf).Perm (lineComments docs) ↔ NotesSingle docs)) ∧
    (∀ (o : Options Int) (start : Printer Int), Printer.ofConfig o.layout = .ok start →
      StreamNotesEntries o lines docs) ∧
    (∀ (o : Options Int64) (start : Printer Int64), Printer.ofConfig o.layout = .ok start →
      (ColumnsCount o (streamCalls lines docs) → StreamNotesEntries o lines docs) ∧
      (TextsCount o (streamCalls lines docs) → ∀ out, Yaml.formatRead o lines docs none = .ok out →
        EntriesNoted o.comments lines docs out)) := by
  refine ⟨fun pol => ?_, ?_, ?_⟩
  · have first := notes_shown (stream_notes pol lines docs true .empty)
    refine ⟨first, ?_⟩
    rw [first, (stream_remarks docs decoded).congr_right]
    exact heads_perm remarksOn (streamEntries docs)
  · intro o start accepted
    exact notes_of_keeps (stream_keeps decoded accepted)
  · intro o start accepted
    refine ⟨fun room => notes_of_keeps (stream_keeps_words decoded accepted room), fun light out formatted => ?_⟩
    exact noted_of_closed (stream_closes_words decoded accepted light formatted)

/-- Comments of a key, of an item inside its value, of a value and of an item of another collection; and one where a
second level of indentation runs over a word. -/
theorem line_comments_follow_entries_nested :
    let src : Text := "a: # k\n  - b # i\nc: d # v\ne: [f # l\n  ]\n"
    let o : Options Int64 := Options.standard
    let docs := (Document.read src).1
    let flat : Text := "a: b # n\nc: d\n"
    let wide : Options Int64 := { Options.standard with layout.unit := 0x6000000000000000, layout.tabs := true }
    NotesSingle docs ∧ ((streamParts o.comments src.lines docs true .empty).filterMap noteOf).Perm (lineComments docs) ∧
      StreamNotesEntries o src.lines docs ∧
      Yaml.format o src = .ok ("\x7b\n    a: [\n        b # i\n    ], # k\n    c: d, # v\n" ++
        "    e: [\n        f # l\n    ]\n\x7d" : String) ∧
      EntriesNoted wide.comments flat.lines (Document.read flat).1 "\x7b\n\ta: b, # n\n\tc: d\n\x7d" := by
  intro src o docs flat wide
  obtain ⟨each, -, words⟩ := line_comments_follow_entries src.lines docs (Yaml.Decoding.read_decoded src)
  have single : NotesSingle docs := by decide +kernel
  have room : ColumnsCount o (streamCalls src.lines docs) := by decide +kernel
  obtain ⟨-, -, also⟩ := line_comments_follow_entries flat.lines _ (Yaml.Decoding.read_decoded flat)
  have light : TextsCount wide (streamCalls flat.lines (Document.read flat).1) := by decide +kernel
  exact ⟨single, (each o.comments).2.mpr single, (words o _ rfl).1 room, by decide +kernel,
    (also wide _ rfl).2 light _ (by decide +kernel)⟩

/-- The key and the value of a pair both have a comment on their line: that of the value is dropped. -/
theorem line_comment_of_value_dropped :
    let src : Text := "a: # key\n  b # value\n"
    let docs := (Document.read src).1
    lineComments docs = (["# key", "# value"] : List Text) ∧
      (streamParts Comment.Policy.standard src.lines docs true .empty).filterMap noteOf = (["# key"] : List Text) ∧
      Yaml.format (Options.standard : Options Int64) src = .ok "\x7b\n    a: b # key\n\x7d" := by
  decide +kernel

end Galley.Layout.EntryNotes
