import Galley.Proofs.Annotation

/-! The books of the comments of YAML streams. Comments before and after the nodes of a document are put on a
table by where their nodes stand, and taken from it when the nodes are written. Nodes may share a place, so
that one takes what belongs to another; but every place where something was put is visited. Main statement:
each line of these comments is written once, and after each document the table is empty. -/
namespace Galley.Layout.Bookkeeping
open Yaml (Node Document Info)
open Comment (Span Shelf Table)
open Annotation

section Lines

/-- The lines of a comment that hold something, without the white space around them. -/
def remarks (t : Text) : List Text := (t.lines.map Text.trim).filter (!·.isEmpty)

/-- A line with the sign of a comment, which is put before it if it is not there. -/
def signed (l : Text) : Text := if l.startsWith Node.marker then l else Node.marker ++ l

/-- The lines of some items that are not blank. -/
def said (items : List Comment) : List Text := (items.filter (!·.blank)).map Comment.toText

@[simp] theorem said_nil : said [] = [] := rfl

@[simp] theorem said_append (items more : List Comment) : said (items ++ more) = said items ++ said more := by
  simp [said]

theorem said_cons (c : Comment) (items : List Comment) :
    said (c :: items) = if c.blank then said items else c.toText :: said items := by
  cases blank : c.blank <;> simp [said, blank]

theorem marker_dropStart (l : Text) : Node.marker ++ Text.dropStart l Node.marker = signed l := by
  unfold signed Text.dropStart
  split
  · rename_i marked
    obtain ⟨rest, rfl⟩ := List.isPrefixOf_iff_prefix.mp marked
    rw [List.drop_left]
  · rfl

theorem said_commentLines (t : Text) : said (Node.commentLines t) = (remarks t).map signed := by
  unfold Node.commentLines
  split
  · rename_i void
    obtain rfl := List.isEmpty_iff.mp void
    rfl
  · unfold remarks
    generalize t.lines = lines
    induction lines with
    | nil => rfl
    | cons l lines ih =>
      rw [List.map_cons, said_cons, ih]
      cases void : (Text.trim l).isEmpty with
      | true => simp [void, Comment.blankLine]
      | false => simp [void, Comment.line, Comment.toText, marker_dropStart]

/-- The items that are not blank lines. -/
def spoken (items : List Comment) : List Comment := items.filter (!·.blank)

theorem said_spoken (items : List Comment) : said items = (spoken items).map Comment.toText := rfl

@[simp] theorem spoken_append (items more : List Comment) : spoken (items ++ more) = spoken items ++ spoken more :=
  List.filter_append ..

theorem spoken_dropWhile (items : List Comment) : spoken (items.dropWhile (·.blank)) = spoken items := by
  induction items with
  | nil => rfl
  | cons c items ih => cases blank : c.blank <;> simp_all [spoken]

/-- Only blank lines are trimmed. -/
theorem spoken_trimBlank (items : List Comment) : spoken (Comment.trimBlank items) = spoken items := by
  have reversed (items : List Comment) : spoken items.reverse = (spoken items).reverse := List.filter_reverse
  rw [Comment.trimBlank, reversed, spoken_dropWhile, reversed, List.reverse_reverse, spoken_dropWhile]

theorem said_trimBlank (items : List Comment) : said (Comment.trimBlank items) = said items := by
  rw [said_spoken, said_spoken, spoken_trimBlank]

variable {pol : Comment.Policy} (unwrapped : pol.wrapWidth ≤ 0)
include unwrapped

/-- Without wrapping, only blank lines are dropped. -/
theorem spoken_normalize (items : List Comment) : spoken (pol.normalize items) = spoken items := by
  have after (run : Nat) : spoken (pol.normalizeAfter run items) = spoken items := by
    induction items generalizing run with
    | nil => rfl
    | cons c items ih =>
      simp only [spoken] at ih ⊢
      cases blank : c.blank with
      | true =>
        simp only [Comment.Policy.normalizeAfter, blank, ↓reduceIte]
        split <;> simp [blank, ih]
      | false =>
        have whole : pol.wrap c = [c] := if_pos (.inl unwrapped)
        simp [Comment.Policy.normalizeAfter, blank, whole, ih]
  exact after 0

theorem said_normalize (items : List Comment) : said (pol.normalize items) = said items := by
  rw [said_spoken, said_spoken, spoken_normalize unwrapped]

end Lines

section Parts

/-- The comment that a part is, if it has a line of its own. -/
def ownOf : Part → Option Text
  | .own t => some t
  | _ => none

/-- The comments among some parts that have lines of their own. -/
def owned (parts : List Part) : List Text := parts.filterMap ownOf

@[simp] theorem owned_append (parts more : List Part) : owned (parts ++ more) = owned parts ++ owned more :=
  List.filterMap_append

/-- Items that are each written as what they say are written as what all of them say. -/
theorem owned_lines {write : Comment → List Part}
    (each : ∀ c, owned (write c) = if c.blank then [] else [c.toText]) (items : List Comment) :
    owned (items.flatMap write) = said items := by
  induction items with
  | nil => rfl
  | cons c items ih =>
    rw [List.flatMap_cons, owned_append, ih, each, said_cons]
    cases c.blank <;> rfl

theorem owned_headLines (items : List Comment) : owned (headLines items) = said items := by
  refine owned_lines (fun c => ?_) items
  cases c.blank <;> rfl

theorem owned_footLines (items : List Comment) : owned (footLines items) = said items := by
  refine owned_lines (fun c => ?_) items
  cases c.blank <;> rfl

theorem owned_noteParts (nodes : List Node) : owned (noteParts nodes) = [] := by
  unfold noteParts
  split <;> rfl

variable {pol : Comment.Policy} (unwrapped : pol.wrapWidth ≤ 0)
include unwrapped

theorem owned_headParts (items : List Comment) : owned (headParts pol items) = said items := by
  rw [headParts, owned_headLines, said_normalize unwrapped]

theorem owned_footParts (items : List Comment) : owned (footParts pol items) = said items := by
  rw [footParts, owned_footLines, said_normalize unwrapped, said_trimBlank]

theorem owned_endParts (close : Text) (nodes : List Node) (last : Bool) (foot : List Comment) :
    owned (endParts pol close nodes last foot) = said foot := by
  have notes : owned (noteParts nodes ++ footParts pol foot) = said foot := by
    rw [owned_append, owned_noteParts, owned_footParts unwrapped, List.nil_append]
  unfold endParts
  generalize noteParts nodes ++ footParts pol foot = all at notes
  cases last with
  | true =>
    rw [if_pos rfl, owned_append, notes]
    cases all <;> exact List.append_nil _
  | false =>
    rw [if_neg Bool.false_ne_true, owned_append]
    show owned all ++ _ = _
    rw [notes]
    cases all <;> exact List.append_nil _

end Parts

section Shelves

/-- The places of a shelf. -/
def places (shelf : Shelf) : List Span := shelf.map Prod.fst

/-- All lines on a shelf. -/
def shelved (shelf : Shelf) : List Text := shelf.flatMap fun entry => said entry.2

variable {shelf : Shelf} {s p : Span} {items : List Comment}

theorem mem_places_add : p ∈ places (shelf.add s items) ↔ p ∈ places shelf ∨ p = s := by
  induction shelf with
  | nil => simp [Shelf.add, places]
  | cons entry shelf ih =>
    obtain ⟨k, old⟩ := entry
    by_cases same : k = s
    · subst same
      simp only [Shelf.add, ↓reduceIte, places, List.map_cons, List.mem_cons]
      rw [or_right_comm, or_self]
    · simp only [Shelf.add, same, ↓reduceIte, places, List.map_cons, List.mem_cons] at ih ⊢
      rw [ih, or_assoc]

theorem nodup_add (distinct : (places shelf).Nodup) : (places (shelf.add s items)).Nodup := by
  induction shelf with
  | nil => simp [Shelf.add, places]
  | cons entry shelf ih =>
    obtain ⟨k, old⟩ := entry
    obtain ⟨fresh, rest⟩ := List.nodup_cons.mp distinct
    by_cases same : k = s
    · simp only [Shelf.add, same, ↓reduceIte]
      exact same ▸ distinct
    · simp only [Shelf.add, same, ↓reduceIte]
      refine List.nodup_cons.mpr ⟨fun member => ?_, ih rest⟩
      rcases mem_places_add.mp member with old | new
      · exact fresh old
      · exact same new

theorem shelved_add : (shelved (shelf.add s items)).Perm (shelved shelf ++ said items) := by
  induction shelf with
  | nil => simp [Shelf.add, shelved]
  | cons entry shelf ih =>
    obtain ⟨k, old⟩ := entry
    by_cases same : k = s
    · simp only [Shelf.add, same, ↓reduceIte, shelved, List.flatMap_cons, said_append, List.append_assoc]
      exact List.perm_append_comm.append_left _
    · simp only [Shelf.add, same, ↓reduceIte, shelved, List.flatMap_cons, List.append_assoc]
      exact ih.append_left _

theorem mem_places_erase : p ∈ places (shelf.erase s) ↔ p ∈ places shelf ∧ p ≠ s := by
  simp only [places, Shelf.erase, List.mem_map, List.mem_filter, decide_eq_true_eq]
  constructor
  · rintro ⟨entry, ⟨member, other⟩, rfl⟩
    exact ⟨⟨entry, member, rfl⟩, other⟩
  · rintro ⟨⟨entry, member, rfl⟩, other⟩
    exact ⟨entry, ⟨member, other⟩, rfl⟩

theorem nodup_erase (distinct : (places shelf).Nodup) : (places (shelf.erase s)).Nodup :=
  distinct.sublist (List.filter_sublist.map Prod.fst)

/-- What is taken from a place and what is left are what was there. -/
theorem shelved_take (distinct : (places shelf).Nodup) :
    (shelved shelf).Perm (said (shelf.get s) ++ shelved (shelf.erase s)) := by
  induction shelf with
  | nil => exact .refl _
  | cons entry shelf ih =>
    obtain ⟨k, own⟩ := entry
    obtain ⟨fresh, rest⟩ := List.nodup_cons.mp distinct
    by_cases same : k = s
    · subst same
      have others : shelf.filter (fun entry => entry.1 ≠ k) = shelf := by
        refine List.filter_eq_self.mpr fun entry member => ?_
        have apart : entry.1 ≠ k := fun also => fresh (also ▸ List.mem_map.mpr ⟨entry, member, rfl⟩)
        simpa using apart
      have left : Shelf.erase ((k, own) :: shelf) k = shelf := by
        rw [Shelf.erase, List.filter_cons_of_neg (by simp)]
        exact others
      have taken : Shelf.get ((k, own) :: shelf) k = own := by simp [Shelf.get]
      rw [left, taken]
      exact .refl _
    · have left : Shelf.erase ((k, own) :: shelf) s = (k, own) :: Shelf.erase shelf s :=
        List.filter_cons_of_pos (by simpa using same)
      have taken : Shelf.get ((k, own) :: shelf) s = Shelf.get shelf s := by
        have apart : (s == k) = false := beq_false_of_ne (Ne.symm same)
        simp [Shelf.get, List.lookup_cons, apart]
      rw [left, taken, shelved, List.flatMap_cons, shelved, List.flatMap_cons]
      refine ((ih rest).append_left (said own)).trans ?_
      rw [← List.append_assoc, ← List.append_assoc]
      exact List.perm_append_comm.append_right _

end Shelves

section Tables

/-- All lines on a table. -/
def onTable (t : Table) : List Text := shelved t.leading ++ shelved t.trailing

/-- A table that has each place once. -/
def PlacesDistinct (t : Table) : Prop := (places t.leading).Nodup ∧ (places t.trailing).Nodup

/-- A table onto which some lines were put, at some places. -/
structure LinesPut (spans : List Span) (lines : List Text) (t u : Table) : Prop where
  sound : PlacesDistinct t → PlacesDistinct u
  books : (onTable u).Perm (onTable t ++ lines)
  leading : ∀ p ∈ places u.leading, p ∈ places t.leading ∨ p ∈ spans
  trailing : ∀ p ∈ places u.trailing, p ∈ places t.trailing ∨ p ∈ spans

/-- A table from which some lines were taken: all that stood before some places and after others. -/
structure LinesTaken (heads feet : List Span) (lines : List Text) (t u : Table) : Prop where
  sound : PlacesDistinct t → PlacesDistinct u
  books : PlacesDistinct t → (onTable t).Perm (lines ++ onTable u)
  leading : ∀ p ∈ places u.leading, p ∈ places t.leading ∧ p ∉ heads
  trailing : ∀ p ∈ places u.trailing, p ∈ places t.trailing ∧ p ∉ feet

variable {t u v : Table} {ps qs heads feet ahead below : List Span} {xs ys : List Text}

theorem put_nothing (t : Table) : LinesPut [] [] t t :=
  ⟨id, by rw [List.append_nil], fun _ => .inl, fun _ => .inl⟩

theorem put_append (first : LinesPut ps xs t u) (second : LinesPut qs ys u v) : LinesPut (ps ++ qs) (xs ++ ys) t v where
  sound sound := second.sound (first.sound sound)
  books := by
    refine second.books.trans ?_
    rw [← List.append_assoc]
    exact first.books.append_right ys
  leading p there := by
    rw [List.mem_append, ← or_assoc]
    exact (second.leading p there).imp_left (first.leading p)
  trailing p there := by
    rw [List.mem_append, ← or_assoc]
    exact (second.trailing p there).imp_left (first.trailing p)

theorem put_mono (put : LinesPut ps xs t u) (same : xs.Perm ys) (among : ps ⊆ qs) : LinesPut qs ys t u where
  sound := put.sound
  books := put.books.trans (same.append_left _)
  leading p there := (put.leading p there).imp_right fun new => among new
  trailing p there := (put.trailing p there).imp_right fun new => among new

theorem put_leading (t : Table) (s : Span) (items : List Comment) :
    LinesPut [s] (said items) t (t.addLeading s items) where
  sound sound := ⟨nodup_add sound.1, sound.2⟩
  books := by
    refine (shelved_add.append_right _).trans ?_
    rw [onTable, List.append_assoc, List.append_assoc]
    exact List.perm_append_comm.append_left _
  leading p there := (mem_places_add.mp there).imp_right List.mem_singleton.mpr
  trailing _ := .inl

theorem put_trailing (t : Table) (s : Span) (items : List Comment) :
    LinesPut [s] (said items) t (t.addTrailing s items) where
  sound sound := ⟨sound.1, nodup_add sound.2⟩
  books := by
    rw [onTable, onTable, List.append_assoc]
    exact shelved_add.append_left _
  leading _ := .inl
  trailing p there := (mem_places_add.mp there).imp_right List.mem_singleton.mpr

theorem took_nothing (t : Table) : LinesTaken [] [] [] t t :=
  ⟨id, fun _ => .refl _, fun _ there => ⟨there, List.not_mem_nil⟩, fun _ there => ⟨there, List.not_mem_nil⟩⟩

theorem took_append (first : LinesTaken heads feet xs t u) (second : LinesTaken ahead below ys u v) :
    LinesTaken (heads ++ ahead) (feet ++ below) (xs ++ ys) t v where
  sound sound := second.sound (first.sound sound)
  books sound := by
    refine (first.books sound).trans ?_
    rw [List.append_assoc]
    exact (second.books (first.sound sound)).append_left xs
  leading p there := by
    have later := second.leading p there
    have before := first.leading p later.1
    exact ⟨before.1, by simp [before.2, later.2]⟩
  trailing p there := by
    have later := second.trailing p there
    have before := first.trailing p later.1
    exact ⟨before.1, by simp [before.2, later.2]⟩

theorem took_mono (took : LinesTaken heads feet xs t u) (same : xs = ys) (front : ahead ⊆ heads) (back : below ⊆ feet) :
    LinesTaken ahead below ys t u where
  sound := took.sound
  books := same ▸ took.books
  leading p there := (took.leading p there).imp_right fun gone among => gone (front among)
  trailing p there := (took.trailing p there).imp_right fun gone among => gone (back among)

theorem took_leading (t : Table) (s : Span) :
    LinesTaken [s] [] (said (t.takeLeading s).1) t (t.takeLeading s).2 where
  sound sound := ⟨nodup_erase sound.1, sound.2⟩
  books sound := by
    rw [onTable, onTable, ← List.append_assoc]
    exact (shelved_take sound.1).append_right _
  leading p there := (mem_places_erase.mp there).imp_right fun other => by simpa using other
  trailing p there := ⟨there, List.not_mem_nil⟩

theorem took_trailing (t : Table) (s : Span) :
    LinesTaken [] [s] (said (t.takeTrailing s).1) t (t.takeTrailing s).2 where
  sound sound := ⟨sound.1, nodup_erase sound.2⟩
  books sound := by
    refine ((shelved_take (s := s) sound.2).append_left (shelved t.leading)).trans ?_
    rw [onTable, ← List.append_assoc, ← List.append_assoc]
    exact List.perm_append_comm.append_right _
  leading p there := ⟨there, List.not_mem_nil⟩
  trailing p there := (mem_places_erase.mp there).imp_right fun other => by simpa using other

theorem took_heads (nodes : List Node) (t : Table) :
    LinesTaken (nodes.map Node.span) [] (said (Node.takeLeading nodes t).1) t (Node.takeLeading nodes t).2 := by
  induction nodes generalizing t with
  | nil => exact took_nothing t
  | cons n nodes ih =>
    refine took_mono (took_append (took_leading t n.span) (ih _)) ?_ (List.Subset.refl _) (List.Subset.refl _)
    rw [← said_append]
    rfl

theorem took_feet (nodes : List Node) (t : Table) :
    LinesTaken [] (nodes.map Node.span) (said (Node.takeTrailing nodes t).1) t (Node.takeTrailing nodes t).2 := by
  induction nodes generalizing t with
  | nil => exact took_nothing t
  | cons n nodes ih =>
    refine took_mono (took_append (took_trailing t n.span) (ih _)) ?_ (List.Subset.refl _) (List.Subset.refl _)
    rw [← said_append]
    rfl

/-- Where all was put that is on a table, nothing is left once all of it is taken. -/
theorem settled {lines : List Text} (put : LinesPut ps lines .empty t) (took : LinesTaken ps ps xs t u) :
    u = .empty ∧ xs.Perm lines := by
  -- A place that is left was on the table before, so something was put there; but then it was taken.
  have front (p : Span) : p ∉ places u.leading := fun there => by
    obtain ⟨before, gone⟩ := took.leading p there
    rcases put.leading p before with none | placed
    · cases none
    · exact gone placed
  have back (p : Span) : p ∉ places u.trailing := fun there => by
    obtain ⟨before, gone⟩ := took.trailing p there
    rcases put.trailing p before with none | placed
    · cases none
    · exact gone placed
  have none : u = .empty := by
    obtain ⟨leading, trailing⟩ := u
    obtain rfl := List.map_eq_nil_iff.mp (List.eq_nil_iff_forall_not_mem.mpr front)
    obtain rfl := List.map_eq_nil_iff.mp (List.eq_nil_iff_forall_not_mem.mpr back)
    rfl
  subst none
  have sound : PlacesDistinct t := put.sound ⟨List.nodup_nil, List.nodup_nil⟩
  have taken : (onTable t).Perm xs := by
    have books := took.books sound
    rwa [show onTable .empty = [] from rfl, List.append_nil] at books
  exact ⟨rfl, taken.symm.trans put.books⟩

end Tables

section Nodes

/-- The lines of the comments before and after a node. -/
def remarksOf (i : Info) : List Text := remarks i.notes.head ++ remarks i.notes.foot

mutual

/-- What a node and all nodes inside it come with. -/
def infos : Node → List Info
  | .scalar i _ _ => [i]
  | .reference i _ => [i]
  | .sequence i _ items => i :: itemInfos items
  | .mapping i _ pairs => i :: pairInfos pairs
  | .document i _ nodes => i :: itemInfos nodes

/-- What some items and all nodes inside them come with. -/
def itemInfos : List Node → List Info
  | [] => []
  | n :: rest => infos n ++ itemInfos rest

/-- What some pairs and all nodes inside them come with. -/
def pairInfos : List (Node × Node) → List Info
  | [] => []
  | (k, v) :: rest => infos k ++ infos v ++ pairInfos rest

end

mutual

/-- The places of all nodes inside a node. -/
def inner : Node → List Span
  | .scalar .. | .reference .. => []
  | .sequence _ _ items => itemSpans items
  | .mapping _ _ pairs => pairSpans pairs
  | .document _ _ nodes => itemSpans nodes

/-- The places of some items and all nodes inside them. -/
def itemSpans : List Node → List Span
  | [] => []
  | n :: rest => n.span :: inner n ++ itemSpans rest

/-- The places of some pairs and all nodes inside them. -/
def pairSpans : List (Node × Node) → List Span
  | [] => []
  | (k, v) :: rest => k.span :: inner k ++ (v.span :: inner v) ++ pairSpans rest

end

/-- The lines of the comments of some nodes, each with the sign of a comment. -/
def linesOf (infos : List Info) : List Text := (infos.flatMap remarksOf).map signed

@[simp] theorem linesOf_append (is js : List Info) : linesOf (is ++ js) = linesOf is ++ linesOf js := by
  simp [linesOf]

variable {t u : Table} {ps : List Span}

/-- A node is recorded with what is inside it. -/
theorem put_around {s : Span} {i : Info} {is : List Info}
    (inside : LinesPut ps (linesOf is) (t.addLeading s (Node.commentLines i.notes.head)) u) :
    LinesPut (s :: ps) (linesOf (i :: is)) t (u.addTrailing s (Node.commentLines i.notes.foot)) := by
  refine put_mono (put_append (put_append (put_leading t s _) inside) (put_trailing u s _)) ?_ (by simp)
  rw [said_commentLines, said_commentLines, List.append_assoc]
  simp only [linesOf, List.flatMap_cons, remarksOf, List.map_append, List.append_assoc]
  exact List.perm_append_comm.append_left _

theorem put_space (flow : Bool) (before : Option Int64) (n : Node) (t : Table) :
    LinesPut [n.span] [] t (n.spaceBefore flow before t) := by
  have nothing : LinesPut [n.span] [] t t := put_mono (put_nothing t) (.refl _) (List.nil_subset _)
  unfold Node.spaceBefore
  split
  · split
    · exact put_leading t n.span [.blankLine]
    · exact nothing
  · exact nothing

mutual

theorem put_node : ∀ (n : Node) (t : Table), LinesPut (n.span :: inner n) (linesOf (infos n)) t (n.collect t)
  | .scalar i style v, t => by
    rw [inner, infos, Node.collect]
    exact put_around (put_nothing _)
  | .reference i name, t => by
    rw [inner, infos, Node.collect]
    exact put_around (put_nothing _)
  | .sequence i flow items, t => by
    rw [inner, infos, Node.collect]
    exact put_around (put_items flow none items _)
  | .mapping i flow pairs, t => by
    rw [inner, infos, Node.collect]
    exact put_around (put_pairs flow none pairs _)
  | .document i flow nodes, t => by
    rw [inner, infos, Node.collect]
    exact put_around (put_items flow none nodes _)

theorem put_items (flow : Bool) (before : Option Int64) : ∀ (items : List Node) (t : Table),
    LinesPut (itemSpans items) (linesOf (itemInfos items)) t (Node.collectItems flow before items t)
  | [], t => by
    rw [itemSpans, itemInfos, Node.collectItems]
    exact put_nothing t
  | n :: rest, t => by
    rw [itemSpans, itemInfos, Node.collectItems, linesOf_append]
    have first := put_append (put_space flow before n t) (put_node n _)
    exact put_mono (put_append first (put_items flow (some n.endLine) rest _)) (.refl _) (by simp)

theorem put_pairs (flow : Bool) (before : Option Int64) : ∀ (pairs : List (Node × Node)) (t : Table),
    LinesPut (pairSpans pairs) (linesOf (pairInfos pairs)) t (Node.collectPairs flow before pairs t)
  | [], t => by
    rw [pairSpans, pairInfos, Node.collectPairs]
    exact put_nothing t
  | (k, v) :: rest, t => by
    rw [pairSpans, pairInfos, Node.collectPairs, linesOf_append, linesOf_append]
    have first := put_append (put_append (put_space flow before k t) (put_node k _)) (put_node v _)
    exact put_mono (put_append first (put_pairs flow (some v.endLine) rest _)) (.refl _) (by simp)

end

variable {pol : Comment.Policy} (lines : List Text)

mutual

theorem took_node (unwrapped : pol.wrapWidth ≤ 0) : ∀ (n : Node) (t : Table), n.decoded = true →
    LinesTaken (inner n) (inner n) (owned (nodeParts pol lines n t).1) t (nodeParts pol lines n t).2
  | .scalar i style v, t, _ => by
    rw [inner, nodeParts]
    exact took_nothing t
  | .reference i name, t, _ => by
    rw [inner, nodeParts]
    exact took_nothing t
  | .sequence i flow [], t, _ => by
    rw [inner, nodeParts]
    exact took_nothing t
  | .sequence i flow (n :: rest), t, decoded => by
    rw [inner, nodeParts]
    rw [Node.decoded] at decoded
    refine took_mono (took_items unwrapped (n :: rest) t decoded) ?_ (List.Subset.refl _) (List.Subset.refl _)
    show _ = owned (openParts i [0x5b] ++ _ ++ [.stop])
    rw [owned_append, owned_append]
    exact (List.append_nil _).symm
  | .mapping i flow [], t, _ => by
    rw [inner, nodeParts]
    exact took_nothing t
  | .mapping i flow (p :: rest), t, decoded => by
    rw [inner, nodeParts]
    rw [Node.decoded] at decoded
    refine took_mono (took_pairs unwrapped (p :: rest) t decoded) ?_ (List.Subset.refl _) (List.Subset.refl _)
    show _ = owned (openParts i [0x7b] ++ _ ++ [.stop])
    rw [owned_append, owned_append]
    exact (List.append_nil _).symm
  | .document i flow nodes, t, decoded => by
    rw [Node.decoded] at decoded
    cases decoded

theorem took_items (unwrapped : pol.wrapWidth ≤ 0) : ∀ (items : List Node) (t : Table),
    Node.decodedItems items = true →
    LinesTaken (itemSpans items) (itemSpans items)
      (owned (itemParts pol lines items t).1) t (itemParts pol lines items t).2
  | [], t, _ => by
    rw [itemSpans, itemParts]
    exact took_nothing t
  | n :: rest, t, decoded => by
    rw [itemSpans, itemParts]
    rw [Node.decodedItems, Bool.and_eq_true] at decoded
    have entry := took_append (took_append (took_heads [n] t) (took_node unwrapped n _ decoded.1)) (took_feet [n] _)
    refine took_mono (took_append entry (took_items unwrapped rest _ decoded.2)) ?_ (by simp) (by simp)
    show _ = owned (headParts pol _ ++ _ ++ endParts pol [0x5d] [n] rest.isEmpty _ ++ _)
    simp only [owned_append, owned_headParts unwrapped, owned_endParts unwrapped]

theorem took_pairs (unwrapped : pol.wrapWidth ≤ 0) : ∀ (pairs : List (Node × Node)) (t : Table),
    Node.decodedPairs pairs = true →
    LinesTaken (pairSpans pairs) (pairSpans pairs)
      (owned (pairParts pol lines pairs t).1) t (pairParts pol lines pairs t).2
  | [], t, _ => by
    rw [pairSpans, pairParts]
    exact took_nothing t
  | (k, v) :: rest, t, decoded => by
    rw [pairSpans, pairParts]
    rw [Node.decodedPairs, Bool.and_eq_true, Bool.and_eq_true] at decoded
    have key := took_append (took_heads [k, v] t) (took_node unwrapped k _ decoded.1.1)
    have entry := took_append (took_append key (took_node unwrapped v _ decoded.1.2)) (took_feet [k, v] _)
    refine took_mono (took_append entry (took_pairs unwrapped rest _ decoded.2)) ?_ (by grind) (by grind)
    show _ = owned (headParts pol _ ++ _ ++ [.word [0x3a], .word [0x20]] ++ _ ++
      endParts pol [0x7d] [k, v] rest.isEmpty _ ++ _)
    have signs : owned [.word [0x3a], .word [0x20]] = [] := rfl
    simp only [owned_append, owned_headParts unwrapped, owned_endParts unwrapped, signs, List.append_nil]

end

end Nodes

section Documents

/-- What a document and all its nodes come with. -/
def documentInfos (d : Document) : List Info := d.info :: (d.root.map infos).getD []

/-- The lines of the comments before and after the nodes of some documents. -/
def streamRemarks (docs : List Document) : List Text := (docs.flatMap documentInfos).flatMap remarksOf

/-- The places of a document and of all its nodes. -/
def documentSpans (d : Document) : List Span := d.span :: (d.root.map fun n => n.span :: inner n).getD []

theorem put_document (d : Document) (t : Table) :
    LinesPut (documentSpans d) (linesOf (documentInfos d)) t (d.collect t) := by
  obtain ⟨info, root⟩ := d
  cases root with
  | none => exact put_around (put_nothing _)
  | some n => exact put_around (put_node n _)

variable {pol : Comment.Policy} (unwrapped : pol.wrapWidth ≤ 0) (lines : List Text)
include unwrapped

theorem took_document (d : Document) (t : Table) (decoded : d.decoded = true) :
    LinesTaken (documentSpans d) (documentSpans d) (owned (documentParts pol lines d t).1) t
      (documentParts pol lines d t).2 := by
  obtain ⟨info, root⟩ := d
  cases root with
  | none =>
    have heads := took_leading t (Document.mk info none).span
    have both := took_append heads (took_trailing _ (Document.mk info none).span)
    refine took_mono both ?_ (List.Subset.refl _) (List.Subset.refl _)
    show _ = owned (headParts pol (Comment.trimBlank _) ++ footParts pol _)
    rw [owned_append, owned_headParts unwrapped, owned_footParts unwrapped, said_trimBlank]
    rfl
  | some n =>
    have heads := took_append (took_leading t (Document.mk info (some n)).span) (took_leading _ n.span)
    have feet (t : Table) :=
      took_append (took_trailing t n.span) (took_trailing _ (Document.mk info (some n)).span)
    have all := took_append (took_append heads (took_node lines unwrapped n _ decoded)) (feet _)
    refine took_mono all ?_ (by simp [documentSpans]) (by simp [documentSpans])
    show _ = owned (headParts pol (Comment.trimBlank (_ ++ _)) ++ _ ++ noteParts [n] ++ footParts pol (_ ++ _))
    simp only [owned_append, owned_headParts unwrapped, owned_footParts unwrapped, owned_noteParts, said_trimBlank,
      said_append, List.append_nil]
    rfl

/-- A document takes all that it put. -/
theorem document_settled (d : Document) (decoded : d.decoded = true) :
    (documentParts pol lines d (d.collect .empty)).2 = .empty ∧
      (owned (documentParts pol lines d (d.collect .empty)).1).Perm (linesOf (documentInfos d)) :=
  settled (put_document d .empty) (took_document unwrapped lines d _ decoded)

theorem stream_settled (docs : List Document) (decoded : ∀ d ∈ docs, d.decoded = true) (first : Bool) :
    (owned (streamParts pol lines docs first .empty)).Perm ((streamRemarks docs).map signed) := by
  induction docs generalizing first with
  | nil => exact .refl _
  | cons d docs ih =>
    obtain ⟨here, others⟩ := List.forall_mem_cons.mp decoded
    obtain ⟨left, written⟩ := document_settled unwrapped lines d here
    have lead : owned (if first then [] else [.newline, .word "---", .newline]) = [] := by cases first <;> rfl
    rw [streamParts]
    simp only [owned_append, lead, left, List.nil_append, streamRemarks, List.flatMap_cons, List.flatMap_append,
      List.map_append]
    exact written.append (ih others false)

end Documents

variable {ι : Type} [Columns ι]

/-- What is left on the table after some documents. -/
def tableAfter (o : Options ι) (lines : List Text) (docs : List Document) : Table :=
  docs.foldl (fun t d => (d.calls o lines (d.collect t)).2) .empty

theorem tableAfter_empty {o : Options ι} (unwrapped : o.comments.wrapWidth ≤ 0) (lines : List Text)
    (docs : List Document) (decoded : ∀ d ∈ docs, d.decoded = true) : tableAfter o lines docs = .empty := by
  unfold tableAfter
  induction docs with
  | nil => rfl
  | cons d docs ih =>
    obtain ⟨here, others⟩ := List.forall_mem_cons.mp decoded
    have left : (d.calls o lines (d.collect .empty)).2 = .empty := by
      rw [← documentParts_calls]
      exact (document_settled unwrapped lines d here).1
    rw [List.foldl_cons, left, ih others]

theorem map_signed {ls : List Text} (marked : ∀ l ∈ ls, l.startsWith Node.marker = true) : ls.map signed = ls := by
  have kept : ∀ l ∈ ls, signed l = l := fun l member => if_pos (marked l member)
  rw [List.map_congr_left kept, List.map_id']

/-- Where comments are not wrapped, the comments that have lines of their own are the lines of the comments
before and after all nodes, each as often as it stands there, whatever places the nodes are said to have. They are what
is asked for and printed when documents are formatted. No document leaves anything on the table. -/
theorem comments_written_once (o : Options ι) (lines : List Text) (docs : List Document)
    (decoded : ∀ d ∈ docs, d.decoded = true) (unwrapped : o.comments.wrapWidth ≤ 0) :
    (streamParts o.comments lines docs true .empty).map (Part.call o) = Document.allCalls o lines docs true .empty ∧
      ((streamParts o.comments lines docs true .empty).filterMap ownOf).Perm ((streamRemarks docs).map signed) ∧
      ((∀ l ∈ streamRemarks docs, l.startsWith Node.marker = true) →
        ((streamParts o.comments lines docs true .empty).filterMap ownOf).Perm (streamRemarks docs)) ∧
      Yaml.formatRead o lines docs none =
        ((Printer.print o.config (Document.allCalls o lines docs true .empty)).map fun p =>
          p.output.trimRight).mapError .layout ∧
      ∀ before, before <+: docs → (tableAfter o lines before).size = 0 := by
  have written := stream_settled unwrapped lines docs decoded true
  refine ⟨streamParts_calls o lines docs true .empty, written, fun marked => ?_, FrontEnds.stream_eq_print o lines docs,
    fun before among => ?_⟩
  · exact map_signed marked ▸ written
  · rw [tableAfter_empty unwrapped lines before fun d member => decoded d (among.subset member)]
    rfl

/-- A document with comments everywhere, all of whose nodes stand at one place. -/
def crowded : Document :=
  ⟨{ line := 1, column := 1, notes := { head := "# top\n\n# more", foot := "# end" } },
    some (.mapping { line := 1, column := 1, notes := { head := "# pairs" } } false
      [(.scalar { line := 1, column := 1, notes := { head := "# key", foot := "# end" } } .plain "a",
        .scalar { line := 1, column := 1, notes := { head := "# value" } } .plain "b")])⟩

/-- A document without a node. -/
def lone : Document := ⟨{ line := 1, column := 1, notes := { foot := "# nothing" } }, none⟩

theorem comments_written_once_crowded :
    (∀ d ∈ [crowded, lone], d.decoded = true) ∧ (Options.standard : Options Int).comments.wrapWidth ≤ 0 ∧
      ((streamParts (Options.standard : Options Int).comments [] [crowded, lone] true .empty).filterMap ownOf).Perm
        ["# top", "# more", "# end", "# pairs", "# key", "# end", "# value", "# nothing"] ∧
      (tableAfter (Options.standard : Options Int) [] [crowded]).size = 0 := by
  have unwrapped : (Options.standard : Options Int).comments.wrapWidth ≤ 0 := by decide
  have decoded : ∀ d ∈ [crowded, lone], d.decoded = true := by decide +kernel
  have once := comments_written_once (Options.standard : Options Int) [] [crowded, lone] decoded unwrapped
  have remarks : streamRemarks [crowded, lone] =
      (["# top", "# more", "# end", "# pairs", "# key", "# end", "# value", "# nothing"] : List Text) := by
    decide +kernel
  refine ⟨decoded, unwrapped, remarks ▸ once.2.2.1 ?_, once.2.2.2.2 [crowded] ⟨[lone], rfl⟩⟩
  rw [remarks]
  decide +kernel

end Galley.Layout.Bookkeeping
