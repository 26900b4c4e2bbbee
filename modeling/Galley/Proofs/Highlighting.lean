import Galley.Proofs.Lettering
import Galley.Proofs.Rewording
import Galley.Proofs.SideBySide
import Galley.Proofs.SourceLoop

/-! Keywords in another case or colour leave the layout of a source as it is. What is asked for a source is a list of
slots, some of them for keywords, that options fill. Where escape sequences are obeyed, all that can fill a slot has
one measure, so all dresses are printed by one plan; and they are obeyed wherever there are any. So two outputs are
made of the same bytes and the same keywords, each in its own dress. -/
namespace Galley.Layout.Highlighting
open Keyword.Lettering FrontEnds Lockstep Rewording SideBySide

variable {ι : Type} {o : Options ι}

/-- Options that leave keywords in plain capitals. -/
def plain (o : Options ι) : Options ι := { o with keywordCase := none, color := false }

theorem plain_named (o : Options ι) : CaseNamed (plain o) := fun _ used => absurd used (Option.not_mem_none _)

section Slots

/-- A call, with the dress of keywords left open. -/
inductive Slot (ι : Type) where
  | keyword (s : Text)
  | text (s : Text)
  | mute (k : Call ι)

/-- What a slot asks under some options. -/
def Slot.call (o : Options ι) : Slot ι → Call ι
  | .keyword s => Sql.keywordCall o s
  | .text s => .text s
  | .mute k => k

/-- Only keywords are dressed, and what asks for no text is apart from what does. -/
def Slot.Sound : Slot ι → Prop
  | .keyword s => Shouted s
  | .text _ => True
  | .mute k => silent k = true

/-- What is asked under options that differ only in the dress of keywords is a list of slots. -/
def CallsSlotted (o : Options ι) (f : Options ι → List (Call ι)) : Prop :=
  ∃ slots : List (Slot ι), (∀ slot ∈ slots, slot.Sound) ∧ ∀ o', plain o' = plain o → f o' = slots.map (Slot.call o')

variable {f g : Options ι → List (Call ι)}

theorem slotted_nil : CallsSlotted o fun _ => [] :=
  ⟨[], fun _ member => absurd member List.not_mem_nil, fun _ _ => rfl⟩

theorem slotted_append (first : CallsSlotted o f) (second : CallsSlotted o g) :
    CallsSlotted o fun o' => f o' ++ g o' := by
  obtain ⟨slots, sound, fills⟩ := first
  obtain ⟨more, fine, others⟩ := second
  refine ⟨slots ++ more, fun slot member => (List.mem_append.mp member).elim (sound slot) (fine slot), ?_⟩
  intro o' alike
  simp only [fills o' alike, others o' alike, List.map_append]

theorem slotted_single {k : Options ι → Call ι} (slot : Slot ι) (sound : slot.Sound)
    (fills : ∀ o', plain o' = plain o → k o' = slot.call o') : CallsSlotted o fun o' => [k o'] := by
  refine ⟨[slot], fun _ member => List.mem_singleton.mp member ▸ sound, fun o' alike => ?_⟩
  simp only [fills o' alike, List.map_singleton]

/-- A group or an indentation around what is slotted. -/
theorem slotted_enclosed {k : Options ι → Call ι} {j : Call ι} (inner : CallsSlotted o f) (quiet : silent (k o) = true)
    (same : ∀ o', plain o' = plain o → k o' = k o) (closes : silent j = true) :
    CallsSlotted o fun o' => k o' :: f o' ++ [j] :=
  slotted_append (slotted_append (slotted_single (.mute (k o)) quiet same) inner)
    (slotted_single (.mute j) closes fun _ _ => rfl)

theorem comments_slotted (items : List Comment) : CallsSlotted o fun o' => o'.comments.calls items := by
  have each (items : List Comment) : CallsSlotted o fun _ => Comment.lineCalls items := by
    have ended : CallsSlotted o fun _ => [.hardBreak] := slotted_single (.mute .hardBreak) rfl fun _ _ => rfl
    unfold Comment.lineCalls
    induction items with
    | nil => exact slotted_nil
    | cons c items ih =>
      simp only [List.flatMap_cons]
      refine slotted_append ?_ ih
      split
      · exact ended
      · exact slotted_append (slotted_single (.text c.toText) trivial fun _ _ => rfl) ended
  obtain ⟨slots, sound, fills⟩ := each (o.comments.normalize items)
  refine ⟨slots, sound, fun o' alike => ?_⟩
  have comments : o'.comments = o.comments := (congrArg Options.comments alike :)
  simp only [comments]
  exact fills o' alike

theorem startLine_slotted (p : Sql.Progress) : CallsSlotted o fun o' => Sql.startLine o' p := by
  unfold Sql.startLine
  split
  · exact slotted_append (slotted_single (.mute .hardBreak) rfl fun _ _ => rfl) (comments_slotted _)
  · exact comments_slotted _

variable [Columns ι]

theorem sketched_slotted {f : ∀ (ι : Type) [Columns ι], Options ι → List (Call ι)} (sketched : Sketched f) :
    CallsSlotted o (f ι) := by
  have depth (o' : Options ι) (alike : plain o' = plain o) : step o' = step o := (congrArg step alike :)
  induction sketched with
  | nil => exact slotted_nil
  | text s => exact slotted_single (.text s) trivial fun _ _ => rfl
  | keyword shouted => exact slotted_single (.keyword _) shouted fun _ _ => rfl
  | space => exact slotted_single (.mute .space) rfl fun _ _ => rfl
  | softBreak => exact slotted_single (.mute .softBreak) rfl fun _ _ => rfl
  | append _ _ first second => exact slotted_append first second
  | list _ inner =>
    refine slotted_enclosed inner rfl (fun o' alike => ?_) rfl
    have breaks : o'.listBreaks = o.listBreaks := (congrArg Options.listBreaks alike :)
    rw [depth o' alike, breaks]
  | clause _ inner => exact slotted_enclosed inner rfl (fun o' alike => by rw [depth o' alike]) rfl
  | box _ inner => exact slotted_enclosed inner rfl (fun _ _ => rfl) rfl
  | indented _ inner => exact slotted_enclosed inner rfl (fun o' alike => by rw [depth o' alike]) rfl

/-- How far pieces are written does not depend on the options. -/
theorem piecesCalls_progress (o o' : Options ι) (p : Sql.Progress) (pieces : List Sql.Piece) :
    (Sql.piecesCalls o p pieces).2 = (Sql.piecesCalls o' p pieces).2 := by
  induction pieces generalizing p with
  | nil => rfl
  | cons piece rest ih =>
    have same : (piece.calls o p).2 = (piece.calls o' p).2 := by cases piece <;> rfl
    simp only [Sql.piecesCalls, same]
    exact ih _

theorem pieces_slotted (p : Sql.Progress) (pieces : List Sql.Piece) :
    CallsSlotted o fun o' => (Sql.piecesCalls o' p pieces).1 := by
  induction pieces generalizing p with
  | nil => exact slotted_nil
  | cons piece rest ih =>
    have here : CallsSlotted o fun o' => (piece.calls o' p).1 := by
      cases piece with
      | comments items => exact slotted_nil
      | statement s =>
        exact slotted_append (slotted_append (startLine_slotted p) (sketched_slotted (statement_sketched s)))
          (slotted_single (.text [0x3b]) trivial fun _ _ => rfl)
      | trailing c =>
        exact slotted_append (slotted_single (.text [0x20]) trivial fun _ _ => rfl)
          (slotted_single (.text c.toText) trivial fun _ _ => rfl)
    have same (o' : Options ι) : (piece.calls o' p).2 = (piece.calls o p).2 := by cases piece <;> rfl
    simp only [Sql.piecesCalls, same]
    exact slotted_append here (ih _)

theorem source_slotted (pieces : List Sql.Piece) : CallsSlotted o fun o' => pieceCalls o' pieces := by
  have rest (p : Sql.Progress) : CallsSlotted o fun o' => Sql.flush o' p := by
    simp only [Sql.flush]
    split
    · exact slotted_nil
    · exact startLine_slotted _
  simp only [pieceCalls, fun o' => piecesCalls_progress o' o {} pieces]
  exact slotted_append (pieces_slotted {} pieces) (rest _)

end Slots

section Pages

variable [Columns ι]

/-- What is written before a text is blank, and the text is good. -/
def LedByBlanks (good : Text → Prop) : Mark ι → Prop
  | .text lead s | .taken lead s _ => (∀ b ∈ lead, b = 0x20 ∨ b = 0x09) ∧ good s
  | _ => True

/-- A sink and the one that obeys escape sequences. -/
def SinkObeyed (good : Text → Prop) (a b : Sink ι) : Prop :=
  b = { a with config := { a.config with ansi := true } } ∧ ∀ m ∈ a.marks, LedByBlanks good m

theorem upheld_obeyed (good : Text → Prop) (empty : good []) : SinksUpheld (ι := ι) good (SinkObeyed good) where
  space := by
    rintro a _ ⟨rfl, -⟩
    rfl
  column := by
    rintro a _ ⟨rfl, -⟩
    rfl
  quiet := by
    rintro a _ m ⟨rfl, led⟩ silent
    refine ⟨rfl, List.forall_mem_cons.mpr ⟨?_, led⟩⟩
    cases m with
    | text lead s =>
      obtain ⟨rfl, rfl⟩ := List.append_eq_nil_iff.mp silent
      exact ⟨fun _ member => absurd member List.not_mem_nil, empty⟩
    | taken lead s indent => exact absurd silent (by simp [Mark.spelling])
    | _ => trivial
  text := by
    rintro a _ s ⟨rfl, led⟩ fine width
    have here : LedByBlanks good (.text (a.lead s) s : Mark ι) := ⟨fun _ => TextOrder.lead_blank, fine⟩
    unfold Sink.write
    dsimp only
    split
    · exact ⟨rfl, List.forall_mem_cons.mpr ⟨here, led⟩⟩
    · exact ⟨rfl, List.forall_mem_cons.mpr ⟨here, led⟩⟩
  owe := by
    rintro a _ ⟨rfl, led⟩ n
    exact ⟨rfl, List.forall_mem_cons.mpr ⟨trivial, led⟩⟩
  newline := by
    rintro a _ s ⟨rfl, led⟩ fine indent
    have here : LedByBlanks good (.taken (a.lead s) s indent : Mark ι) := ⟨fun _ => TextOrder.lead_blank, fine⟩
    refine agree_ite (fun _ => rfl) fun _ => agree_ok ?_
    exact ⟨rfl, List.forall_mem_cons.mpr ⟨here, led⟩⟩

end Pages

section Runs

variable [Columns ι]

/-- The layout of some options, with escape sequences obeyed. -/
def obeying (o : Options ι) : Config ι := { o.layout with ansi := true }

/-- The text in some slot. -/
def wordIn (slots : List (Slot ι)) (o : Options ι) (place : Nat) : Text :=
  match slots[place]? with
  | some (.keyword s) => o.keyword s
  | some (.text s) => s
  | _ => []

variable {slots : List (Slot ι)}

/-- Options that differ from others only in the dress of keywords, which has a name. -/
abbrev Dressing (o : Options ι) : Type := { o' : Options ι // plain o' = plain o ∧ CaseNamed o' }

/-- A text and the words in some slot, all of one measure. -/
theorem word_asked {c : Config ι} {s : Text} (place : Nat) {words : Dressing o → Text}
    (here : ∀ v, wordIn slots v.1 place = words v) (measured : ∀ v, SameMeasure c s (words v)) :
    CallVersions (rewording c fun v : Dressing o => wordIn slots v.1) (.text s) fun v => .text (words v) := by
  obtain rfl : (fun v : Dressing o => wordIn slots v.1 place) = words := funext here
  exact .text ⟨place, measured, rfl⟩

/-- What fills a slot has the same measure in all dresses, where escape sequences are obeyed. -/
theorem slot_asked {slot : Slot ι} {place : Nat} (here : slots[place]? = some slot) (sound : slot.Sound) :
    CallVersions (rewording (obeying o).withDefaults fun v : Dressing o => wordIn slots v.1)
      (slot.call (plain o)) fun v => slot.call v.1 := by
  cases slot with
  | keyword s =>
    refine word_asked place (fun v => by rw [wordIn, here]) fun v => ⟨?_, ?_⟩
    · rw [width_keyword rfl (plain_named o) sound, width_keyword rfl v.2.2 sound]
    · rw [List.isEmpty_eq_false_iff.mpr (keyword_ne_nil (plain_named o) sound),
        List.isEmpty_eq_false_iff.mpr (keyword_ne_nil v.2.2 sound)]
  | text s => exact word_asked place (fun v => by rw [wordIn, here]) fun _ => ⟨rfl, rfl⟩
  | mute k =>
    refine .mute sound ?_
    cases k with
    | emit t => cases sound
    | _ => trivial

theorem slots_asked (sound : ∀ slot ∈ slots, slot.Sound) :
    List.Forall₂ (CallVersions (rewording (obeying o).withDefaults fun v : Dressing o => wordIn slots v.1))
      (slots.map (Slot.call (plain o))) (slots.map fun slot v => slot.call v.1) := by
  rw [List.forall₂_map_left_iff, List.forall₂_map_right_iff, List.forall₂_iff_get]
  refine ⟨rfl, fun i inside _ => ?_⟩
  exact slot_asked (List.getElem?_eq_getElem inside) (sound _ (List.get_mem slots ⟨i, inside⟩))

/-- Texts are measured alike where escape sequences are obeyed anyway, or there are none. -/
theorem width_obeying {t : Text} (alike : o.config.ansi = true ∨ Printable t) :
    (obeying o).width t = o.config.width t := by
  rcases alike with obeyed | printable
  · rw [Config.width, Config.width, obeyed]
    rfl
  · rw [width_printable printable, width_printable printable]

theorem keyword_obeying (named : CaseNamed o) {s : Text} (shouted : Shouted s) :
    (obeying o).width (o.keyword s) = o.config.width (o.keyword s) := by
  refine width_obeying ?_
  cases colour : o.color with
  | true => exact .inl (by rw [Options.config, colour, Bool.or_true])
  | false => exact .inr (keyword_printable named colour shouted)

/-- Versions that are beside ones in step are refused with one fault, or are written by one plan. -/
theorem one_plan {V : Type} {c : Config ι} {say : V → Nat → Text} {x : Except Fault (Printer ι)}
    {y z : V → Except Fault (Printer ι)} (agree : Agree (PrintersAlike (rewording c say)) x y)
    (beside : ∀ v, ResultsBoth (fun p q => q.page.sink.marks = p.page.sink.marks) (z v) (y v)) :
    (∃ f, ∀ v, z v = .error f) ∨ ∃ plan : List (Rewording.Piece ι), ∀ v, ∃ p, z v = .ok p ∧
      p.page.sink.marks.reverse = plan.map (Rewording.Piece.fill (say v)) := by
  cases x with
  | error f =>
    refine .inl ⟨f, fun v => ?_⟩
    have other := beside v
    rw [show y v = .error f from congrFun agree v] at other
    generalize z v = ran at other ⊢
    cases other
    rfl
  | ok p =>
    obtain ⟨q, all, -, _, _, _, -, -, ⟨marks, echoes, rfl⟩, same⟩ := agree
    obtain ⟨plan, follows⟩ := echoes_plan (List.rel_reverse echoes)
    refine .inr ⟨plan, fun v => ?_⟩
    have other := beside v
    rw [show y v = .ok (q v) from congrFun all v] at other
    generalize z v = ran at other ⊢
    cases other with
    | ok here =>
      refine ⟨_, rfl, ?_⟩
      rw [← here, same, ← follows v, List.map_reverse]
      rfl

theorem starts_obeyed {good : Text → Prop} :
    SinkObeyed good (Sink.ofConfig o.config.withDefaults) (Sink.ofConfig (obeying o).withDefaults) :=
  ⟨rfl, fun _ member => absurd member List.not_mem_nil⟩

omit [Columns ι] in
theorem obeyed_marks {good : Text → Prop} {x y : Except Fault (Printer ι)}
    (both : ResultsBoth (SinksRelated (SinkObeyed good)) x y) :
    ResultsBoth (fun p q => q.page.sink.marks = p.page.sink.marks) x y := by
  cases both with
  | ok obeyed => exact .ok (by rw [obeyed.1])
  | error f => exact .error f

/-- Asks a new printer. -/
abbrev begun (c : Config ι) (ks : List (Call ι)) : Except Fault (Printer ι) :=
  Printer.ofConfig c >>= fun p => p.run ks

/-- Texts that are measured alike, whether escape sequences are obeyed or not. -/
abbrev MeasuredAlike (o : Options ι) (t : Text) : Prop := (obeying o).width t = o.config.width t

theorem upheld_steady : SinksUpheld (ι := ι) (MeasuredAlike o) (SinkObeyed (MeasuredAlike o)) :=
  upheld_obeyed _ (width_obeying (.inr (by decide)))

section Dressings

variable (sound : ∀ slot ∈ slots, slot.Sound) (printable : ∀ s, .text s ∈ slots → Printable s)
include sound printable

omit [Columns ι] in
/-- What fills slots is good if printable texts and keywords are. -/
theorem slots_voice {good : Text → Prop} (texts : ∀ t, Printable t → good t)
    (keywords : ∀ s, Shouted s → good (o.keyword s)) : ∀ k ∈ slots.map (Slot.call o), CallVoices good k := by
  intro k member
  obtain ⟨slot, inside, rfl⟩ := List.mem_map.mp member
  cases slot with
  | keyword s => exact keywords s (sound _ inside)
  | text s => exact texts s (printable s inside)
  | mute k =>
    have quiet : silent k = true := sound _ inside
    cases k with
    | text | emit => cases quiet
    | lineBreak | hardBreak => exact texts [] (by decide)
    | trailingComma => exact texts "," (by decide)
    | _ => trivial

/-- Slots are begun in all dresses or refused in all with one fault. -/
theorem slots_begun (o : Options ι) :
    (∃ f, ∀ v : Dressing o, begun v.1.config (slots.map (Slot.call v.1)) = .error f) ∨
    ∀ v : Dressing o, ∃ p, begun v.1.config (slots.map (Slot.call v.1)) = .ok p := by
  have agree := begun_agree rewording_kept (rewording_starts (obeying o) _) (slots_asked sound)
  simp only [List.map_map, Function.comp_def] at agree
  have beside (v : Dressing o) : ResultsBoth (fun p q => q.page.sink.marks = p.page.sink.marks)
      (begun v.1.config (slots.map (Slot.call v.1))) (begun (obeying o) (slots.map (Slot.call v.1))) := by
    have same : obeying v.1 = obeying o := (congrArg obeying v.2.1 :)
    rw [← same]
    exact obeyed_marks (begun_both upheld_steady ⟨rfl, rfl, fun fine => fine, starts_obeyed⟩
      (slots_voice sound printable (fun _ fine => width_obeying (.inr fine)) fun _ => keyword_obeying v.2.2))
  exact (one_plan agree beside).imp id fun ⟨_, follows⟩ v => (follows v).imp fun _ found => found.1

/-- Slots are printed in all dresses by one plan or refused in all with one fault. -/
theorem slots_printed (o : Options ι) :
    (∃ f, ∀ v : Dressing o, Printer.print v.1.config (slots.map (Slot.call v.1)) = .error f) ∨
    ∃ plan : List (Rewording.Piece ι), ∀ v : Dressing o, ∃ p,
      Printer.print v.1.config (slots.map (Slot.call v.1)) = .ok p ∧
      p.page.sink.marks.reverse = plan.map (Rewording.Piece.fill (wordIn slots v.1)) := by
  have agree := print_agree rewording_kept (rewording_starts (obeying o) _) (slots_asked sound)
  simp only [List.map_map, Function.comp_def] at agree
  refine one_plan agree fun v => ?_
  have same : obeying v.1 = obeying o := (congrArg obeying v.2.1 :)
  rw [← same]
  exact obeyed_marks (print_both upheld_steady ⟨rfl, rfl, fun fine => fine, starts_obeyed⟩
    (slots_voice sound printable (fun _ fine => width_obeying (.inr fine)) fun _ => keyword_obeying v.2.2))

/-- Without colour all that is written is printable, after blanks. -/
theorem printed_led (named : CaseNamed o) (colourless : o.color = false) {p : Printer ι}
    (printed : Printer.print o.config (slots.map (Slot.call o)) = .ok p) :
    ∀ m ∈ p.page.sink.marks, LedByBlanks Printable m := by
  have both := print_both (upheld_obeyed Printable (by decide)) (c := o.config) (d := obeying o)
    ⟨rfl, rfl, fun fine => width_obeying (.inr fine), starts_obeyed⟩
    (slots_voice sound printable (fun _ fine => fine) fun _ => keyword_printable named colourless)
  rw [printed] at both
  generalize Printer.print (obeying o) (slots.map (Slot.call o)) = other at both
  cases both with
  | ok obeyed => exact obeyed.2

end Dressings

end Runs

section Parts

/-- The parts of what fills a slot. -/
def partsIn (slots : List (Slot ι)) (place : Nat) : List Part :=
  match slots[place]? with
  | some (.keyword s) => [.keyword s]
  | some (.text s) => bytes s
  | _ => []

/-- The parts of a piece of a plan. -/
def pieceParts (slots : List (Slot ι)) : Rewording.Piece ι → List Part
  | .word lead place => bytes lead ++ partsIn slots place
  | .taken lead s _ => bytes (lead ++ s ++ [0x0a])
  | _ => []

variable {slots : List (Slot ι)}

theorem partsIn_spell (o : Options ι) (place : Nat) :
    (partsIn slots place).flatMap (Part.spell o) = wordIn slots o place := by
  unfold partsIn wordIn
  split
  · exact List.append_nil _
  · exact bytes_spell o _
  · rfl

theorem pieceParts_spell (o : Options ι) (piece : Rewording.Piece ι) :
    (pieceParts slots piece).flatMap (Part.spell o) = (piece.fill (wordIn slots o)).spelling := by
  cases piece with
  | word lead place =>
    rw [pieceParts, List.flatMap_append, bytes_spell, partsIn_spell]
    rfl
  | taken lead s indent => exact bytes_spell o _
  | _ => rfl

theorem bytes_blank {t : Text} (blank : ∀ b ∈ t, b = 0x20 ∨ b = 0x09) : ∀ part ∈ bytes t, part.Sound := by
  refine bytes_sound fun b member => ?_
  rcases blank b member with rfl | rfl
  · decide
  · decide

theorem bytes_printable {t : Text} (printable : Printable t) : ∀ part ∈ bytes t, part.Sound := by
  refine bytes_sound fun b member => ⟨printable_ascii printable b member, ?_⟩
  rintro rfl
  exact absurd (printable 0x1b member).1 (by decide)

section Sound

variable (sound : ∀ slot ∈ slots, slot.Sound) (printable : ∀ s, .text s ∈ slots → Printable s)
include sound printable

theorem partsIn_sound (place : Nat) : ∀ part ∈ partsIn slots place, part.Sound := by
  unfold partsIn
  split
  · next s here =>
    have inside := List.mem_of_getElem? here
    exact fun part member => List.mem_singleton.mp member ▸ sound _ inside
  · next s here => exact bytes_printable (printable s (List.mem_of_getElem? here))
  · exact fun _ member => absurd member List.not_mem_nil

theorem pieceParts_sound {piece : Rewording.Piece ι} (led : LedByBlanks Printable (piece.fill (wordIn slots o))) :
    ∀ part ∈ pieceParts slots piece, part.Sound := by
  cases piece with
  | word lead place =>
    exact List.forall_mem_append.mpr ⟨bytes_blank led.1, partsIn_sound sound printable place⟩
  | taken lead s indent =>
    have whole : bytes (lead ++ s ++ [0x0a]) = bytes lead ++ bytes s ++ [.byte 0x0a] := by simp [bytes]
    rw [pieceParts, whole]
    have newline : (Part.byte 0x0a).Sound := ⟨by decide, by decide⟩
    exact List.forall_mem_append.mpr ⟨List.forall_mem_append.mpr ⟨bytes_blank led.1, bytes_printable led.2⟩,
      fun part member => List.mem_singleton.mp member ▸ newline⟩
  | _ => exact fun _ member => absurd member List.not_mem_nil

/-- Slots are printed in all dresses as the same parts, or refused in all with one fault. -/
theorem slots_parts [Columns ι] (o : Options ι) :
    (∃ f, ∀ v : Dressing o, Printer.print v.1.config (slots.map (Slot.call v.1)) = .error f) ∨
    ∃ parts : List Part, (∀ part ∈ parts, part.Sound) ∧ ∀ v : Dressing o, ∃ p,
      Printer.print v.1.config (slots.map (Slot.call v.1)) = .ok p ∧
      p.output = parts.flatMap (Part.spell v.1) := by
  refine (slots_printed sound printable o).imp id fun ⟨plan, follows⟩ => ?_
  refine ⟨plan.flatMap (pieceParts slots), fun part member => ?_, fun v => ?_⟩
  · obtain ⟨p, printed, wrote⟩ := follows ⟨plain o, rfl, plain_named o⟩
    obtain ⟨piece, inside, among⟩ := List.mem_flatMap.mp member
    have mark : piece.fill (wordIn slots (plain o)) ∈ p.page.sink.marks := by
      rw [← List.mem_reverse, wrote]
      exact List.mem_map_of_mem inside
    exact pieceParts_sound sound printable (printed_led sound printable (plain_named o) rfl printed _ mark) part among
  · obtain ⟨p, printed, wrote⟩ := follows v
    refine ⟨p, printed, ?_⟩
    rw [Printer.output, Sink.text, wrote, List.flatMap_map, List.flatMap_assoc]
    simp only [pieceParts_spell]

end Sound

end Parts

section Sources

variable [Columns ι] {ε : Type} {d : Sql.Dialect ε} {srcs : List Text} {pieces : List Sql.Piece}

/-- Sources that cannot be read to their ends are refused, for a fault of the printer if there is one. -/
theorem format_misread (message : ε → Text) {m : Sql.Misread ε} (read : d.allPieces srcs = (pieces, some m)) :
    ∃ failure, ∀ o : Options ι,
      (∀ f, begun o.config (Sql.piecesCalls o {} pieces).1 = .error f →
        d.format message o srcs = .error (.layout f)) ∧
      ∀ p, begun o.config (Sql.piecesCalls o {} pieces).1 = .ok p → d.format message o srcs = .error failure := by
  refine ⟨.source (("parse " : Text) ++ (Sql.abbreviated m.part).quoted ++ (": " : Text) ++ message m.cause),
    fun o => ⟨fun f refused => ?_, fun p ran => ?_⟩⟩
  · simp only [begun] at refused
    simp only [Sql.Dialect.format, read, refused]
  · simp only [begun] at ran
    simp only [Sql.Dialect.format, read, ran]

omit [Columns ι] in
/-- The texts in slots are printable if what they ask in plain dress is. -/
theorem texts_printable {slots : List (Slot ι)}
    (printable : ∀ k ∈ slots.map (Slot.call (plain o)), CallVoices Printable k) : ∀ s, .text s ∈ slots → Printable s :=
  fun s member => printable (.text s) (List.mem_map_of_mem (f := Slot.call (plain o)) member)

/-- Sources that cannot be read to their ends are refused with one failure in all dresses. -/
theorem misread_alike (message : ε → Text) {m : Sql.Misread ε} (read : d.allPieces srcs = (pieces, some m))
    (printable : ∀ k ∈ pieceCalls (plain o) pieces, CallVoices Printable k) :
    ∃ failure, ∀ v : Dressing o, d.format message v.1 srcs = .error failure := by
  obtain ⟨slots, sound, fills⟩ := pieces_slotted (o := o) {} pieces
  dsimp only at fills
  have texts : ∀ s, .text s ∈ slots → Printable s := by
    rw [pieceCalls, fills (plain o) rfl] at printable
    exact texts_printable fun k member => printable k (List.mem_append_left _ member)
  obtain ⟨failure, misread⟩ := format_misread (ι := ι) message read
  rcases slots_begun sound texts o with ⟨f, refused⟩ | ran
  · refine ⟨.layout f, fun v => (misread v.1).1 f ?_⟩
    rw [fills v.1 v.2.1]
    exact refused v
  · refine ⟨failure, fun v => ?_⟩
    obtain ⟨p, begins⟩ := ran v
    refine (misread v.1).2 p ?_
    rw [fills v.1 v.2.1]
    exact begins

/-- Sources that are read to their ends are formatted in all dresses as the same parts, or refused in all with one
failure. -/
theorem formatted_alike (message : ε → Text) (read : d.allPieces srcs = (pieces, none))
    (printable : ∀ k ∈ pieceCalls (plain o) pieces, CallVoices Printable k) :
    (∃ failure, ∀ v : Dressing o, d.format message v.1 srcs = .error failure) ∨
    ∃ parts : List Part, (∀ part ∈ parts, part.Sound) ∧
      ∀ v : Dressing o, d.format message v.1 srcs = .ok (parts.flatMap (Part.spell v.1)) := by
  obtain ⟨slots, sound, fills⟩ := source_slotted (o := o) pieces
  dsimp only at fills
  have texts : ∀ s, .text s ∈ slots → Printable s := by
    rw [fills (plain o) rfl] at printable
    exact texts_printable printable
  have whole (v : Dressing o) : d.format message v.1 srcs =
      ((Printer.print v.1.config (slots.map (Slot.call v.1))).map fun p => p.output.trimRight).mapError .layout := by
    rw [SourceLoop.format_eq_print message read, fills v.1 v.2.1]
  rcases slots_parts sound texts o with ⟨f, refused⟩ | ⟨parts, fine, printed⟩
  · exact .inl ⟨.layout f, fun v => by rw [whole, refused]; rfl⟩
  · refine .inr ⟨trimmed parts, fun part member => fine part ((trimmed_sublist parts).subset member), fun v => ?_⟩
    obtain ⟨p, ran, output⟩ := printed v
    rw [whole, ran, ← trimRight_spell v.2.2 fine, ← output]
    rfl

/-- Sources are refused in all dresses with one failure, or formatted in all as the same parts. -/
theorem format_parts (message : ε → Text)
    (printable : ∀ k ∈ pieceCalls (plain o) (d.allPieces srcs).1, CallVoices Printable k) :
    (∃ failure, ∀ v : Dressing o, d.format message v.1 srcs = .error failure) ∨
    ∃ parts : List Part, (∀ part ∈ parts, part.Sound) ∧
      ∀ v : Dressing o, d.format message v.1 srcs = .ok (parts.flatMap (Part.spell v.1)) := by
  obtain ⟨pieces, problem, read⟩ : ∃ pieces problem, d.allPieces srcs = (pieces, problem) := ⟨_, _, rfl⟩
  rw [read] at printable
  cases problem with
  | some m => exact .inl (misread_alike message read printable)
  | none => exact formatted_alike message read printable

end Sources

/-- Keyword case and colour do not affect layout. Under two options that differ in nothing else, and that leave
keywords as they are or write them in a case that has a name, sources whose texts are all printable ASCII are
refused with the same failure, or both outputs are made of the same bytes, line ends, indentation and blanks among
them, and the same keywords, which each dresses in its own way. So they are the same without colours and in lower
case. -/
theorem keyword_dress_keeps_layout {ε : Type} [Columns ι] (d : Sql.Dialect ε) (message : ε → Text) (o o' : Options ι)
    (srcs : List Text) (named : CaseNamed o) (also : CaseNamed o') (alike : plain o' = plain o)
    (printable : ∀ k ∈ pieceCalls (plain o) (d.allPieces srcs).1, CallVoices Printable k) :
    (d.format message o srcs).map undressed = (d.format message o' srcs).map undressed ∧
    ((∃ failure, d.format message o srcs = .error failure ∧ d.format message o' srcs = .error failure) ∨
      ∃ parts : List Part, (∀ part ∈ parts, part.Sound) ∧
        d.format message o srcs = .ok (parts.flatMap (Part.spell o)) ∧
        d.format message o' srcs = .ok (parts.flatMap (Part.spell o'))) := by
  rcases format_parts message printable with ⟨failure, refused⟩ | ⟨parts, sound, formatted⟩
  · have first := refused ⟨o, rfl, named⟩
    have second := refused ⟨o', alike, also⟩
    exact ⟨by rw [first, second], .inl ⟨failure, first, second⟩⟩
  · have first := formatted ⟨o, rfl, named⟩
    have second := formatted ⟨o', alike, also⟩
    refine ⟨?_, .inr ⟨parts, sound, first, second⟩⟩
    rw [first, second]
    exact congrArg Except.ok (undressed_spell named also sound)

/-- A selection that is too long for its line, in plain capitals and in coloured title case, with a comment after it. -/
theorem keyword_dress_keeps_layout_narrow :
    let srcs : List Text := ["select A from t where b or c; -- No"]
    let o : Options Int64 := ⟨⟨12, 2, false, false⟩, none, false, false, .standard⟩
    let o' : Options Int64 := { o with keywordCase := some Keyword.Case.title.apply, color := true }
    CaseNamed o' ∧ (∀ k ∈ pieceCalls (plain o) (Sql.dialect.allPieces srcs).1, CallVoices Printable k) ∧
      (Sql.format o srcs).map undressed = (Sql.format o' srcs).map undressed ∧
      Sql.format o srcs = .ok (Text.ofLines ["SELECT a", "FROM t", "WHERE b", "  OR c; -- No"]) ∧
      Sql.format o' srcs = .ok (Text.ofLines ["\x1b[34mSelect\x1b[0m a", "\x1b[34mFrom\x1b[0m t",
        "\x1b[34mWhere\x1b[0m b", "  \x1b[34mOr\x1b[0m c; -- No"]) := by
  intro srcs o o'
  have printable : ∀ k ∈ pieceCalls (plain o) (Sql.dialect.allPieces srcs).1, CallVoices Printable k := by
    decide +kernel
  have named : CaseNamed o' := fun _ used => ⟨.title, (Option.some.inj used).symm⟩
  have same := keyword_dress_keeps_layout Sql.dialect Sql.Problem.message o o' srcs (plain_named o) named rfl printable
  exact ⟨named, printable, same.1, by decide +kernel, by decide +kernel⟩

end Galley.Layout.Highlighting
