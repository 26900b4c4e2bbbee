import Galley.Proofs.SideBySide
import Galley.Proofs.TextOrder
import Galley.Proofs.Wrapping

/-! The blanks of rendered lines. Indentation and the blanks of flat breaks are owed until a text follows
them, so no line ends in them. Tabs are but a spelling of indentation: a document rendered with tabs has
the text that it has without them, but for tabs in the place of so many spaces. Both hold with any numbers
that columns are counted in. -/
namespace Galley.Layout.Blanks
open Lockstep SideBySide TextOrder
open Comment.Wrapping (splitOn_ne_nil lines_newline lines_plain)

variable {ι : Type} [Columns ι] {t u : Text}

section LineEnds

/-- A text that ends in a space or a tab. -/
def EndsBlank (t : Text) : Prop := t.getLast? = some 0x20 ∨ t.getLast? = some 0x09

instance (t : Text) : Decidable (EndsBlank t) := inferInstanceAs (Decidable (_ ∨ _))

/-- A text that can end a line: it holds no newline and does not end in a space or a tab. -/
def EndsTidy (t : Text) : Prop := 0x0a ∉ t ∧ ¬ EndsBlank t

instance (t : Text) : Decidable (EndsTidy t) := inferInstanceAs (Decidable (_ ∧ _))

/-- No line of a text ends in a space or a tab. -/
def Trimmed (t : Text) : Prop := ∀ line ∈ t.lines, ¬ EndsBlank line

theorem lines_cons {b : UInt8} (other : b ≠ 0x0a) (t : Text) :
    Text.lines (b :: t) = (Text.lines t).modifyHead (b :: ·) := by
  obtain ⟨first, rest, held⟩ := List.exists_cons_of_ne_nil (splitOn_ne_nil 0x0a t)
  simp [Text.lines, Text.splitOn, held, other]

theorem lines_split (t u : Text) : Text.lines (t ++ 0x0a :: u) = Text.lines t ++ Text.lines u := by
  induction t with
  | nil => exact lines_newline u
  | cons b t ih =>
    by_cases same : b = 0x0a
    · subst same
      rw [List.cons_append, lines_newline, lines_newline, ih, List.cons_append]
    · obtain ⟨first, rest, held⟩ := List.exists_cons_of_ne_nil (splitOn_ne_nil 0x0a t)
      have first : Text.lines t = first :: rest := held
      rw [List.cons_append, lines_cons same, lines_cons same, ih, first]
      rfl

/-- What is added to a text without a newline belongs to its last line. -/
theorem lines_last (t : Text) : ∃ before last, ∀ u : Text, 0x0a ∉ u → Text.lines (t ++ u) = before ++ [last ++ u] := by
  by_cases ended : 0x0a ∈ t
  · obtain ⟨last, before, reversed, plain⟩ := List.eq_append_cons_of_mem (List.mem_reverse.mpr ended)
    obtain rfl : t = before.reverse ++ 0x0a :: last.reverse := by
      rw [← List.reverse_reverse t, reversed]
      simp
    refine ⟨Text.lines before.reverse, last.reverse, fun u single => ?_⟩
    have whole : 0x0a ∉ last.reverse ++ u := by simp [plain, single]
    rw [List.append_assoc, List.cons_append, lines_split, lines_plain whole]
  · refine ⟨[], t, fun u single => ?_⟩
    rw [lines_plain (by simp [ended, single]), List.nil_append]

theorem endsBlank_append (filled : u ≠ []) : EndsBlank (t ++ u) ↔ EndsBlank u := by
  unfold EndsBlank
  rw [List.getLast?_append_of_ne_nil t filled]

theorem trimmed_append (trimmed : Trimmed t) (filled : u ≠ []) (tidy : EndsTidy u) : Trimmed (t ++ u) := by
  obtain ⟨before, last, lines⟩ := lines_last t
  have old := lines [] List.not_mem_nil
  rw [List.append_nil] at old
  intro line member
  rw [lines u tidy.1] at member
  rcases List.mem_append.mp member with earlier | final
  · exact trimmed line (by rw [old]; exact List.mem_append_left _ earlier)
  · obtain rfl := List.mem_singleton.mp final
    rw [endsBlank_append filled]
    exact tidy.2

theorem trimmed_newline (trimmed : Trimmed t) : Trimmed (t ++ [0x0a]) := by
  intro line member
  rw [lines_split] at member
  rcases List.mem_append.mp member with earlier | final
  · exact trimmed line earlier
  · obtain rfl := List.mem_singleton.mp final
    decide

/-- A text is written with what is owed before it, which is nothing where the text is empty. -/
theorem trimmed_lead (sink : Sink ι) (trimmed : Trimmed t) (tidy : EndsTidy u) : Trimmed (t ++ (sink.lead u ++ u)) := by
  cases u with
  | nil => simpa [Sink.lead] using trimmed
  | cons b u =>
    refine trimmed_append trimmed (by simp) ⟨?_, ?_⟩
    · simp only [List.mem_append, not_or]
      refine ⟨fun member => ?_, tidy.1⟩
      rcases lead_blank member with space | tab
      · cases space
      · cases tab
    · rw [endsBlank_append (List.cons_ne_nil b u)]
      exact tidy.2

/-- Every token that writes only tidy texts keeps the lines trimmed. -/
theorem upheld_trimmed : SinksUpheld (ι := ι) EndsTidy fun a b => a = b ∧ Trimmed a.text where
  space := fun ⟨same, _⟩ => same ▸ rfl
  column := fun ⟨same, _⟩ => same ▸ rfl
  quiet := by
    rintro a _ m ⟨rfl, trimmed⟩ silent
    rw [text_mark, silent, List.append_nil]
    exact ⟨rfl, trimmed⟩
  text := by
    rintro a _ s ⟨rfl, trimmed⟩ tidy width
    rw [text_write, List.append_assoc]
    exact ⟨rfl, trimmed_lead a trimmed tidy⟩
  owe := by
    rintro a _ ⟨rfl, trimmed⟩ n
    refine ⟨rfl, ?_⟩
    show Trimmed (a.mark (.flat n)).text
    rw [text_mark]
    simpa [Mark.spelling] using trimmed
  newline := by
    rintro a _ s ⟨rfl, trimmed⟩ tidy indent
    unfold Sink.newline
    refine agree_ite (fun _ => rfl) fun _ => agree_ok ⟨rfl, ?_⟩
    show Trimmed (a.mark (.taken (a.lead s) s indent)).text
    rw [text_mark, Mark.spelling, ← List.append_assoc]
    exact trimmed_newline (trimmed_lead a trimmed tidy)

/-- No line of a rendered document ends in a space or a tab, the last one included, if no text that it is
made of holds a newline or ends so. -/
theorem rendered_lines_trimmed (c : Config ι) (ts : List (Token ι)) (out : Text)
    (tidy : ∀ t ∈ ts, TokenSpeaks EndsTidy t) (rendered : render c ts = .ok out) :
    ∀ line ∈ out.lines, line.getLast? ≠ some 0x20 ∧ line.getLast? ≠ some 0x09 := by
  have blank : Trimmed (Sink.ofConfig c.withDefaults).text := by
    intro line member
    obtain rfl := List.mem_singleton.mp member
    decide
  have both := render_both upheld_trimmed (c := c) ⟨rfl, rfl, fun _ => rfl, rfl, blank⟩ tidy
  rw [rendered] at both
  cases both with
  | ok related =>
    obtain ⟨sink, _, ⟨rfl, trimmed⟩, rfl, _⟩ := related
    exact fun line member => not_or.mp (trimmed line member)

/-- Blanks before a break that is taken, and at the end, are not written, and neither is the indentation
of an empty line. -/
theorem rendered_lines_trimmed_blank :
    let ts : List (Token Int64) := [.text "a", .lineBreak ⟨.space, 3, 0, []⟩, .lineBreak ⟨.hard, 0, 6, []⟩,
      .lineBreak ⟨.hard, 0, 6, []⟩, .text "b", .lineBreak ⟨.space, 1, 0, []⟩]
    render ⟨80, 4, true, false⟩ ts = .ok "a\n\n\t  b" ∧
      ∀ line ∈ Text.lines "a\n\n\t  b", line.getLast? ≠ some 0x20 ∧ line.getLast? ≠ some 0x09 := by
  intro ts
  have rendered : render ⟨80, 4, true, false⟩ ts = .ok "a\n\n\t  b" := by decide +kernel
  exact ⟨rendered, rendered_lines_trimmed _ ts _ (by decide +kernel) rendered⟩

end LineEnds

section Tabs

/-- The text with so many spaces in the place of each tab. -/
def untab (n : Nat) (t : Text) : Text := t.flatMap fun b => if b = 0x09 then Text.spaces n else [b]

@[simp] theorem untab_append (n : Nat) (t u : Text) : untab n (t ++ u) = untab n t ++ untab n u :=
  List.flatMap_append

theorem untab_plain (n : Nat) (plain : 0x09 ∉ t) : untab n t = t := by
  induction t with
  | nil => rfl
  | cons b t ih =>
    obtain ⟨other, rest⟩ := not_or.mp (mt List.mem_cons.mpr plain)
    rw [untab, List.flatMap_cons, if_neg (Ne.symm other)]
    exact congrArg (b :: ·) (ih rest)

theorem untab_spaces (n m : Nat) : untab n (Text.spaces m) = Text.spaces m :=
  untab_plain n fun member => by cases List.eq_of_mem_replicate member

theorem untab_tabs (n m : Nat) : untab n (List.replicate m 0x09) = Text.spaces (n * m) := by
  induction m with
  | zero => rfl
  | succ m ih =>
    rw [List.replicate_succ, ← List.singleton_append, untab_append, ih]
    show Text.spaces n ++ [] ++ _ = _
    rw [List.append_nil, Text.spaces, Text.spaces, List.replicate_append_replicate, Nat.add_comm]
    rfl

variable {c d : Config ι} {a b : Sink ι}

/-- Tabs and the spaces after them fill the columns that spaces alone fill. -/
theorem untab_indentation (spaced : c.tabs = false) (tabbed : d.tabs = true) (unit : d.unit = c.unit) (n : ι) :
    untab (Columns.toNat c.unit) (Sink.indentation d n) = Sink.indentation c n := by
  unfold Sink.indentation
  by_cases none : n ≤ 0
  · rw [if_pos none, if_pos none]
    rfl
  · rw [if_neg none, if_neg none, if_pos tabbed, if_neg (by simp [spaced]), untab_append, unit, untab_tabs,
      untab_spaces, Text.spaces, Text.spaces, List.replicate_append_replicate, Nat.div_add_mod]
    rfl

/-- Two sinks that owe and have written the same, the one with spaces and the other with tabs. -/
structure Respelled (c d : Config ι) (a b : Sink ι) : Prop where
  own : a.config = c
  other : b.config = d
  space : b.space = a.space
  indent : b.indent = a.indent
  blank : b.blank = a.blank
  text : a.text = untab (Columns.toNat c.unit) b.text

theorem respelled_lead (spaced : c.tabs = false) (tabbed : d.tabs = true) (unit : d.unit = c.unit)
    (respelled : Respelled c d a b) (s : Text) : untab (Columns.toNat c.unit) (b.lead s) = a.lead s := by
  unfold Sink.lead
  split
  · rfl
  · rw [untab_append, untab_spaces, respelled.other, respelled.own, respelled.indent, respelled.blank,
      untab_indentation spaced tabbed unit]

/-- Every token that writes no tabs of its own is written alike with spaces and with tabs. -/
theorem upheld_respelled (spaced : c.tabs = false) (tabbed : d.tabs = true) (unit : d.unit = c.unit)
    (margin : d.margin = c.margin) : SinksUpheld (0x09 ∉ ·) (Respelled c d) where
  space := Respelled.space
  column := by
    intro a b respelled
    rw [Sink.column, Sink.column, respelled.own, respelled.other, margin, respelled.space]
  quiet := by
    intro a b m respelled silent
    refine ⟨respelled.own, respelled.other, respelled.space, respelled.indent, respelled.blank, ?_⟩
    rw [text_mark, text_mark, silent, List.append_nil, List.append_nil]
    exact respelled.text
  text := by
    intro a b s respelled plain width
    have written : (a.write s width).text = untab (Columns.toNat c.unit) (b.write s width).text := by
      rw [text_write, text_write, untab_append, untab_append, untab_plain _ plain, ← respelled.text,
        respelled_lead spaced tabbed unit respelled]
    cases s with
    | nil => exact ⟨respelled.own, respelled.other, respelled.space, respelled.indent, respelled.blank, written⟩
    | cons x s =>
      refine ⟨respelled.own, respelled.other, ?_, ?_, ?_, written⟩
      · exact congrArg (· - width) respelled.space
      · exact congrArg (fun n => if 0 < n then 0 else n) respelled.indent
      · exact congrArg (fun n => if 0 < n then 0 else n) respelled.blank
  owe := by
    intro a b respelled n
    refine ⟨respelled.own, respelled.other, ?_, respelled.indent, ?_, ?_⟩
    · exact congrArg (· - n) respelled.space
    · exact congrArg (· + n) respelled.blank
    · show (a.mark (.flat n)).text = untab _ (b.mark (.flat n)).text
      rw [text_mark, text_mark, untab_append, ← respelled.text]
      rfl
  newline := by
    intro a b s respelled plain indent
    unfold Sink.newline
    refine agree_ite (fun _ => rfl) fun _ => agree_ok ⟨respelled.own, respelled.other, ?_, rfl, rfl, ?_⟩
    · show b.config.margin - indent = a.config.margin - indent
      rw [respelled.own, respelled.other, margin]
    · show (a.mark (.taken (a.lead s) s indent)).text = untab _ (b.mark (.taken (b.lead s) s indent)).text
      rw [text_mark, text_mark, Mark.spelling, Mark.spelling, untab_append, untab_append, untab_append,
        ← respelled.text, respelled_lead spaced tabbed unit respelled, untab_plain _ plain]
      rfl

/-- Tabs only spell indentation. A document whose texts hold no tabs is refused with tabs as it is without
them, and otherwise has the same text, once each tab is replaced by the spaces of one level. -/
theorem tabs_spell_indentation (c : Config ι) (ts : List (Token ι)) (spaced : c.tabs = false)
    (plain : ∀ t ∈ ts, TokenSpeaks (0x09 ∉ ·) t) :
    render c ts = untab (Columns.toNat c.withDefaults.unit) <$> render { c with tabs := true } ts := by
  have both := render_both (upheld_respelled (c := c.withDefaults) (d := { c.withDefaults with tabs := true })
    spaced rfl rfl rfl) (c := c) (d := { c with tabs := true })
    ⟨rfl, rfl, fun _ => rfl, rfl, rfl, rfl, rfl, rfl, rfl⟩ plain
  generalize render { c with tabs := true } ts = tabbed at both ⊢
  generalize render c ts = plainly at both ⊢
  cases both with
  | ok related =>
    obtain ⟨a, b, respelled, rfl, rfl⟩ := related
    exact congrArg Except.ok respelled.text
  | error f => rfl

/-- Indentation that is no multiple of a level is spelled with tabs and spaces, and a group is aligned to
the same column. -/
theorem tabs_spell_indentation_aligned :
    let c : Config Int64 := ⟨8, 4, false, false⟩
    let ts : List (Token Int64) := [.lineBreak ⟨.hard, 0, 5, []⟩, .text "a ", .groupStart ⟨.consistent, 2, true⟩,
      .text "b", .lineBreak ⟨.space, 1, 0, ","⟩, .text "c", .groupEnd]
    render { c with tabs := true } ts = .ok "\n\t a b,\n\t\t c" ∧ render c ts = .ok "\n     a b,\n         c" ∧
      render c ts = untab 4 <$> render { c with tabs := true } ts := by
  intro c ts
  exact ⟨by decide +kernel, by decide +kernel, tabs_spell_indentation c ts rfl (by decide +kernel)⟩

end Tabs

end Galley.Layout.Blanks
