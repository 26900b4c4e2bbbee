import Galley.Proofs.Glyphs
import Galley.Proofs.Margin
import Galley.Proofs.Reformatting
import Galley.Proofs.TextOrder

/-! Filling lines with words. A printer decides about each break of an inconsistent group when it knows how
far the next word reaches, and about the whole group when it knows how far this reaches. Main statement: the
lines come out as if every word were put behind the one before it as long as it fits there. -/
namespace Galley.Layout.Filling
open Extent PageWriting Margin Bracketing TextOrder Words Exactness Reformatting

/-- The columns of a line, its words one space apart. -/
def lineWidth (width : Text → Nat) : List Text → Nat
  | [] => 0
  | [w] => width w
  | w :: ws => width w + 1 + lineWidth width ws

/-- The lines from the current one on. A word joins the current line if it fits there behind a space, and
starts the next one if not. -/
def fillFrom (width : Text → Nat) (margin : Int) (line : List Text) : List Text → List (List Text)
  | [] => [line]
  | w :: ws =>
    if (lineWidth width line + 1 + width w : Nat) ≤ margin then fillFrom width margin (line ++ [w]) ws
    else line :: fillFrom width margin [w] ws

/-- The lines of words. -/
def fill (width : Text → Nat) (margin : Int) : List Text → List (List Text)
  | [] => []
  | w :: ws => fillFrom width margin [w] ws

/-- The text of lines of words. -/
def written (lines : List (List Text)) : Text := [0x0a].intercalate (lines.map [0x20].intercalate)

variable {ι : Type} [Columns ι]

/-- The columns that a configuration measures a text at. -/
def measure (c : Config ι) (w : Text) : Nat := if c.ansi then w.shownWidth else w.plainWidth

/-- The lines of words within the margin of a configuration. -/
def filling (c : Config ι) (words : List Text) : List (List Text) :=
  fill (measure c) (Columns.toInt c.withDefaults.margin) words

/-- Words in an inconsistent group, with a break that is one space when flat between each two. -/
def paragraph (words : List Text) : List (Call ι) :=
  .inconsistentBox 0 :: (words.map Call.text).intersperse .space ++ [.groupEnd]

/-- Words are printed filled into lines, none left out, and a word that is too wide stands alone. -/
structure WordsFilled (c : Config ι) (words : List Text) : Prop where
  printed : printCalls c (paragraph words) = .ok (written (filling c words))
  kept : (filling c words).flatten = words
  alone : ∀ line ∈ filling c words, ∀ w ∈ line, Columns.toInt c.withDefaults.margin < measure c w → line = [w]

section Lines

variable {width : Text → Nat} {margin : Int} {line words : List Text} {w : Text}

theorem lineWidth_concat (some : line ≠ []) :
    lineWidth width (line ++ [w]) = lineWidth width line + 1 + width w := by
  induction line with
  | nil => exact absurd rfl some
  | cons v line ih =>
    cases line with
    | nil => rfl
    | cons u line =>
      have later := ih (List.cons_ne_nil u line)
      simp only [List.cons_append, lineWidth] at later ⊢
      omega

theorem lineWidth_member (member : w ∈ line) : width w ≤ lineWidth width line := by
  induction line with
  | nil => cases member
  | cons v line ih =>
    cases line with
    | nil =>
      cases List.mem_singleton.mp member
      exact Nat.le_refl _
    | cons u line =>
      simp only [lineWidth]
      rcases List.mem_cons.mp member with rfl | later
      · omega
      · have := ih later
        omega

theorem fillFrom_ne_nil : fillFrom width margin line words ≠ [] := by
  induction words generalizing line with
  | nil => exact List.cons_ne_nil _ _
  | cons w words ih =>
    unfold fillFrom
    split
    · exact ih
    · exact List.cons_ne_nil _ _

theorem fillFrom_flatten : (fillFrom width margin line words).flatten = line ++ words := by
  induction words generalizing line with
  | nil => simp [fillFrom]
  | cons w words ih =>
    unfold fillFrom
    split
    · rw [ih, List.append_assoc]
      rfl
    · rw [List.flatten_cons, ih]
      rfl

/-- A line of more than one word fits. -/
theorem fillFrom_fits (some : line ≠ []) (fits : line.length = 1 ∨ (lineWidth width line : Int) ≤ margin) :
    ∀ l ∈ fillFrom width margin line words, l.length = 1 ∨ (lineWidth width l : Int) ≤ margin := by
  induction words generalizing line with
  | nil =>
    intro l member
    cases List.mem_singleton.mp member
    exact fits
  | cons w words ih =>
    unfold fillFrom
    split
    · next joins =>
      refine ih (by simp) (.inr ?_)
      rwa [lineWidth_concat some]
    · intro l member
      rcases List.mem_cons.mp member with rfl | later
      · exact fits
      · exact ih (List.cons_ne_nil w []) (.inl rfl) l later

theorem fill_alone : ∀ l ∈ fill width margin words, ∀ w ∈ l, margin < width w → l = [w] := by
  intro l member w inside wide
  cases words with
  | nil => cases member
  | cons v words =>
    rcases fillFrom_fits (List.cons_ne_nil v []) (.inl rfl) l member with one | fits
    · obtain ⟨u, rfl⟩ := List.length_eq_one_iff.mp one
      cases List.mem_singleton.mp inside
      rfl
    · have narrow : width w ≤ lineWidth width l := lineWidth_member inside
      omega

theorem fill_flatten : (fill width margin words).flatten = words := by
  cases words with
  | nil => rfl
  | cons w words => exact fillFrom_flatten

theorem written_cons {lines : List (List Text)} (more : lines ≠ []) :
    written (line :: lines) = [0x20].intercalate line ++ 0x0a :: written lines := by
  obtain ⟨next, lines, rfl⟩ := List.exists_cons_of_ne_nil more
  simp [written, List.intercalate]

theorem joined_concat (some : line ≠ []) :
    [0x20].intercalate (line ++ [w]) = [0x20].intercalate line ++ 0x20 :: w := by
  induction line with
  | nil => exact absurd rfl some
  | cons v line ih =>
    cases line with
    | nil => simp [List.intercalate]
    | cons u line =>
      have later := ih (List.cons_ne_nil u line)
      simp only [List.intercalate, List.cons_append, List.intersperse_cons_cons, List.flatten_cons] at later ⊢
      rw [later]
      simp

end Lines

section Tokens

variable {c : Config Int} {page after final : Page Int} {line words : List Text} {w before : Text} {size : Int}

/-- A break that is one space when flat. -/
def gap : Break Int := ⟨.space, 1, 0, []⟩

/-- The tokens of the words after the first, up to the end of their group. -/
def others : List Text → List (Token Int)
  | [] => [.groupEnd]
  | w :: ws => .lineBreak gap :: .text w :: others ws

theorem transcript_words (s : Discipline.Standing) (w : Text) (ws : List Text) :
    transcript s (((w :: ws).map Call.text).intersperse .space ++ [.groupEnd]) = .text w :: others ws := by
  induction ws generalizing w with
  | nil => rfl
  | cons v ws ih => exact congrArg (fun ts => .text w :: .lineBreak gap :: ts) (ih v)

theorem transcript_paragraph (w : Text) (ws : List Text) : transcript .initial (paragraph (w :: ws)) =
    .groupStart ⟨.inconsistent, 0, false⟩ :: .text w :: others ws := by
  rw [← transcript_words (.after .initial (.inconsistentBox 0))]
  rfl

/-- No break reaches past the next word. -/
theorem extent_others (r : Reach) (ends : r = .line ∨ r = .chunk 0) (ws : List Text) :
    extent c r (others ws) = 0 := by
  rcases ends with rfl | rfl <;> cases ws <;> rfl

/-- A line of words on a page, in an inconsistent group without indentation. -/
structure LineInked (c : Config Int) (page : Page Int) (line : List Text) (before : Text) : Prop where
  config : page.sink.config = c
  frames : ∃ fits rest, page.frames = ⟨0, .inconsistent, fits⟩ :: rest
  space : page.sink.space = c.margin - lineWidth (measure c) line
  indent : page.sink.indent = 0
  blank : page.sink.blank = 0
  text : page.sink.text = before ++ [0x20].intercalate line

theorem extent_text (r : Reach) (ends : r = .line ∨ r = .chunk 0) (w : Text) (ws : List Text) :
    extent c r (.text w :: others ws) = measure c w := by
  have none := extent_others (c := c) r ends ws
  show (measure c w : Int) + extent c r (others ws) = measure c w
  omega

/-- A word is written behind the blanks that are owed. -/
theorem write_word (filled : w ≠ []) {sink : Sink Int} (indent : sink.indent = 0) (blank : 0 ≤ sink.blank)
    (n : Int) :
    (sink.write w n).config = sink.config ∧ (sink.write w n).space = sink.space - n ∧
      (sink.write w n).indent = 0 ∧ (sink.write w n).blank = 0 ∧
      (sink.write w n).text = sink.text ++ Text.spaces sink.blank.toNat ++ w := by
  have shown : w.isEmpty = false := by simpa using filled
  obtain ⟨first, second⟩ := write_settled n (Int.le_of_eq indent.symm) blank shown
  refine ⟨?_, ?_, first, second, ?_⟩
  · simp [Sink.write, Sink.mark, shown]
  · simp [Sink.write, shown]
  · rw [text_write]
    simp [Sink.lead, shown, Sink.indentation, indent, Columns.toNat, Columns.toInt]

/-- A word behind a flat break joins the line. -/
theorem join_inks (some : line ≠ []) (filled : w ≠ []) (inks : LineInked c page line before) :
    LineInked c { page with sink := (page.sink.owe 1).write w (measure c w) } (line ++ [w]) before := by
  have owed : 0 ≤ (page.sink.owe 1).blank := by
    show 0 ≤ page.sink.blank + 1
    rw [inks.blank]
    decide
  have level : (page.sink.owe 1).indent = 0 := inks.indent
  obtain ⟨config, space, indent, blank, text⟩ := write_word filled level owed (measure c w)
  refine ⟨config.trans inks.config, inks.frames, ?_, indent, blank, ?_⟩
  · rw [space, lineWidth_concat some]
    show page.sink.space - 1 - measure c w = _
    rw [inks.space]
    omega
  · have same : (page.sink.owe 1).text = page.sink.text := by
      exact (text_mark page.sink (.flat 1)).trans (List.append_nil _)
    have one : (page.sink.owe 1).blank = 1 := by
      show page.sink.blank + 1 = 1
      rw [inks.blank]
      rfl
    rw [text, same, one, inks.text, joined_concat some]
    simp [Text.spaces]

/-- A word behind a taken break starts a line. -/
theorem start_inks (filled : w ≠ []) (inks : LineInked c page line before) {sink : Sink Int}
    (config : sink.config = c) (space : sink.space = c.margin) (indent : sink.indent = 0) (blank : sink.blank = 0)
    (text : sink.text = page.sink.text ++ [0x0a]) :
    LineInked c { page with sink := sink.write w (measure c w) } [w] (before ++ [0x20].intercalate line ++ [0x0a]) := by
  obtain ⟨same, left, first, second, all⟩ := write_word filled indent (Int.le_of_eq blank.symm) (measure c w)
  refine ⟨same.trans config, inks.frames, ?_, first, second, ?_⟩
  · rw [left, space]
    rfl
  · rw [all, text, blank, inks.text]
    simp [Text.spaces, List.intercalate]

/-- The next word joins the line exactly if it fits there behind a space. -/
theorem word_inks {ws : List Text} {mid : Page Int} (some : line ≠ []) (filled : w ≠ [])
    (forward : Forward c (.lineBreak gap :: .text w :: others ws))
    (fitted : GroupsFitted c page (.lineBreak gap :: .text w :: others ws)) (inks : LineInked c page line before)
    (first : Wrote page (.lineBreak gap) (exactSize c (.lineBreak gap) (.text w :: others ws)) mid)
    (second : Wrote mid (.text w) (exactSize c (.text w) (others ws)) after) :
    if (lineWidth (measure c) line + 1 + measure c w : Nat) ≤ c.margin then LineInked c after (line ++ [w]) before
    else LineInked c after [w] (before ++ [0x20].intercalate line ++ [0x0a]) := by
  have reach := extent_text (c := c) .line (.inl rfl) w ws
  have size : exactSize c (.lineBreak gap) (.text w :: others ws) = 1 + measure c w :=
    congrArg (1 + ·) (extent_text (c := c) (.chunk 0) (.inr rfl) w ws)
  have measured : exactSize c (.text w) (others ws) = measure c w := Int.add_zero _
  have room := inks.space
  rw [measured] at second
  cases second
  cases first with
  | flat frames soft fitting =>
    -- Whether the group fits or the break does, there is space up to the next break.
    have ahead := flat_ahead forward fitted frames soft fitting
    rw [reach] at ahead
    have joins : (lineWidth (measure c) line + 1 + measure c w : Nat) ≤ c.margin := by
      have ahead : (measure c w : Int) ≤ page.sink.space - 1 := ahead
      omega
    rw [if_pos joins]
    exact join_inks some filled inks
  | taken frames broken =>
    obtain ⟨fits, rest, same⟩ := inks.frames
    rw [same] at frames
    cases frames
    have wide := (broken (by decide)).2 rfl
    rw [size] at wide
    rw [if_neg (by omega)]
    refine start_inks filled inks inks.config ?_ rfl rfl ?_
    · show page.sink.config.margin - (0 + 0) = c.margin
      rw [inks.config]
      omega
    · refine (text_mark page.sink _).trans ?_
      simp [Mark.spelling, Sink.lead, gap]

/-- From the first word of a line on, words fill lines. -/
theorem words_fill (margin : c.margin < infiniteWidth) (some : line ≠ []) (filled : ∀ w ∈ words, w ≠ [])
    (lays : TokensLaid c page (others words) final) (fitted : GroupsFitted c page (others words))
    (inks : LineInked c page line before) :
    final.sink.text = before ++ written (fillFrom (measure c) c.margin line words) := by
  induction words generalizing page line before with
  | nil =>
    obtain ⟨after, wrote, done⟩ := lays_cons lays
    cases done.laid
    cases wrote
    refine (text_mark page.sink .stop).trans ?_
    rw [inks.text]
    simp [Mark.spelling, written, fillFrom, List.intercalate]
  | cons w words ih =>
    obtain ⟨here, later⟩ := List.forall_mem_cons.mp filled
    obtain ⟨mid, first, middle, halfway⟩ := fitted_cons margin lays fitted
    obtain ⟨after, second, rest, onwards⟩ := fitted_cons margin middle halfway
    have next := word_inks some here lays.forward fitted inks first second
    unfold fillFrom
    by_cases joins : (lineWidth (measure c) line + 1 + measure c w : Nat) ≤ c.margin
    · rw [if_pos joins] at next ⊢
      exact ih (by simp) later rest onwards next
    · rw [if_neg joins] at next ⊢
      rw [ih (List.cons_ne_nil w []) later rest onwards next, written_cons fillFrom_ne_nil]
      simp

/-- The start of an inconsistent group leaves a blank page blank. -/
theorem started (wrote : Wrote (Page.ofConfig c) (.groupStart ⟨.inconsistent, 0, false⟩) size after) :
    after.sink.config = c ∧ after.sink.space = c.margin ∧ after.sink.indent = 0 ∧ after.sink.blank = 0 ∧
      after.sink.text = [] ∧ ∃ fits rest, after.frames = ⟨0, .inconsistent, fits⟩ :: rest := by
  cases wrote with
  | fit frames =>
    cases frames
    exact ⟨rfl, rfl, rfl, rfl, rfl, true, _, rfl⟩
  | split frames _ placed =>
    cases frames
    cases placed
    exact ⟨rfl, rfl, rfl, rfl, rfl, false, _, rfl⟩

/-- Words on a blank page fill lines. -/
theorem page_fills (margin : c.margin < infiniteWidth) (filled : ∀ w ∈ words, w ≠ [])
    (lays : TokensLaid c (Page.ofConfig c) (transcript .initial (paragraph words)) final) :
    final.sink.text = written (fill (measure c) c.margin words) := by
  cases words with
  | nil =>
    obtain ⟨mid, first, later⟩ := lays_cons lays
    obtain ⟨after, second, done⟩ := lays_cons later
    obtain ⟨_, _, _, _, blank, _⟩ := started first
    cases done.laid
    cases second
    exact (text_mark mid.sink .stop).trans (by rw [blank]; rfl)
  | cons w words =>
    obtain ⟨here, others⟩ := List.forall_mem_cons.mp filled
    rw [transcript_paragraph] at lays
    obtain ⟨mid, first, later, halfway⟩ := fitted_cons margin lays (ofConfig_fitted c _)
    obtain ⟨after, second, rest, onwards⟩ := fitted_cons margin later halfway
    obtain ⟨config, space, indent, blank, text, frames⟩ := started first
    have measured : exactSize c (.text w) (Filling.others words) = measure c w := Int.add_zero _
    rw [measured] at second
    cases second
    obtain ⟨same, left, level, settled, all⟩ := write_word here indent (Int.le_of_eq blank.symm) (measure c w)
    have inks : LineInked c { mid with sink := mid.sink.write w (measure c w) } [w] [] := by
      refine ⟨same.trans config, frames, ?_, level, settled, ?_⟩
      · rw [left, space]
        rfl
      · rw [all, text, blank]
        simp [Text.spaces, List.intercalate]
    exact words_fill margin (List.cons_ne_nil w []) others rest onwards inks

end Tokens

section Runs

variable {words : List Text}

theorem paragraph_balanced (words : List Text) : Balanced (paragraph words) := by
  have inner : Balanced ((words.map Call.text).intersperse .space) := by
    induction words with
    | nil => exact .nil
    | cons w words ih =>
      cases words with
      | nil => exact .text w
      | cons v words => exact .append (.text w) (.append (.lineBreak (by decide)) ih)
  exact .group (.plain (by simp) (Int.le_refl 0)) inner

/-- Words are printed filled into lines. -/
theorem printed_fills {c : Config Int} {start : Printer Int} (accepted : Printer.ofConfig c = .ok start)
    (filled : ∀ w ∈ words, w ≠ []) :
    ∃ q, Printer.print c (paragraph words) = .ok q ∧ q.output = written (filling c words) := by
  obtain ⟨p, q, ran, ended, lays⟩ := balanced_printed accepted (paragraph_balanced words)
  refine ⟨q, ?_, page_fills (Rendering.accepted_margin accepted) filled lays⟩
  simp only [Printer.print, accepted, ok_bind, ran, ended]

omit [Columns ι] in
theorem measure_length (c : Config ι) (w : Text) : measure c w ≤ w.length := by
  have columns : measure c w ≤ Text.Glyphs.columns w.codes := by
    unfold measure
    split
    · exact Text.Glyphs.shownWidthOf_le false w.codes
    · exact Text.Glyphs.plainWidth_le w
  exact Nat.le_trans columns (Text.Glyphs.columns_codes w)

theorem loads_others (c : Config Int) (ws : List Text) :
    loads c (others ws) ≤ (ws.flatten.length + ws.length : Nat) := by
  induction ws with
  | nil => exact Int.le_refl 0
  | cons w ws ih =>
    have here := measure_length c w
    have first : loads c (others (w :: ws)) = 1 + 0 + (measure c w + 0 + loads c (others ws)) := rfl
    rw [first, List.flatten_cons, List.length_append, List.length_cons]
    omega

/-- The columns of words are no more than their bytes. -/
theorem loadOf_paragraph (c : Config Int) (words : List Text) :
    loadOf c (paragraph words) ≤ c.withDefaults.margin + (words.flatten.length + words.length : Nat) := by
  cases words with
  | nil => exact Int.le_refl _
  | cons w words =>
    have here := measure_length c w
    have later := loads_others c.withDefaults words
    have first : loadOf c (paragraph (w :: words)) =
        c.withDefaults.margin + (0 + 0 + (measure c w + 0 + loads c.withDefaults (others words))) := by
      rw [loadOf, transcript_paragraph]
      rfl
    rw [first, List.flatten_cons, List.length_append, List.length_cons]
    omega

theorem numbers_margin (c : Config Int64) :
    Columns.toInt c.withDefaults.margin = c.numbers.withDefaults.margin := by
  obtain ⟨margin, unit⟩ := numbers_fits c
  have same := withDefaults_words margin unit
  rw [numbers_words] at same
  rw [same]
  exact word_toInt (withDefaults_fits margin unit).1

theorem paragraph_words (words : List Text) : (paragraph words).map Call.words = paragraph words := by
  have inner : ((words.map Call.text).intersperse .space).map Call.words =
      (words.map Call.text).intersperse .space := by
    induction words with
    | nil => rfl
    | cons w words ih =>
      cases words with
      | nil => rfl
      | cons v words => exact congrArg (fun calls => .text w :: .space :: calls) ih
  simp only [paragraph, List.map_append, List.map_cons, inner]
  rfl

/-- Words are printed filled into lines, counted in machine words. -/
theorem printed_fills_words {c : Config Int64} {start : Printer Int64} (accepted : Printer.ofConfig c = .ok start)
    (filled : ∀ w ∈ words, w ≠ [])
    (room : Columns.toInt c.withDefaults.margin + (words.flatten.length + words.length : Nat) ≤ limit) :
    printCalls c (paragraph words) = .ok (written (filling c words)) := by
  obtain ⟨begun, begins⟩ := accepted_numbers accepted
  obtain ⟨margin, unit⟩ := numbers_fits c
  obtain ⟨q, printed, output⟩ := printed_fills begins filled
  rw [numbers_margin] at room
  have same := print_words begins margin unit (paragraph_balanced words)
    (Int.le_trans (loadOf_paragraph c.numbers words) room)
  have lines : filling c words = filling c.numbers words := by
    rw [filling, numbers_margin]
    rfl
  rw [numbers_words, paragraph_words, printed] at same
  rw [printCalls, same, lines, ← output]
  exact congrArg Except.ok (output_words q)

end Runs

/-- Words in an inconsistent group fill lines greedily, whatever their number and the configuration; in machine
words as long as they can count the bytes. -/
theorem words_fill_lines_greedily :
    (∀ (c : Config Int) (start : Printer Int) (words : List Text), Printer.ofConfig c = .ok start →
      (∀ w ∈ words, w ≠ []) → WordsFilled c words) ∧
    (∀ (c : Config Int64) (start : Printer Int64) (words : List Text), Printer.ofConfig c = .ok start →
      (∀ w ∈ words, w ≠ []) →
      Columns.toInt c.withDefaults.margin + (words.flatten.length + words.length : Nat) ≤ limit →
      WordsFilled c words) := by
  refine ⟨?_, ?_⟩
  · intro c start words accepted filled
    obtain ⟨q, printed, output⟩ := printed_fills accepted filled
    refine ⟨?_, fill_flatten, fill_alone⟩
    rw [printCalls, printed, ← output]
    rfl
  · intro c start words accepted filled room
    exact ⟨printed_fills_words accepted filled room, fill_flatten, fill_alone⟩

/-- A word that is too wide between others, and two that fill a line to the margin. -/
theorem words_fill_lines_greedily_wide :
    WordsFilled (⟨5, 4, false, false⟩ : Config Int64) ["ab", "cd", "abcdef", "e", "f"] ∧
      filling (⟨5, 4, false, false⟩ : Config Int64) ["ab", "cd", "abcdef", "e", "f"] =
        ([["ab", "cd"], ["abcdef"], ["e", "f"]] : List (List Text)) :=
  ⟨words_fill_lines_greedily.2 _ _ _ rfl (by decide) (by decide), by decide⟩

end Galley.Layout.Filling
