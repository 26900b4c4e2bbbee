import Galley.Proofs.Rendering

/-! The margin. A line on which some break stayed flat is no wider than the margin, whatever groups
it runs through: a break stays flat only if everything up to the next break still fits, and a group
stays on one line only if this holds past its end. -/
namespace Galley.Layout.Margin
open Extent PageWriting Rendering

/-- A line as it was laid out: its columns, from its indentation over flat blanks and texts, and how
many breaks stayed flat on it. The text of a taken break is not counted. -/
structure Line where
  columns : Int
  flats : Nat
  deriving DecidableEq, Repr

/-- A line with another mark on it. -/
def Line.add (c : Config Int) (line : Line) : Mark Int → Line
  | .text _ s => { line with columns := line.columns + c.width s }
  | .flat blank => ⟨line.columns + blank, line.flats + 1⟩
  | _ => line

/-- The lines of a page, last first. A taken break starts a line. -/
def lines (c : Config Int) : List (Mark Int) → List Line
  | [] => [⟨0, 0⟩]
  | .taken _ _ indent :: marks => ⟨indent, 0⟩ :: lines c marks
  | m :: marks => (lines c marks).modifyHead (·.add c m)

/-- A line that has a flat break keeps within the margin. -/
def Line.Within (c : Config Int) (line : Line) : Prop := 0 < line.flats → line.columns ≤ c.margin

section Order

variable {c : Config Int} {ts : List (Token Int)}

private theorem forward_tail {t : Token Int} (forward : Forward c (t :: ts)) : Forward c ts :=
  fun u member => forward u (by simp [member])

/-- No extent ends before the next break. -/
theorem extent_line_le (forward : Forward c ts) (r : Reach) : extent c .line ts ≤ extent c r ts := by
  induction ts generalizing r with
  | nil => exact Int.le_refl 0
  | cons t ts ih =>
    by_cases ends : ∃ b, t = .lineBreak b
    · obtain ⟨b, rfl⟩ := ends
      exact extent_nonneg r forward
    · have runs : ∃ s, r.step t = some s := by
        cases t <;> simp_all [Reach.step]
      have stays : Reach.line.step t = some .line := by
        cases t <;> simp_all [Reach.step, Reach.enter, Reach.leave]
      obtain ⟨s, runs⟩ := runs
      have rest := ih (forward_tail forward) s
      simp only [extent, runs, stays]
      omega

/-- An enclosing group reaches at least as far. -/
theorem extent_group_le (forward : Forward c ts) {m n : Nat} (le : m ≤ n) :
    extent c (.group m) ts ≤ extent c (.group n) ts := by
  induction ts generalizing m n with
  | nil => exact Int.le_refl 0
  | cons t ts ih =>
    have tail := forward_tail forward
    cases t with
    | groupStart g =>
      have rest := ih tail (Nat.succ_le_succ le)
      simpa [extent, Reach.step, Reach.enter] using rest
    | groupEnd =>
      cases m with
      | zero => simpa [extent, Reach.step, Reach.leave] using extent_line_le tail _
      | succ m =>
        obtain ⟨n, rfl⟩ := Nat.exists_eq_add_of_le' (Nat.le_trans (Nat.succ_pos m) le)
        have rest := ih tail (Nat.le_of_succ_le_succ le)
        simpa [extent, Reach.step, Reach.leave] using rest
    | text s => simpa [extent, Reach.step] using ih tail le
    | lineBreak b => simpa [extent, Reach.step, Reach.meet] using ih tail le
    | indent | missing => simpa [extent, Reach.step] using ih tail le

end Order

/-- Every group that stays on one line has space for what it still covers, and so do all groups
inside it. -/
structure GroupsFitted (c : Config Int) (page : Page Int) (ts : List (Token Int)) : Prop where
  ahead : ∀ n f, page.frames[n]? = some f → f.fits = true → extent c (.group n) ts ≤ page.sink.space
  inner : page.frames.Pairwise fun inner outer => outer.fits = true → inner.fits = true

/-- The current line counts what has gone from its space. Once it has a flat break, everything up to
the next break fits on it; the lines before it keep within the margin. -/
structure LineFilled (c : Config Int) (page : Page Int) (ts : List (Token Int)) (line : Line)
    (before : List Line) : Prop where
  lines : lines c page.sink.marks = line :: before
  within : ∀ l ∈ before, l.Within c
  columns : line.columns = c.margin - page.sink.space
  ahead : 0 < line.flats → extent c .line ts ≤ page.sink.space

section Step

variable {c : Config Int} {page after : Page Int} {t : Token Int} {ts : List (Token Int)}

theorem write_space (sink : Sink Int) (c : Config Int) (s : Text) :
    (sink.write s (c.width s)).space = sink.space - c.width s := by
  cases s with
  | nil =>
    have zero : c.width [] = 0 := by
      obtain ⟨margin, unit, tabs, ansi⟩ := c
      cases ansi <;> rfl
    simp [Sink.write, Sink.mark, zero]
  | cons b s => rfl

/-- A break is taken only where no group stays on one line. -/
theorem taken_fits_none {b : Break Int} {top : Frame Int} {rest : List (Frame Int)}
    (grounded : PageGrounded c page) (margin : c.margin < infiniteWidth)
    (forward : Forward c (.lineBreak b :: ts)) (fitted : GroupsFitted c page (.lineBreak b :: ts))
    (frames : page.frames = top :: rest) (broken : b.kind ≠ .hard → top.fits = false) :
    ∀ f ∈ page.frames, f.fits = false := by
  have outer : ∀ f ∈ rest, f.fits = true → top.fits = true := by
    have inner := fitted.inner
    rw [frames, List.pairwise_cons] at inner
    exact inner.1
  have closed : top.fits = false := by
    by_cases hard : b.kind = .hard
    · by_contra whole
      have ahead := fitted.ahead 0 top (by simp [frames]) (by simpa using whole)
      have later := extent_nonneg (.group 0) (forward_tail forward)
      have space := grounded.space
      simp only [extent, Reach.step, Reach.meet, Extent.columns, Break.width, hard, ↓reduceIte] at ahead
      omega
    · exact broken hard
  intro f member
  rw [frames, List.mem_cons] at member
  rcases member with rfl | member
  · exact closed
  · by_contra whole
    simp [outer f member (by simpa using whole)] at closed

theorem fitted_step (grounded : PageGrounded c page) (margin : c.margin < infiniteWidth)
    (forward : Forward c (t :: ts)) (fitted : GroupsFitted c page (t :: ts))
    (wrote : Wrote page t (exactSize c t ts) after) : GroupsFitted c after ts := by
  obtain ⟨ahead, inner⟩ := fitted
  cases wrote with
  | text s =>
    refine ⟨fun n f found fits => ?_, inner⟩
    have before := ahead n f found fits
    have measured : exactSize c (.text s) ts = c.width s := by
      simp [exactSize, opening, Extent.columns]
    simp only [extent, Reach.step, Extent.columns] at before
    simp only [measured, write_space]
    omega
  | @flat top rest b _ frames soft =>
    refine ⟨fun n f found fits => ?_, inner⟩
    have before := ahead n f found fits
    simp only [extent, Reach.step, Reach.meet, Extent.columns, Break.width, soft, ↓reduceIte] at before
    simp only [Sink.owe]
    omega
  | @taken top rest b _ frames broken =>
    have none := taken_fits_none grounded margin forward ⟨ahead, inner⟩ frames
      fun soft => (broken soft).1
    refine ⟨fun n f found fits => ?_, inner⟩
    simp [none f (List.mem_of_getElem? found)] at fits
  | @fit top rest g _ frames fitting =>
    simp only [exactSize, opening, Extent.columns, Int.zero_add] at fitting
    refine ⟨fun n f found fits => ?_, List.pairwise_cons.mpr ⟨fun _ _ _ => rfl, inner⟩⟩
    cases n with
    | zero => exact fitting
    | succ n =>
      have before := ahead n f found fits
      simpa [extent, Reach.step, Reach.enter, Extent.columns] using before
  | @split top rest g _ indent frames wide =>
    simp only [exactSize, opening, Extent.columns, Int.zero_add] at wide
    have enclosing : ∀ n f, page.frames[n]? = some f → f.fits = true →
        extent c (.group (n + 1)) ts ≤ page.sink.space := by
      intro n f found fits
      have before := ahead n f found fits
      simpa [extent, Reach.step, Reach.enter, Extent.columns] using before
    refine ⟨fun n f found fits => ?_, List.pairwise_cons.mpr ⟨fun f member fits => ?_, inner⟩⟩
    · cases n with
      | zero =>
        cases found
        cases fits
      | succ n => exact enclosing n f found fits
    · -- an enclosing group that stays on one line would have space for this one
      obtain ⟨n, found⟩ := List.mem_iff_getElem?.mp member
      have reaches := extent_group_le (forward_tail forward) (Nat.zero_le (n + 1))
      have space := enclosing n f found fits
      omega
  | @stop top rest _ frames =>
    rw [frames, List.pairwise_cons] at inner
    refine ⟨fun n f found fits => ?_, inner.2⟩
    have before := ahead (n + 1) f (by simpa [frames] using found) fits
    simpa [extent, Reach.step, Reach.leave, Extent.columns] using before
  | @shift top rest delta _ frames =>
    rw [frames, List.pairwise_cons] at inner
    refine ⟨fun n f found fits => ?_, List.pairwise_cons.mpr ⟨inner.1, inner.2⟩⟩
    cases n with
    | zero =>
      cases found
      have before := ahead 0 top (by simp [frames]) fits
      simpa [extent, Reach.step, Extent.columns] using before
    | succ n =>
      have before := ahead (n + 1) f (by simpa [frames] using found) fits
      simpa [extent, Reach.step, Extent.columns] using before
  | missing =>
    refine ⟨fun n f found fits => ?_, inner⟩
    simpa [extent, Reach.step, Extent.columns] using ahead n f found fits

/-- A layout goes token by token, and what is written leaves space for the groups that stay on one line. -/
theorem fitted_cons {final : Page Int} (margin : c.margin < infiniteWidth) (lays : TokensLaid c page (t :: ts) final)
    (fitted : GroupsFitted c page (t :: ts)) :
    ∃ after, Wrote page t (exactSize c t ts) after ∧ TokensLaid c after ts final ∧ GroupsFitted c after ts := by
  obtain ⟨after, wrote, later⟩ := lays_cons lays
  exact ⟨after, wrote, later, fitted_step lays.grounded margin lays.forward fitted wrote⟩

/-- A flat break leaves enough space for everything up to the next break. -/
theorem flat_ahead {b : Break Int} {top : Frame Int} {rest : List (Frame Int)}
    (forward : Forward c (.lineBreak b :: ts)) (fitted : GroupsFitted c page (.lineBreak b :: ts))
    (frames : page.frames = top :: rest) (soft : b.kind ≠ .hard)
    (fitting : top.fits = true ∨
      top.breaks = .inconsistent ∧ exactSize c (.lineBreak b) ts ≤ page.sink.space) :
    extent c .line ts ≤ page.sink.space - b.blank := by
  have width : b.width = b.blank := by simp [Break.width, soft]
  rcases fitting with fits | ⟨_, fits⟩
  · have ahead := fitted.ahead 0 top (by simp [frames]) fits
    have reaches := extent_line_le (forward_tail forward) (.group 0)
    simp only [extent, Reach.step, Reach.meet, Extent.columns] at ahead
    omega
  · have reaches := extent_line_le (forward_tail forward) (.chunk 0)
    simp only [exactSize, opening, Extent.columns] at fits
    omega

/-- A token that takes no columns and ends no line leaves the current line as it is. -/
private theorem filled_quiet {line : Line} {before : List Line} (filled : LineFilled c page (t :: ts) line before)
    (space : after.sink.space = page.sink.space)
    (same : lines c after.sink.marks = line :: before) (bare : Extent.columns c t = 0)
    (runs : Reach.line.step t = some .line) : LineFilled c after ts line before := by
  refine ⟨same, filled.within, ?_, ?_⟩
  · rw [space]
    exact filled.columns
  · intro flat
    have ahead := filled.ahead flat
    simp only [extent, runs, bare, Int.zero_add] at ahead
    rw [space]
    exact ahead

/-- A token moves the current line on, or ends it within the margin. -/
theorem filled_step {line : Line} {before : List Line} (config : page.sink.config = c)
    (forward : Forward c (t :: ts)) (fitted : GroupsFitted c page (t :: ts))
    (filled : LineFilled c page (t :: ts) line before) (wrote : Wrote page t (exactSize c t ts) after) :
    ∃ line before, LineFilled c after ts line before := by
  have ⟨now, within, columns, ahead⟩ := filled
  cases wrote with
  | text s =>
    have measured : exactSize c (.text s) ts = c.width s := by
      simp [exactSize, opening, Extent.columns]
    have marks : (page.sink.write s (c.width s)).marks = .text (page.sink.lead s) s :: page.sink.marks := by
      cases s <;> rfl
    refine ⟨line.add c (.text (page.sink.lead s) s), before, ?_, within, ?_, ?_⟩
    · simp [measured, marks, Margin.lines, now]
    · simp only [measured, write_space, Line.add, columns]
      omega
    · intro flat
      have reach := ahead flat
      simp only [extent, Reach.step, Extent.columns] at reach
      simp only [measured, write_space]
      omega
  | @flat top rest b _ frames soft fitting =>
    refine ⟨line.add c (.flat b.blank), before, ?_, within, ?_, ?_⟩
    · simp [Sink.owe, Sink.mark, Margin.lines, now]
    · simp only [Sink.owe, Line.add, columns]
      omega
    · intro _
      exact flat_ahead forward fitted frames soft fitting
  | @taken top rest b _ frames broken indented =>
    refine ⟨⟨top.indent + b.offset, 0⟩, line :: before, ?_, ?_, ?_, ?_⟩
    · simp [Sink.mark, Margin.lines, now]
    · intro l member
      rcases List.mem_cons.mp member with rfl | member
      · intro flat
        have reach := ahead flat
        simp only [extent, Reach.step, Reach.meet] at reach
        omega
      · exact within l member
    · simp only [config]
      omega
    · intro flat
      cases flat
  | fit | split | stop | shift =>
    exact ⟨line, before, filled_quiet filled rfl (by simp [Margin.lines, now, Line.add]) rfl rfl⟩
  | missing => exact ⟨line, before, filled_quiet filled rfl now rfl rfl⟩

end Step

/-- Every line of a layout keeps within the margin if it has a flat break. -/
theorem lays_within {c : Config Int} {page final : Page Int} {ts : List (Token Int)} {line : Line}
    {before : List Line} (margin : c.margin < infiniteWidth) (lays : TokensLaid c page ts final)
    (fitted : GroupsFitted c page ts) (filled : LineFilled c page ts line before) :
    ∀ l ∈ lines c final.sink.marks, l.Within c := by
  induction ts generalizing page line before with
  | nil =>
    cases lays.laid
    intro l member
    rw [filled.lines] at member
    rcases List.mem_cons.mp member with rfl | earlier
    · intro flat
      have ahead := filled.ahead flat
      have columns := filled.columns
      simp only [extent] at ahead
      omega
    · exact filled.within l earlier
  | cons t ts ih =>
    obtain ⟨after, wrote, later⟩ := lays_cons lays
    have next := fitted_step lays.grounded margin lays.forward fitted wrote
    obtain ⟨line, before, moved⟩ :=
      filled_step lays.grounded.config lays.forward fitted filled wrote
    exact ih later next moved

theorem ofConfig_fitted (c : Config Int) (ts : List (Token Int)) : GroupsFitted c (Page.ofConfig c) ts := by
  refine ⟨?_, List.pairwise_singleton _ _⟩
  intro n f found fits
  have bottom := List.mem_singleton.mp (List.mem_of_getElem? found)
  subst bottom
  cases fits

theorem ofConfig_filled (c : Config Int) (ts : List (Token Int)) :
    LineFilled c (Page.ofConfig c) ts ⟨0, 0⟩ [] := by
  refine ⟨rfl, by simp, ?_, by simp⟩
  simp [Page.ofConfig, Sink.ofConfig]

/-- Whatever is rendered, every token leaves its mark on the page, and a line with a flat break on it
takes no more columns than the margin: a wider line could not have been split. -/
theorem rendered_lines_within_margin (c : Config Int) (ts : List (Token Int)) (text : Text)
    (rendered : render c ts = .ok text) :
    ∃ p, Printer.print c (ts.map Call.emit) = .ok p ∧ p.output = text ∧
      List.Forall₂ MarkRecords ts p.page.sink.marks.reverse ∧
      ∀ line ∈ lines c.withDefaults p.page.sink.marks,
        0 < line.flats → line.columns ≤ c.withDefaults.margin := by
  obtain ⟨p, printed, same⟩ := render_ok rendered
  obtain ⟨⟨start, accepted⟩, _⟩ := print_emittable printed
  have lays := print_lays printed
  obtain ⟨marks, records, all⟩ := lays_records lays
  refine ⟨p, printed, same, ?_, ?_⟩
  · have order : p.page.sink.marks.reverse = marks := by simp [all, Page.ofConfig, Sink.ofConfig]
    rw [order]
    exact records
  · exact lays_within (accepted_margin accepted) lays (ofConfig_fitted _ _) (ofConfig_filled _ _)

theorem rendered_lines_within_margin_group :
    ∃ p, Printer.print (⟨10, 4, false, false⟩ : Config Int) ([.text "aaa", .lineBreak ⟨.space, 1, 2, []⟩,
        .groupStart ⟨.consistent, 0, false⟩, .text "bbb", .lineBreak ⟨.space, 1, 0, []⟩, .text "ccc",
        .groupEnd].map Call.emit) = .ok p ∧ p.output = "aaa\n  bbb ccc" ∧
      ∀ line ∈ lines ⟨10, 4, false, false⟩ p.page.sink.marks, 0 < line.flats → line.columns ≤ 10 := by
  obtain ⟨p, printed, output, _, within⟩ := rendered_lines_within_margin ⟨10, 4, false, false⟩
    [.text "aaa", .lineBreak ⟨.space, 1, 2, []⟩, .groupStart ⟨.consistent, 0, false⟩, .text "bbb",
      .lineBreak ⟨.space, 1, 0, []⟩, .text "ccc", .groupEnd] "aaa\n  bbb ccc" (by decide +kernel)
  exact ⟨p, printed, output, within⟩

end Galley.Layout.Margin
