import Galley.Proofs.Indentation
import Galley.Proofs.Rendering

/-! Documents one after the other. A hard break outside any group ends every extent before it, and the
line that it starts owes nothing; so the tokens after it are laid out as on a blank page, and the
render of the whole is that of its two parts with a newline between them. -/
namespace Galley.Layout.Composition
open Extent PageWriting Coverage Emission Rendering Indentation

/-- A document that closes its groups and undoes all indentation that it pushes outside of them. -/
def Restores (ts : List (Token Int)) : Prop := ts.foldlM accept [[]] = some [[]]

instance (ts : List (Token Int)) : Decidable (Restores ts) := inferInstanceAs (Decidable (_ = _))

variable {c : Config Int} {page next : Page Int} {t : Token Int} {ts rest : List (Token Int)}

section Sizes

/-- A break covers nothing of what stood before it: it ends what the end of the document ended. -/
theorem covers_break {after span : List (Token Int)} (covers : Covers t after span) (b : Break Int)
    (rest : List (Token Int)) : Covers t (after ++ .lineBreak b :: rest) span := by
  have stopped {more : List (Token Int)} (stops : BreakOrEnd more) : BreakOrEnd (more ++ .lineBreak b :: rest) := by
    cases stops with
    | nil => exact .lineBreak b rest
    | lineBreak other more => exact .lineBreak other _
  cases covers with
  | group g enclosed unbroken stops =>
    simpa using Covers.group g enclosed unbroken (stopped stops)
  | next own enclosed other more =>
    simpa using Covers.next own enclosed other (more ++ .lineBreak b :: rest)
  | last own enclosed unbroken stops =>
    simpa using Covers.last own enclosed unbroken (stopped stops)
  | final own enclosed => exact .next own enclosed b rest

/-- In a document with balanced groups no size changes when a break follows its end. -/
theorem exactSize_break {before after : List (Token Int)}
    (balanced : levels 1 (before ++ t :: after) = some 1) (b : Break Int) (rest : List (Token Int)) :
    exactSize c t (after ++ .lineBreak b :: rest) = exactSize c t after := by
  cases start : opening t with
  | none => simp [exactSize, start]
  | some r =>
    obtain ⟨span, covers⟩ := covers_some balanced (by simp [start])
    rw [exactSize_of_covers covers, exactSize_of_covers (covers_break covers b rest)]

/-- A document before a break is laid out as it is alone. -/
theorem layout_break (before : List (Token Int)) (balanced : levels 1 (before ++ ts) = some 1)
    (b : Break Int) (rest : List (Token Int)) :
    layout c page (ts ++ .lineBreak b :: rest) =
      layout c page ts >>= fun next => layout c next (.lineBreak b :: rest) := by
  induction ts generalizing before page with
  | nil => rfl
  | cons t ts ih =>
    simp only [List.cons_append, layout, exactSize_break balanced]
    cases page.write t (exactSize c t ts) with
    | error f => rfl
    | ok next =>
      have later : levels 1 ((before ++ [t]) ++ ts) = some 1 := by simpa using balanced
      exact ih (before ++ [t]) later

end Sizes

section Lines

/-- A page with something already written above it. -/
def onto (marks : List (Mark Int)) (page : Page Int) : Page Int :=
  { page with sink := { page.sink with marks := page.sink.marks ++ marks } }

theorem text_onto (marks : List (Mark Int)) (page : Page Int) :
    (onto marks page).sink.text = marks.reverse.flatMap Mark.spelling ++ page.sink.text := by
  simp [onto, Sink.text]

/-- What is written above has no part in what is written next. -/
theorem wrote_onto (marks : List (Mark Int)) {size : Int} (wrote : Wrote page t size next) :
    Wrote (onto marks page) t size (onto marks next) := by
  cases wrote with
  | text s => cases s <;> exact .text _ size
  | flat frames soft fitting => exact .flat frames soft fitting
  | taken frames broken indented => exact .taken frames broken indented
  | fit frames fits => exact .fit frames fits
  | split frames wide placed indented => exact .split frames wide placed indented
  | stop frames => exact .stop frames
  | shift frames indented => exact .shift frames indented
  | missing => exact .missing size

theorem layout_onto (marks : List (Mark Int)) (laid : layout c page ts = .ok next) :
    layout c (onto marks page) ts = .ok (onto marks next) := by
  induction ts generalizing page with
  | nil =>
    cases laid
    rfl
  | cons t ts ih =>
    obtain ⟨written, ran, later⟩ := bind_ok laid
    rw [layout, write_of_wrote (wrote_onto marks (write_cases ran)), ok_bind]
    exact ih later

/-- With nothing pushed and no group open, a hard break starts a line on which nothing is owed, as on
a blank page. -/
theorem write_hard_break {b : Break Int} {size : Int} (grounded : PageGrounded c page)
    (carries : FramesCarry [[]] page.frames) (hard : b.kind = .hard) (still : b.offset = 0)
    (bare : b.preBreak = []) :
    page.write (.lineBreak b) size =
      .ok (onto (.taken [] [] 0 :: page.sink.marks) (Page.ofConfig c)) := by
  obtain ⟨above, ground, frames⟩ := grounded.bottom
  obtain rfl : above = [] := by
    have count := carries_length carries
    rw [frames] at count
    simpa using count
  rw [frames] at carries
  obtain rfl : ground = 0 := by
    cases carries with
    | document _ own => exact own
    | group _ _ outer => cases outer
  have config := grounded.config
  simp [Page.write, Page.writeBreak, frames, Page.staysFlat, hard, Sink.newline, still, bare, Sink.lead, onto,
    Page.ofConfig, Sink.ofConfig, Sink.mark, config]

end Lines

section Documents

theorem admitted_of_fold {scopes after : List (List Int)} (admitted : ts.foldlM accept scopes = some after) :
    TokensAdmitted scopes (ts.map plain) after := by
  induction ts generalizing scopes with
  | nil =>
    cases admitted
    exact .nil _
  | cons t ts ih =>
    obtain ⟨next, first, later⟩ := admitted_cons admitted
    exact .cons (admits_of_accept first) (ih later)

theorem restores_emittable (restores : Restores ts) : Emittable ts := by
  simp only [Emittable, show ts.foldlM accept [[]] = some [[]] from restores]
  rfl

/-- The last page of a document that restores what it pushes stands as the first one did. -/
theorem layout_restores (restores : Restores ts) (laid : layout c (Page.ofConfig c) ts = .ok next) :
    PageGrounded c next ∧ FramesCarry [[]] next.frames := by
  rw [← layout_plain] at laid
  rcases layout_carries (ofConfig_grounded c) (ofConfig_carries c) (admitted_of_fold restores) with
    ⟨final, same, grounded, carries⟩ | ⟨_, _, f, failed, _⟩
  · rw [same] at laid
    cases laid
    exact ⟨grounded, carries⟩
  · rw [failed] at laid
    cases laid

/-- A render that ends was laid out under an accepted configuration. -/
theorem render_laid {out : Text} (rendered : render c ts = .ok out) :
    (∃ p, Printer.ofConfig c = .ok p) ∧ Emittable ts ∧
      ∃ page, layout c.withDefaults (Page.ofConfig c.withDefaults) ts = .ok page ∧ page.sink.text = out := by
  obtain ⟨p, printed, same⟩ := render_ok rendered
  obtain ⟨accepted, checked⟩ := print_emittable printed
  exact ⟨accepted, checked, p.page, (print_lays printed).laid, same⟩

/-- A document that keeps the discipline of emitting is rendered as it is laid out. -/
theorem render_of_laid {p : Printer Int} (accepted : Printer.ofConfig c = .ok p) (checked : Emittable ts)
    (laid : layout c.withDefaults (Page.ofConfig c.withDefaults) ts = .ok page) :
    render c ts = .ok page.sink.text := by
  have pages := print_eq_layout accepted checked
  rw [laid] at pages
  cases printed : Printer.print c (ts.map Call.emit) with
  | error f =>
    rw [printed] at pages
    cases pages
  | ok q =>
    rw [printed] at pages
    cases pages
    rw [render, printCalls, printed]
    rfl

/-- Two documents with a hard break between them, the first of which restores what it pushes, make a
document. -/
theorem emittable_append {b : Break Int} (restores : Restores ts) (hard : b.kind = .hard)
    (checked : Emittable rest) : Emittable (ts ++ .lineBreak b :: rest) := by
  have between : accept [[]] (.lineBreak b) = some [[]] := by simp [accept, hard]
  have first : ts.foldlM accept [[]] = some [[]] := restores
  simp only [Emittable, List.foldlM_append, first, List.foldlM_cons, between, Option.bind_eq_bind,
    Option.bind_some]
  exact checked

theorem layout_append {b : Break Int} {last : Page Int} (restores : Restores ts) (hard : b.kind = .hard)
    (still : b.offset = 0) (bare : b.preBreak = []) (first : layout c (Page.ofConfig c) ts = .ok next)
    (second : layout c (Page.ofConfig c) rest = .ok last) :
    layout c (Page.ofConfig c) (ts ++ .lineBreak b :: rest) =
      .ok (onto (.taken [] [] 0 :: next.sink.marks) last) := by
  obtain ⟨grounded, carries⟩ := layout_restores restores first
  have balanced := emittable_balanced (restores_emittable restores)
  rw [layout_break [] balanced, first, ok_bind, layout, write_hard_break grounded carries hard still bare,
    ok_bind]
  exact layout_onto _ second

/-- Two documents with a hard break between them, the first of which undoes all indentation that it
pushes outside its groups, are rendered as each of them is, with a newline between them. -/
theorem render_hard_break (c : Config Int) (ts rest : List (Token Int)) (first second : Text) (blank : Int)
    (rendered : render c ts = .ok first) (followed : render c rest = .ok second)
    (restores : Restores ts) :
    render c (ts ++ .lineBreak ⟨.hard, blank, 0, []⟩ :: rest) = .ok (first ++ "\n" ++ second) := by
  obtain ⟨⟨p, accepted⟩, _, next, laid, rfl⟩ := render_laid rendered
  obtain ⟨_, checked, last, also, rfl⟩ := render_laid followed
  have whole := layout_append (b := ⟨.hard, blank, 0, []⟩) restores rfl rfl rfl laid also
  rw [render_of_laid accepted (emittable_append restores rfl checked) whole, text_onto, List.reverse_cons,
    List.flatMap_append]
  rfl

theorem render_hard_break_indented :
    render (⟨10, 4, false, false⟩ : Config Int)
      ([.text "f", .indent 2, .lineBreak ⟨.zero, 0, 0, []⟩, .groupStart ⟨.consistent, 1, false⟩,
          .text "aaaa", .lineBreak ⟨.space, 1, 0, ","⟩, .text "bbbb", .groupEnd, .text ";", .indent (-2),
          .lineBreak ⟨.space, 1, 0, []⟩] ++
        .lineBreak ⟨.hard, 3, 0, []⟩ ::
        [.text "g", .groupStart ⟨.inconsistent, 0, true⟩, .text "cccc", .lineBreak ⟨.space, 1, 0, []⟩,
          .text "dd", .lineBreak ⟨.space, 1, 0, []⟩, .text "ee", .groupEnd]) =
      .ok (("f\n  aaaa,\n   bbbb;" : Text) ++ "\n" ++ "gcccc dd\n ee") :=
  render_hard_break _ _ _ _ _ _ (by decide +kernel) (by decide +kernel) (by decide)

end Documents

end Galley.Layout.Composition
