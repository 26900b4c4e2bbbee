import Galley.Proofs.Margin
import Galley.Proofs.PrinterState

/-! Groups as a whole. What a group's start decides holds up to its end: inside a group that stays on one
line no break is taken and no group is split, and the breaks of a split consistent group are all taken. A
hard break never stays on one line, so no group around it does. -/
namespace Galley.Layout.Wholeness
open Extent PageWriting Coverage Rendering Margin PrinterState

def isFlat : Mark Int → Bool
  | .flat _ => true
  | _ => false

def isTaken : Mark Int → Bool
  | .taken _ _ _ => true
  | _ => false

/-- A break of the group itself among the tokens inside it, and the mark it left. -/
def DirectBreak (inner : List (Token Int × Mark Int)) (b : Break Int) (m : Mark Int) : Prop :=
  ∃ first rest, inner = first ++ (.lineBreak b, m) :: rest ∧ Enclosed true (first.map Prod.fst)

/-- A group that was written flat or broken as a whole. -/
structure GroupWhole (g : Group Int) (fits : Bool) (inner : List (Token Int × Mark Int)) : Prop where
  together : g.breaks = .consistent →
    (∀ b m, DirectBreak inner b m → b.kind ≠ .hard → isFlat m = true) ∨
      (∀ b m, DirectBreak inner b m → b.kind ≠ .hard → isTaken m = true)
  flat : fits = true → ∀ b m, (.lineBreak b, m) ∈ inner → isFlat m = true
  nested : fits = true → ∀ other m, (.groupStart other, m) ∈ inner → m = .start true
  hard : (∃ b m, (.lineBreak b, m) ∈ inner ∧ b.kind = .hard) →
    fits = false ∧ (g.breaks = .consistent → ∀ b m, DirectBreak inner b m → isTaken m = true)

/-- Some tokens are still to be written on a page, each with its mark. -/
structure TokensPending (c : Config Int) (page : Page Int) (written : List (Token Int × Mark Int))
    (final : Page Int) : Prop where
  lays : TokensLaid c page (written.map Prod.fst) final
  marks : final.sink.marks = (written.map Prod.snd).reverse ++ page.sink.marks
  fitted : GroupsFitted c page (written.map Prod.fst)

/-- The group that `n` others are open in. -/
def GroupHolds (page : Page Int) (n : Nat) (breaks : Breaks) (fits : Bool) : Prop :=
  ∃ f, page.frames[n]? = some f ∧ f.breaks = breaks ∧ f.fits = fits

section Levels

variable {direct : Bool} {ts rest : List (Token Int)} {n m : Nat}

theorem levels_enclosed (enclosed : Enclosed direct ts) (n : Nat) : levels (n + 1) ts = some (n + 1) := by
  induction enclosed generalizing n with
  | nil direct => rfl
  | @plain direct t ts bare inside rest ih =>
    have stays : level (n + 1) t = some (n + 1) := by cases t <;> simp_all [opening, level]
    rw [levels, stays]
    exact ih n
  | lineBreak b rest ih => exact ih n
  | @group direct g inner ts inside rest ihInner ihRest =>
    have closes : level (n + 1 + 1) .groupEnd = some (n + 1) := by simp [level]
    show levels (n + 1 + 1) (inner ++ .groupEnd :: ts) = some (n + 1)
    rw [levels_append, ihInner, Option.bind_some, levels, closes]
    exact ihRest n

/-- Enclosed tokens never close the group around them. -/
theorem levels_inside (enclosed : Enclosed direct (ts ++ rest)) : ∃ m, levels 1 ts = some (m + 1) := by
  have whole := levels_enclosed enclosed 0
  rw [levels_append] at whole
  obtain ⟨m, before, _⟩ := Option.bind_eq_some_iff.mp whole
  obtain ⟨k, rfl⟩ := Nat.exists_eq_add_of_le' (levels_pos (Nat.le_refl 1) before)
  exact ⟨k, before⟩

end Levels

section Step

variable {c : Config Int} {page after final : Page Int} {t : Token Int} {mark : Mark Int} {n m : Nat}
  {breaks : Breaks} {fits : Bool} {first written : List (Token Int × Mark Int)} {size : Int}

theorem stands_cons (margin : c.margin < infiniteWidth) (stands : TokensPending c page ((t, mark) :: written) final) :
    ∃ after, Wrote page t (exactSize c t (written.map Prod.fst)) after ∧
      after.sink.marks = mark :: page.sink.marks ∧ TokensPending c after written final := by
  obtain ⟨lays, marks, fitted⟩ := stands
  obtain ⟨after, wrote, later, still⟩ := fitted_cons margin lays fitted
  have present : t ≠ .missing := fun missing => lays.present (by simp [missing])
  obtain ⟨left, _, here⟩ := wrote_records wrote present
  obtain ⟨others, records, all⟩ := lays_records later
  have count : others.length = written.length := by simpa using records.length_eq.symm
  have same : others.reverse ++ left :: page.sink.marks =
      (written.map Prod.snd).reverse ++ mark :: page.sink.marks := by
    rw [← here, ← all, marks]
    simp
  obtain ⟨rest, head⟩ := List.append_inj same (by simp [count])
  cases head
  exact ⟨after, wrote, here, later, by rw [all, rest], still⟩

/-- Whatever is written, an open group stays as its start has left it. -/
theorem holds_step (wrote : Wrote page t size after) (here : level (n + 1) t = some (m + 1))
    (holds : GroupHolds page n breaks fits) : GroupHolds after m breaks fits := by
  obtain ⟨f, found, kept⟩ := holds
  cases wrote with
  | text | flat | taken | fit | split | missing =>
    cases here
    exact ⟨f, found, kept⟩
  | stop frames =>
    simp only [level, Option.ite_none_right_eq_some, Option.some.injEq, Nat.add_sub_cancel] at here
    obtain ⟨_, rfl⟩ := here
    rw [frames] at found
    exact ⟨f, found, kept⟩
  | @shift top rest delta _ frames =>
    cases here
    rw [frames] at found
    cases n with
    | zero =>
      cases found
      exact ⟨_, rfl, kept⟩
    | succ n => exact ⟨f, found, kept⟩

theorem holds_run (margin : c.margin < infiniteWidth) (stands : TokensPending c page (first ++ written) final)
    (inside : levels (n + 1) (first.map Prod.fst) = some (m + 1)) (holds : GroupHolds page n breaks fits) :
    ∃ mid, TokensPending c mid written final ∧ GroupHolds mid m breaks fits := by
  induction first generalizing page n with
  | nil =>
    cases inside
    exact ⟨page, stands, holds⟩
  | cons x first ih =>
    obtain ⟨t, mark⟩ := x
    obtain ⟨after, wrote, _, later⟩ := stands_cons margin stands
    obtain ⟨k, here, further⟩ := Option.bind_eq_some_iff.mp inside
    have one : levels (n + 1) [t] = some k := by
      rw [levels, here]
      rfl
    have positive : 1 ≤ k := levels_pos (Nat.succ_pos n) one
    obtain ⟨k, rfl⟩ := Nat.exists_eq_add_of_le' positive
    exact ih later further (holds_step wrote here holds)

/-- Inside a group that stays on one line no break is taken. -/
theorem fitting_flat {b : Break Int} (margin : c.margin < infiniteWidth)
    (stands : TokensPending c page ((.lineBreak b, mark) :: written) final) (holds : GroupHolds page n breaks true) :
    isFlat mark = true ∧ b.kind ≠ .hard := by
  obtain ⟨after, wrote, left, _⟩ := stands_cons margin stands
  obtain ⟨f, found, _, whole⟩ := holds
  cases wrote with
  | flat _ soft =>
    cases left
    exact ⟨rfl, soft⟩
  | taken frames broken =>
    have none := taken_fits_none stands.lays.grounded margin stands.lays.forward stands.fitted frames
      fun soft => (broken soft).1
    rw [none f (List.mem_of_getElem? found)] at whole
    cases whole

/-- Inside a group that stays on one line every other does. -/
theorem fitting_nested {g : Group Int} (margin : c.margin < infiniteWidth)
    (stands : TokensPending c page ((.groupStart g, mark) :: written) final) (holds : GroupHolds page n breaks true) :
    mark = .start true := by
  obtain ⟨after, wrote, left, later⟩ := stands_cons margin stands
  obtain ⟨f, found, _, whole⟩ := holds
  cases wrote with
  | fit =>
    cases left
    rfl
  | split =>
    have outer := (List.pairwise_cons.mp later.fitted.inner).1 f (List.mem_of_getElem? found) whole
    cases outer

/-- A consistent group that is split takes its own breaks. -/
theorem split_taken {b : Break Int} (margin : c.margin < infiniteWidth)
    (stands : TokensPending c page ((.lineBreak b, mark) :: written) final)
    (holds : GroupHolds page 0 .consistent false) : isTaken mark = true := by
  obtain ⟨after, wrote, left, _⟩ := stands_cons margin stands
  obtain ⟨f, found, consistent, split⟩ := holds
  cases wrote with
  | flat frames _ fitting =>
    rw [frames] at found
    cases found
    simp [split, consistent] at fitting
  | taken =>
    cases left
    rfl

end Step

section Groups

variable {c : Config Int} {page final : Page Int} {g : Group Int} {mark : Mark Int}
  {inner rest : List (Token Int × Mark Int)}

/-- A group start leaves its decision on the page. -/
theorem start_holds (margin : c.margin < infiniteWidth)
    (stands : TokensPending c page ((.groupStart g, mark) :: rest) final) :
    ∃ after fits, mark = .start fits ∧ GroupHolds after 0 g.breaks fits ∧ TokensPending c after rest final := by
  obtain ⟨after, wrote, left, later⟩ := stands_cons margin stands
  cases wrote with
  | fit =>
    cases left
    exact ⟨_, true, rfl, ⟨_, rfl, rfl, rfl⟩, later⟩
  | split =>
    cases left
    exact ⟨_, false, rfl, ⟨_, rfl, rfl, rfl⟩, later⟩

/-- A group is flat or broken as a whole. -/
theorem group_whole (margin : c.margin < infiniteWidth)
    (stands : TokensPending c page ((.groupStart g, mark) :: (inner ++ rest)) final)
    (enclosed : Enclosed true (inner.map Prod.fst)) : ∃ fits, mark = .start fits ∧ GroupWhole g fits inner := by
  obtain ⟨after, fits, start, holds, later⟩ := start_holds margin stands
  -- The page on which a token inside the group is written still has the group open.
  have inside {x : Token Int × Mark Int} (member : x ∈ inner) :
      ∃ mid n more, TokensPending c mid (x :: more) final ∧ GroupHolds mid n g.breaks fits := by
    obtain ⟨first, others, rfl⟩ := List.append_of_mem member
    rw [List.map_append] at enclosed
    obtain ⟨n, reached⟩ := levels_inside enclosed
    rw [List.append_assoc] at later
    obtain ⟨mid, here, still⟩ := holds_run margin later reached holds
    exact ⟨mid, n, others ++ rest, here, still⟩
  have flat (whole : fits = true) (b : Break Int) (m : Mark Int) (member : (.lineBreak b, m) ∈ inner) :
      isFlat m = true ∧ b.kind ≠ .hard := by
    obtain ⟨mid, n, more, here, still⟩ := inside member
    exact fitting_flat margin here (whole ▸ still)
  have taken (consistent : g.breaks = .consistent) (split : fits = false) (b : Break Int) (m : Mark Int)
      (own : DirectBreak inner b m) : isTaken m = true := by
    obtain ⟨first, others, rfl, apart⟩ := own
    rw [List.append_assoc] at later
    obtain ⟨mid, here, still⟩ := holds_run margin later (levels_enclosed apart 0) holds
    exact split_taken margin here (consistent ▸ split ▸ still)
  refine ⟨fits, start, ?_, fun whole b m member => (flat whole b m member).1, ?_, ?_⟩
  · intro consistent
    cases whole : fits with
    | true =>
      left
      rintro b m ⟨first, others, rfl, _⟩ _
      exact (flat whole b m (by simp)).1
    | false =>
      right
      intro b m own _
      exact taken consistent whole b m own
  · intro whole other m member
    obtain ⟨mid, n, more, here, still⟩ := inside member
    exact fitting_nested margin here (whole ▸ still)
  · rintro ⟨b, m, member, hard⟩
    have split : fits = false := by
      cases whole : fits with
      | true => exact absurd hard (flat whole b m member).2
      | false => rfl
    exact ⟨split, fun consistent => taken consistent split⟩

/-- In a document with balanced groups every group has its end. -/
theorem group_ends {before after : List (Token Int × Mark Int)}
    (balanced : levels 1 ((before ++ (.groupStart g, mark) :: after).map Prod.fst) = some 1) :
    ∃ n inner closing rest, levels 1 (before.map Prod.fst) = some (n + 1) ∧
      after = inner ++ (.groupEnd, closing) :: rest ∧ Enclosed true (inner.map Prod.fst) := by
  rw [List.map_append, levels_append] at balanced
  obtain ⟨n, outside, within⟩ := Option.bind_eq_some_iff.mp balanced
  obtain ⟨n, rfl⟩ := Nat.exists_eq_add_of_le' (levels_pos (Nat.le_refl 1) outside)
  have within : levels (n + 1 + 1) (after.map Prod.fst) = some 1 := within
  obtain ⟨body, others, cut, enclosed, _⟩ := split_at_end _ _ within (by omega)
  obtain ⟨inner, more, rfl, rfl, closes⟩ := List.map_eq_append_iff.mp cut
  obtain ⟨last, rest, rfl, ends, _⟩ := List.map_eq_cons_iff.mp closes
  obtain ⟨t, closing⟩ := last
  cases ends
  exact ⟨n, inner, closing, rest, outside, rfl, enclosed⟩

theorem print_stands {ts : List (Token Int)} {p : Printer Int}
    (printed : Printer.print c (ts.map Call.emit) = .ok p) :
    List.Forall₂ MarkRecords ts p.page.sink.marks.reverse ∧
      TokensPending c.withDefaults (Page.ofConfig c.withDefaults) (ts.zip p.page.sink.marks.reverse) p.page := by
  have lays := print_lays printed
  obtain ⟨marks, records, all⟩ := lays_records lays
  have order : p.page.sink.marks.reverse = marks := by simp [all, Page.ofConfig, Sink.ofConfig]
  have count := records.length_eq
  have tokens : (ts.zip marks).map Prod.fst = ts := List.map_fst_zip (by omega)
  have left : (ts.zip marks).map Prod.snd = marks := List.map_snd_zip (by omega)
  rw [order]
  refine ⟨records, by rwa [tokens], by rw [left, all], ?_⟩
  rw [tokens]
  exact ofConfig_fitted _ _

end Groups

/-- Every group of a document that is rendered ends in it, and is flat or broken as a whole. -/
theorem rendered_groups_whole (c : Config Int) (ts : List (Token Int)) (text : Text)
    (rendered : render c ts = .ok text) :
    ∃ p, Printer.print c (ts.map Call.emit) = .ok p ∧ p.output = text ∧
      List.Forall₂ MarkRecords ts p.page.sink.marks.reverse ∧
      ∀ before g mark after, ts.zip p.page.sink.marks.reverse = before ++ (.groupStart g, mark) :: after →
        ∃ fits inner rest, mark = .start fits ∧ after = inner ++ (.groupEnd, .stop) :: rest ∧
          Enclosed true (inner.map Prod.fst) ∧ GroupWhole g fits inner := by
  obtain ⟨p, printed, same⟩ := render_ok rendered
  obtain ⟨⟨start, accepted⟩, checked⟩ := print_emittable printed
  have margin := accepted_margin accepted
  obtain ⟨records, stands⟩ := print_stands printed
  refine ⟨p, printed, same, records, ?_⟩
  intro before g mark after cut
  have tokens : (ts.zip p.page.sink.marks.reverse).map Prod.fst = ts :=
    List.map_fst_zip (Nat.le_of_eq records.length_eq)
  have balanced := emittable_balanced checked
  rw [← tokens, cut] at balanced
  obtain ⟨n, inner, closing, rest, reached, rfl, enclosed⟩ := group_ends balanced
  have ends : MarkRecords .groupEnd closing := (List.forall₂_iff_zip.mp records).2 (by simp [cut])
  cases ends
  rw [cut] at stands
  obtain ⟨mid, here, _⟩ := holds_run margin stands reached ⟨_, rfl, rfl, rfl⟩
  obtain ⟨fits, decided, whole⟩ := group_whole margin here enclosed
  exact ⟨fits, inner, rest, decided, rfl, enclosed, whole⟩

/-- A consistent group that is split by a hard break inside a group in it. -/
theorem rendered_groups_whole_hard :
    let g : Group Int := ⟨.consistent, 2, false⟩
    let inside : List (Token Int) := [.text "a", .lineBreak ⟨.space, 1, 0, []⟩,
      .groupStart ⟨.inconsistent, 0, false⟩, .text "b", .lineBreak ⟨.hard, 0, 0, []⟩, .groupEnd, .text "c",
      .groupEnd]
    ∃ p, Printer.print (⟨80, 4, false, false⟩ : Config Int) ((.groupStart g :: inside).map Call.emit) = .ok p ∧
      p.output = "a\n  b\n  c" ∧ ∃ marks inner rest, p.page.sink.marks.reverse = .start false :: marks ∧
        inside.zip marks = inner ++ (.groupEnd, .stop) :: rest ∧ GroupWhole g false inner := by
  intro g inside
  obtain ⟨p, printed, output, _, groups⟩ := rendered_groups_whole ⟨80, 4, false, false⟩
    (.groupStart g :: inside) "a\n  b\n  c" (by decide +kernel)
  obtain ⟨q, again, left⟩ := ok_of_toOption (f := fun p => p.page.sink.marks.reverse)
    (x := Printer.print (⟨80, 4, false, false⟩ : Config Int) ((.groupStart g :: inside).map Call.emit))
    (b := [.start false, .text [] "a", .taken [] [] 2, .start false, .text "  " "b", .taken [] [] 2, .stop,
      .text "  " "c", .stop]) (by decide +kernel)
  cases printed.symm.trans again
  obtain ⟨fits, inner, rest, decided, ends, _, whole⟩ := groups [] g (.start false) _ (by rw [left]; rfl)
  cases decided
  exact ⟨p, printed, output, _, inner, rest, left, ends, whole⟩

end Galley.Layout.Wholeness
