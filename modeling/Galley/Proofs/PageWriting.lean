import Galley.Proofs.Extent

/-! What writing one token does to a page, said once. The layout, the margin and the order of texts
are all read off this list of cases; no later proof opens the page's functions again. -/
namespace Galley.Layout.PageWriting
open Extent

@[simp] theorem ok_bind {ε α β : Type} (a : α) (f : α → Except ε β) :
    ((Except.ok a : Except ε α) >>= f) = f a := rfl

theorem bind_ok {ε α β : Type} {x : Except ε α} {f : α → Except ε β} {b : β}
    (ran : x >>= f = .ok b) : ∃ a, x = .ok a ∧ f a = .ok b := by
  cases x with
  | error e => cases ran
  | ok a => exact ⟨a, rfl, ran⟩

@[simp] theorem mark_space (sink : Sink Int) (m : Mark Int) : (sink.mark m).space = sink.space := rfl

@[simp] theorem mark_marks {ι : Type} [Columns ι] (sink : Sink ι) (m : Mark ι) :
    (sink.mark m).marks = m :: sink.marks := rfl

/-- The page after a token of some size, one case for each thing that can happen. -/
inductive Wrote (page : Page Int) : Token Int → Int → Page Int → Prop where
  | text (s : Text) (size : Int) :
      Wrote page (.text s) size { page with sink := page.sink.write s size }
  | flat {top : Frame Int} {rest : List (Frame Int)} {b : Break Int} {size : Int}
      (frames : page.frames = top :: rest) (soft : b.kind ≠ .hard)
      (fitting : top.fits = true ∨ top.breaks = .inconsistent ∧ size ≤ page.sink.space) :
      Wrote page (.lineBreak b) size { page with sink := page.sink.owe b.blank }
  | taken {top : Frame Int} {rest : List (Frame Int)} {b : Break Int} {size : Int}
      (frames : page.frames = top :: rest)
      (broken : b.kind ≠ .hard → top.fits = false ∧
        (top.breaks = .inconsistent → page.sink.space < size))
      (indented : 0 ≤ top.indent + b.offset) :
      Wrote page (.lineBreak b) size { page with sink :=
        { page.sink.mark (.taken (page.sink.lead b.preBreak) b.preBreak (top.indent + b.offset)) with
          indent := top.indent + b.offset
          blank := 0
          space := page.sink.config.margin - (top.indent + b.offset) } }
  | fit {top : Frame Int} {rest : List (Frame Int)} {g : Group Int} {size : Int}
      (frames : page.frames = top :: rest) (fits : size ≤ page.sink.space) :
      Wrote page (.groupStart g) size
        ⟨page.sink.mark (.start true), ⟨top.indent, g.breaks, true⟩ :: page.frames⟩
  | split {top : Frame Int} {rest : List (Frame Int)} {g : Group Int} {size indent : Int}
      (frames : page.frames = top :: rest) (wide : page.sink.space < size)
      (placed : indent = (if g.align then page.sink.column else top.indent) + g.offset)
      (indented : 0 ≤ indent) :
      Wrote page (.groupStart g) size
        ⟨page.sink.mark (.start false), ⟨indent, g.breaks, false⟩ :: page.frames⟩
  | stop {top : Frame Int} {rest : List (Frame Int)} {size : Int}
      (frames : page.frames = top :: rest) :
      Wrote page .groupEnd size ⟨page.sink.mark .stop, rest⟩
  | shift {top : Frame Int} {rest : List (Frame Int)} {delta size : Int}
      (frames : page.frames = top :: rest) (indented : 0 ≤ top.indent + delta) :
      Wrote page (.indent delta) size
        ⟨page.sink.mark (.shift delta), { top with indent := top.indent + delta } :: rest⟩
  | missing (size : Int) : Wrote page .missing size page

variable {page after : Page Int} {size : Int}

private theorem wrote_break {b : Break Int}
    (ran : page.writeBreak b size = .ok after) : Wrote page (.lineBreak b) size after := by
  unfold Page.writeBreak at ran
  split at ran
  · cases ran
  · rename_i top rest frames
    split at ran
    · rename_i flat
      cases ran
      simp only [Page.staysFlat, decide_eq_true_eq] at flat
      exact .flat frames flat.1 flat.2
    · rename_i broken
      obtain ⟨sink, line, same⟩ := bind_ok ran
      cases same
      simp only [Page.staysFlat, decide_eq_true_eq, not_and, not_or, Bool.not_eq_true,
        Int.not_le] at broken
      unfold Sink.newline at line
      split at line
      · cases line
      · cases line
        exact .taken frames (fun soft => ⟨(broken soft).1, (broken soft).2⟩) (by omega)

private theorem wrote_start {g : Group Int}
    (ran : page.startGroup g size = .ok after) : Wrote page (.groupStart g) size after := by
  unfold Page.startGroup at ran
  split at ran
  · cases ran
  · rename_i top rest frames
    split at ran
    · rename_i fits
      cases ran
      exact .fit frames fits
    · rename_i wide
      generalize placed : (if g.align then page.sink.column else top.indent) + g.offset = indent at ran
      by_cases indented : indent < 0
      · simp [indented, breach] at ran
      · simp only [indented, ↓reduceIte, Except.ok.injEq] at ran
        cases ran
        exact .split frames (Int.not_le.mp wide) placed.symm (Int.not_lt.mp indented)

variable {t : Token Int}

/-- Writing does one of the listed things. -/
theorem write_cases (ran : page.write t size = .ok after) : Wrote page t size after := by
  cases t with
  | text s => cases ran; exact .text s size
  | lineBreak b => exact wrote_break ran
  | groupStart g => exact wrote_start ran
  | groupEnd =>
    simp only [Page.write] at ran
    split at ran
    · cases ran
    · rename_i frames
      cases ran
      exact .stop frames
  | indent delta =>
    simp only [Page.write] at ran
    split at ran
    · cases ran
    · rename_i frames
      split at ran
      · cases ran
      · rename_i indented
        cases ran
        exact .shift frames (Int.not_lt.mp indented)
  | missing => cases ran; exact .missing size

/-- Each of the listed things is what writing does. -/
theorem write_of_wrote (wrote : Wrote page t size after) : page.write t size = .ok after := by
  cases wrote with
  | text s => rfl
  | flat frames soft fitting =>
    have flat := And.intro soft fitting
    simp [Page.write, Page.writeBreak, frames, Page.staysFlat, flat]
  | @taken top rest b _ frames broken indented =>
    have taken : ¬ (b.kind ≠ .hard ∧ (top.fits = true ∨ top.breaks = .inconsistent ∧ size ≤ page.sink.space)) := by
      rintro ⟨soft, fitting⟩
      have := broken soft
      grind
    simp only [Page.write, Page.writeBreak, frames, Page.staysFlat, taken, decide_false, Bool.false_eq_true,
      ↓reduceIte, Sink.newline, Int.not_lt.mpr indented]
    rfl
  | fit frames fits => simp [Page.write, Page.startGroup, frames, fits]
  | @split top rest g _ indent frames wide placed indented =>
    simp only [Page.write, Page.startGroup, frames, Int.not_le.mpr wide, ↓reduceIte, ← placed,
      Int.not_lt.mpr indented]
  | stop frames => simp [Page.write, frames]
  | shift frames indented => simp [Page.write, frames, Int.not_lt.mpr indented]
  | missing => rfl

/-- The size of a group start or a break counts only against the space that is left. -/
theorem write_size_congr {page : Page Int} {size other : Int}
    (opens : opening t ≠ none) (same : size ≤ page.sink.space ↔ other ≤ page.sink.space) :
    page.write t size = page.write t other := by
  cases t with
  | lineBreak b =>
    have flat (top : Frame Int) : page.staysFlat top b size = page.staysFlat top b other := by
      simp only [Page.staysFlat, same]
    simp only [Page.write, Page.writeBreak, flat]
  | groupStart g => simp only [Page.write, Page.startGroup, same]
  | text | groupEnd | indent | missing => simp [opening] at opens

/-- The number of open groups after a token, the document itself counted. The document cannot
be closed. -/
def level (n : Nat) : Token Int → Option Nat
  | .groupStart _ => some (n + 1)
  | .groupEnd => if 2 ≤ n then some (n - 1) else none
  | _ => some n

/-- The number of open groups after some tokens. -/
def levels (n : Nat) : List (Token Int) → Option Nat
  | [] => some n
  | t :: ts => (level n t).bind (levels · ts)

theorem levels_append (n : Nat) (ts rest : List (Token Int)) :
    levels n (ts ++ rest) = (levels n ts).bind (levels · rest) := by
  induction ts generalizing n with
  | nil => rfl
  | cons t ts ih =>
    cases next : level n t with
    | none => simp [levels, next]
    | some m => simp [levels, next, ih]

variable {ts : List (Token Int)}

theorem levels_concat {n m k : Nat} (before : levels n ts = some m) (here : level m t = some k) :
    levels n (ts ++ [t]) = some k := by
  simp [levels_append, before, levels, here]

/-- The document itself stays open. -/
theorem levels_pos {k d : Nat} (positive : 1 ≤ k) (nested : levels k ts = some d) : 1 ≤ d := by
  induction ts generalizing k with
  | nil => cases nested; exact positive
  | cons t ts ih =>
    obtain ⟨m, here, deeper⟩ := Option.bind_eq_some_iff.mp nested
    refine ih ?_ deeper
    cases t with
    | groupEnd =>
      simp only [level, Option.ite_none_right_eq_some, Option.some.injEq] at here
      omega
    | groupStart g => cases here; omega
    | text | lineBreak | indent | missing => cases here; exact positive

/-- A page that belongs to a configuration: nothing owed is negative, no line has more space than
the margin, and the document's own frame lies at the bottom. -/
structure PageGrounded (c : Config Int) (page : Page Int) : Prop where
  config : page.sink.config = c
  space : page.sink.space ≤ c.margin
  indent : 0 ≤ page.sink.indent
  blank : 0 ≤ page.sink.blank
  bottom : ∃ above indent, page.frames = above ++ [⟨indent, .inconsistent, false⟩]

theorem ofConfig_grounded (c : Config Int) : PageGrounded c (Page.ofConfig c) :=
  ⟨rfl, Int.le_refl _, Int.le_refl _, Int.le_refl _, [], 0, rfl⟩

/-- Writing keeps a page in order, and moves the number of its frames as the token says. -/
theorem write_grounded {c : Config Int} {n : Nat} (grounded : PageGrounded c page) (counted : 0 ≤ columns c t)
    (sized : opening t = none → size = columns c t)
    (nested : level page.frames.length t = some n) (ran : page.write t size = .ok after) :
    PageGrounded c after ∧ after.frames.length = n := by
  obtain ⟨config, space, indent, blank, above, ground, frames⟩ := grounded
  cases write_cases ran with
  | text s =>
    have measured := sized rfl
    cases nested
    refine ⟨⟨?_, ?_, ?_, ?_, above, ground, frames⟩, rfl⟩ <;>
      by_cases void : s.isEmpty = true <;> simp [Sink.write, Sink.mark, void, config] <;> omega
  | @flat top rest b _ _ soft =>
    cases nested
    have wide : 0 ≤ b.blank := by simpa [columns, Break.width, soft] using counted
    exact ⟨⟨config, by simp [Sink.owe]; omega, indent, by simp [Sink.owe]; omega,
      above, ground, frames⟩, rfl⟩
  | taken _ _ indented =>
    cases nested
    exact ⟨⟨config, by simp [config]; omega, indented, Int.le_refl 0, above, ground, frames⟩, rfl⟩
  | @fit top rest g =>
    cases nested
    exact ⟨⟨config, space, indent, blank, ⟨top.indent, g.breaks, true⟩ :: above, ground,
      by simp [frames]⟩, rfl⟩
  | @split top rest g _ column =>
    cases nested
    exact ⟨⟨config, space, indent, blank, ⟨column, g.breaks, false⟩ :: above, ground,
      by simp [frames]⟩, rfl⟩
  | @stop top rest _ held =>
    cases above with
    | nil => simp [level, frames] at nested
    | cons inner above =>
      rw [frames, List.cons_append] at held
      cases held
      refine ⟨⟨config, space, indent, blank, above, ground, rfl⟩, ?_⟩
      simp only [level, frames, List.cons_append, List.length_cons] at nested
      split at nested <;> simp_all
  | @shift top rest delta _ held =>
    cases nested
    refine ⟨⟨config, space, indent, blank, ?_⟩, by simp [held]⟩
    cases above with
    | nil =>
      simp only [frames, List.nil_append, List.cons.injEq] at held
      obtain ⟨rfl, rfl⟩ := held
      exact ⟨[], ground + delta, rfl⟩
    | cons inner above =>
      rw [frames, List.cons_append] at held
      cases held
      exact ⟨{ top with indent := top.indent + delta } :: above, ground, rfl⟩
  | missing =>
    cases nested
    exact ⟨⟨config, space, indent, blank, above, ground, frames⟩, rfl⟩

/-- With a group to write into, only a breach of the contract stops the writing of a token. -/
theorem write_error {page : Page Int} {f : Fault}
    (framed : page.frames ≠ []) (failed : page.write t size = .error f) : ∃ b, f = .contract b := by
  obtain ⟨top, rest, frames⟩ := List.exists_cons_of_ne_nil framed
  cases t with
  | text s => cases failed
  | lineBreak b =>
    simp only [Page.write, Page.writeBreak, frames, Sink.newline] at failed
    split at failed
    · cases failed
    · split at failed
      · cases failed
        exact ⟨_, rfl⟩
      · cases failed
  | groupStart g =>
    simp only [Page.write, Page.startGroup, frames] at failed
    split at failed
    · cases failed
    · generalize (if g.align then page.sink.column else top.indent) + g.offset = indent at failed
      split at failed
      · cases failed
        exact ⟨_, rfl⟩
      · cases failed
  | groupEnd =>
    simp only [Page.write, frames] at failed
    cases failed
  | indent delta =>
    simp only [Page.write, frames] at failed
    split at failed
    · cases failed
      exact ⟨_, rfl⟩
    · cases failed
  | missing => cases failed

/-- Only a breach of the contract stops a layout whose groups are balanced. -/
theorem layout_error {c : Config Int} {page : Page Int} {n : Nat} {f : Fault}
    (grounded : PageGrounded c page) (forward : Forward c ts)
    (nested : levels page.frames.length ts = some n) (failed : layout c page ts = .error f) :
    ∃ b, f = .contract b := by
  induction ts generalizing page with
  | nil => cases failed
  | cons t ts ih =>
    obtain ⟨above, ground, frames⟩ := grounded.bottom
    obtain ⟨m, here, later⟩ := Option.bind_eq_some_iff.mp nested
    cases ran : page.write t (exactSize c t ts) with
    | error e =>
      rw [layout, ran] at failed
      cases failed
      exact write_error (by simp [frames]) ran
    | ok after =>
      rw [layout, ran] at failed
      obtain ⟨next, count⟩ := write_grounded grounded (forward t (by simp))
        (fun none => by simp [exactSize, none]) here ran
      exact ih next (fun u member => forward u (by simp [member])) (count ▸ later) failed

/-- Tokens, all of them present and with balanced groups, are laid out from one page to another. -/
structure TokensLaid (c : Config Int) (page : Page Int) (ts : List (Token Int)) (final : Page Int) : Prop where
  grounded : PageGrounded c page
  forward : Forward c ts
  nested : ∃ n, levels page.frames.length ts = some n
  present : .missing ∉ ts
  laid : layout c page ts = .ok final

/-- A layout goes token by token, each written with its exact size. -/
theorem lays_cons {c : Config Int} {page final : Page Int} (lays : TokensLaid c page (t :: ts) final) :
    ∃ after, Wrote page t (exactSize c t ts) after ∧ TokensLaid c after ts final := by
  obtain ⟨grounded, forward, ⟨n, nested⟩, present, laid⟩ := lays
  obtain ⟨m, here, later⟩ := Option.bind_eq_some_iff.mp nested
  obtain ⟨after, ran, rest⟩ := bind_ok laid
  obtain ⟨next, count⟩ := write_grounded grounded (forward t (by simp))
    (fun none => by simp [exactSize, none]) here ran
  exact ⟨after, write_cases ran, next, fun u member => forward u (by simp [member]),
    ⟨n, count ▸ later⟩, fun member => present (by simp [member]), rest⟩

/-- The mark that a token leaves on a page. -/
inductive MarkRecords : Token Int → Mark Int → Prop where
  | text (s lead : Text) : MarkRecords (.text s) (.text lead s)
  | flat {b : Break Int} (soft : b.kind ≠ .hard) : MarkRecords (.lineBreak b) (.flat b.blank)
  | taken (b : Break Int) (lead : Text) (indent : Int) :
      MarkRecords (.lineBreak b) (.taken lead b.preBreak indent)
  | start (g : Group Int) (fits : Bool) : MarkRecords (.groupStart g) (.start fits)
  | stop : MarkRecords .groupEnd .stop
  | shift (delta : Int) : MarkRecords (.indent delta) (.shift delta)

theorem wrote_records (wrote : Wrote page t size after) (present : t ≠ .missing) :
    ∃ m, MarkRecords t m ∧ after.sink.marks = m :: page.sink.marks := by
  cases wrote with
  | text s =>
    refine ⟨_, .text s (page.sink.lead s), ?_⟩
    by_cases void : s.isEmpty = true <;> simp [Sink.write, Sink.mark, void]
  | flat frames soft => exact ⟨_, .flat soft, rfl⟩
  | taken => exact ⟨_, .taken _ _ _, rfl⟩
  | fit => exact ⟨_, .start _ true, rfl⟩
  | split => exact ⟨_, .start _ false, rfl⟩
  | stop => exact ⟨_, .stop, rfl⟩
  | shift => exact ⟨_, .shift _, rfl⟩
  | missing => exact absurd rfl present

/-- A layout leaves one mark for each token, in order. -/
theorem lays_records {c : Config Int} {page final : Page Int} (lays : TokensLaid c page ts final) :
    ∃ marks, List.Forall₂ MarkRecords ts marks ∧ final.sink.marks = marks.reverse ++ page.sink.marks := by
  induction ts generalizing page with
  | nil =>
    cases lays.laid
    exact ⟨[], .nil, rfl⟩
  | cons t ts ih =>
    obtain ⟨after, wrote, later⟩ := lays_cons lays
    have present : t ≠ .missing := fun missing => lays.present (by simp [missing])
    obtain ⟨m, records, first⟩ := wrote_records wrote present
    obtain ⟨marks, others, rest⟩ := ih later
    exact ⟨m :: marks, .cons records others, by simp [rest, first]⟩

end Galley.Layout.PageWriting
