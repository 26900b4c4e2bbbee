import Galley.Proofs.Coverage
import Galley.Proofs.Discipline

/-! Whole documents. A run over tokens that the open groups admit keeps to the page that exact sizes
give, so a document that keeps the discipline of emitting is rendered as if all of it had been
known beforehand. -/
namespace Galley.Layout.Rendering
open Extent PageWriting Coverage Pending Tracking Lookahead Emission

variable {scopes after : List (List Int)} {t : Token Int} {p q : Printer Int} {ts : List (Token Int)}

theorem admitted_cons (admitted : (t :: ts).foldlM accept scopes = some after) :
    ∃ next, accept scopes t = some next ∧ ts.foldlM accept next = some after := by
  rw [List.foldlM_cons] at admitted
  exact Option.bind_eq_some_iff.mp admitted

/-- What holds of every token that may stand somewhere holds of all tokens of a document. -/
theorem admitted_all {holds : Token Int → Prop} (admitted : ts.foldlM accept scopes = some after)
    (each : ∀ scopes t after, accept scopes t = some after → holds t) : ∀ t ∈ ts, holds t := by
  induction ts generalizing scopes with
  | nil => simp
  | cons t ts ih =>
    obtain ⟨next, first, rest⟩ := admitted_cons admitted
    intro u member
    rcases List.mem_cons.mp member with rfl | later
    · exact each scopes u next first
    · exact ih rest u later

theorem admitted_forward (c : Config Int)
    (admitted : ts.foldlM accept scopes = some after) : Forward c (ts.map plain) := by
  have counted := admitted_all admitted fun _ _ _ first => admits_counted (admits_of_accept first) c
  intro u member
  obtain ⟨t, inside, rfl⟩ := List.mem_map.mp member
  exact counted t inside

theorem admitted_present (admitted : ts.foldlM accept scopes = some after) : .missing ∉ ts := by
  have present := admitted_all admitted fun _ _ _ first => admits_present (admits_of_accept first)
  intro member
  exact present .missing member rfl

theorem admitted_levels (admitted : ts.foldlM accept scopes = some after) :
    levels scopes.length (ts.map plain) = some after.length := by
  induction ts generalizing scopes with
  | nil =>
    cases admitted
    rfl
  | cons t ts ih =>
    obtain ⟨next, first, rest⟩ := admitted_cons admitted
    simp only [List.map_cons, levels, admits_level (admits_of_accept first), Option.bind_some, ih rest]

/-- A printer that has taken in some tokens and may take in more. -/
structure PrinterReady (p : Printer Int) : Prop where
  steady : PrinterSteady p.scopes.length p
  fresh : p.done = false
  inside : p.scopes ≠ []

/-- An admitted token leaves a printer ready for the next one. -/
theorem take_ready {rest : List (Token Int)} (ready : PrinterReady p) (admits : GroupsAdmit p.scopes t after)
    (forward : Forward p.config rest) :
    Heads rest (outlook p (t :: rest)) (fun q => PrinterReady q ∧ q.scopes = after ∧ q.config = p.config)
      (take (withScopes p after) t) := by
  have steady := steady_withScopes ready.steady after
  refine heads_mono (take_heads steady forward (admits_counted admits _) (admits_present admits)
    (admits_level admits)) ?_
  rintro q ⟨next, kept⟩
  have scopes : q.scopes = after := kept.scopes
  refine ⟨⟨scopes ▸ next, kept.done.trans ready.fresh, ?_⟩, scopes, kept.config⟩
  exact scopes ▸ admits_scoped admits ready.inside

/-- A token that is taken in leaves a printer ready for the next one. -/
theorem taken_ready (ready : PrinterReady p) (admits : GroupsAdmit p.scopes t after)
    (taken : take (withScopes p after) t = .ok q) : PrinterReady q ∧ q.scopes = after := by
  have nothing : Forward p.config [] := by simp [Forward]
  have heads := take_ready ready admits nothing
  rw [taken] at heads
  obtain ⟨⟨later, scopes, _⟩, _⟩ := heads
  exact ⟨later, scopes⟩

/-- A run over admitted tokens keeps to the page that is laid out with all of them known. -/
theorem run_heads (ready : PrinterReady p) (admitted : ts.foldlM accept p.scopes = some after) :
    Heads [] (outlook p (ts.map plain))
      (fun q => PrinterReady q ∧ q.scopes = after ∧ q.config = p.config) (p.run (ts.map Call.emit)) := by
  induction ts generalizing p with
  | nil =>
    cases admitted
    exact ⟨⟨ready, rfl, rfl⟩, rfl⟩
  | cons t ts ih =>
    obtain ⟨next, first, rest⟩ := admitted_cons admitted
    have forward := admitted_forward p.config rest
    have step : p.run ((t :: ts).map Call.emit) =
        take (withScopes p next) (plain t) >>= fun q => q.run (ts.map Call.emit) := by
      rw [← emit_admitted ready.fresh first]
      rfl
    rw [step]
    refine heads_bind (take_ready ready (admits_of_accept first) forward) ?_
    rintro q ⟨later, scopes, config⟩
    refine heads_mono (ih later (scopes ▸ rest)) ?_
    rintro final ⟨last, left, same⟩
    exact ⟨last, left, same.trans config⟩

/-- The end of a document with no group open writes all that is held back. -/
theorem finish_heads (ready : PrinterReady p) (closed : p.scopes.length = 1) :
    Heads [] (outlook p []) (fun q => PrinterSteady 1 q ∧ q.idle = true ∧ q.done = true ∧
      q.scopes = p.scopes ∧ q.config = p.config) p.finish := by
  have steady : PrinterSteady 1 (withScopes p p.scopes) := closed ▸ steady_withScopes ready.steady p.scopes
  have ends : p.finish = (do
      let p ← (withScopes p p.scopes).resolveClosed
      let p ← Printer.resolveScan p.scan.length p
      p.advance) >>= fun q => .ok { q with done := true } := by
    simp only [Printer.finish, count_fresh ready.fresh, ok_bind, closed, Nat.sub_self,
      Nat.lt_irrefl, ↓reduceIte, bind_assoc]
    rfl
  rw [ends]
  refine heads_bind (drain_heads steady) ?_
  rintro q ⟨written, idle, kept⟩
  exact ⟨⟨steady_aside written q.scopes q.stats true, idle, rfl, kept.scopes, kept.config⟩, rfl⟩

/-- Only a document with no group open can be ended. -/
theorem finish_closed (ready : PrinterReady p) (ran : p.finish = .ok q) : p.scopes.length = 1 := by
  obtain ⟨scope, rest, scopes⟩ := List.exists_cons_of_ne_nil ready.inside
  simp only [Printer.finish, count_fresh ready.fresh, ok_bind] at ran
  split at ran
  · cases ran
  · rename_i closed
    simp only [scopes, List.length_cons] at closed ⊢
    omega

variable {c : Config Int}

/-- Under an accepted configuration a hard break never fits. -/
theorem accepted_margin (accepted : Printer.ofConfig c = .ok p) : c.withDefaults.margin < infiniteWidth := by
  simp only [Printer.ofConfig] at accepted
  split at accepted
  · cases accepted
  · have limit : (infiniteWidth : Int) = maxMargin + 1 := rfl
    omega

/-- A printer of an accepted configuration is ready, with a blank page and nothing held back. -/
theorem ofConfig_ready (accepted : Printer.ofConfig c = .ok p) :
    PrinterReady p ∧ p.scopes = [[]] ∧ p.config = c.withDefaults ∧
      ∀ ts, outlook p ts = layout c.withDefaults (Page.ofConfig c.withDefaults) ts := by
  have margin := accepted_margin accepted
  simp only [Printer.ofConfig] at accepted
  split at accepted
  · cases accepted
  · cases accepted
    have shape : StreamShaped (fun _ => False) 0 ⟨[], 0, [], [], 1⟩ :=
      ⟨by simp [View.waiting], by simp [View.waiting], by simp, .nil _, by simp, by simp⟩
    refine ⟨⟨⟨⟨[], 0, [], [], 1⟩, ?_, by simp [HeadWaits], rfl⟩, rfl, by simp⟩, rfl, rfl, fun _ => rfl⟩
    exact ⟨Nat.le_refl 0, rfl, rfl, rfl, rfl, rfl, by simp, by simp [Forward], rfl,
      ofConfig_grounded _, margin, shape⟩

/-- A document that is laid out to its end is written out: nothing of it stays held back. -/
theorem outlook_idle {n : Nat} (steady : PrinterSteady n p) (idle : p.idle = true) :
    outlook p [] = .ok p.page := by
  obtain ⟨v, tracks, waits, _⟩ := steady
  have empty := all_written waits ((idle_iff tracks).mp idle)
  have held : p.buf.toList = [] := by
    rw [tracks.buf, List.drop_eq_nil_of_le (Nat.not_lt.mp empty)]
    rfl
  simp [outlook, held, layout]

private theorem plain_shape (c : Config Int) (t : Token Int) : SameShape c (plain t) t := by
  cases t with
  | lineBreak b =>
    refine ⟨fun _ => rfl, ?_, rfl⟩
    by_cases hard : b.kind = .hard <;> simp [columns, plain, Break.width, hard]
  | _ => exact ⟨fun _ => rfl, rfl, rfl⟩

private theorem plain_write (t : Token Int) (page : Page Int) (size : Int) :
    page.write (plain t) size = page.write t size := by
  cases t with
  | lineBreak b =>
    by_cases hard : b.kind = .hard <;>
      simp [plain, Page.write, Page.writeBreak, Page.staysFlat, hard]
  | _ => rfl

private theorem levels_plain (n : Nat) (ts : List (Token Int)) :
    levels n (ts.map plain) = levels n ts := by
  induction ts generalizing n with
  | nil => rfl
  | cons t ts ih =>
    have here : level n (plain t) = level n t := by cases t <;> rfl
    simp only [List.map_cons, levels, here, ih]

/-- The groups of a document that keeps the discipline are balanced. -/
theorem emittable_balanced (checked : Emittable ts) : levels 1 ts = some 1 := by
  obtain ⟨final, admitted, closed⟩ := Option.map_eq_some_iff.mp checked
  have nested := admitted_levels admitted
  rw [levels_plain, closed] at nested
  exact nested

theorem emittable_forward (c : Config Int) (checked : Emittable ts) : Forward c ts := by
  obtain ⟨final, admitted, _⟩ := Option.map_eq_some_iff.mp checked
  intro t member
  rw [← (plain_shape c t).columns]
  exact admitted_forward c admitted _ (List.mem_map_of_mem member)

theorem layout_plain (c : Config Int) (page : Page Int) (ts : List (Token Int)) :
    layout c page (ts.map plain) = layout c page ts := by
  apply layout_congr
  · simpa [List.forall₂_map_left_iff, List.forall₂_same] using fun t _ => plain_shape c t
  · simpa [List.forall₂_map_left_iff, List.forall₂_same] using fun t _ => plain_write t

/-- A document of admitted tokens heads for the page that exact sizes give, from beginning to end. -/
theorem print_heads (accepted : Printer.ofConfig c = .ok p) (checked : Emittable ts) :
    Heads [] (layout c.withDefaults (Page.ofConfig c.withDefaults) ts)
      (fun q => PrinterSteady 1 q ∧ q.idle = true) (Printer.print c (ts.map Call.emit)) := by
  obtain ⟨ready, scopes, config, blank⟩ := ofConfig_ready accepted
  obtain ⟨final, admitted, closed⟩ := Option.map_eq_some_iff.mp checked
  rw [← scopes] at admitted
  rw [Printer.print, accepted, ok_bind, ← layout_plain, ← blank]
  refine heads_bind (run_heads ready admitted) ?_
  rintro q ⟨later, same, _⟩
  refine heads_mono (finish_heads later (same ▸ closed)) ?_
  rintro last ⟨steady, idle, _⟩
  exact ⟨steady, idle⟩

/-- The page of a document is the one that exact sizes give. -/
theorem print_eq_layout (accepted : Printer.ofConfig c = .ok p) (checked : Emittable ts) :
    Printer.page <$> Printer.print c (ts.map Call.emit) =
      layout c.withDefaults (Page.ofConfig c.withDefaults) ts := by
  have heads := print_heads accepted checked
  cases printed : Printer.print c (ts.map Call.emit) with
  | error f =>
    rw [printed] at heads
    exact heads.symm
  | ok q =>
    rw [printed] at heads
    obtain ⟨⟨steady, idle⟩, same⟩ := heads
    rw [← same, outlook_idle steady idle]
    rfl

/-- A run that is answered has taken in tokens that the open groups admit. -/
theorem run_admitted (ready : PrinterReady p)
    (ran : p.run (ts.map Call.emit) = .ok q) : ts.foldlM accept p.scopes = some q.scopes ∧ PrinterReady q := by
  induction ts generalizing p with
  | nil =>
    cases ran
    exact ⟨rfl, ready⟩
  | cons t ts ih =>
    obtain ⟨next, first, rest⟩ := bind_ok ran
    cases admitted : accept p.scopes t with
    | none =>
      obtain ⟨b, refused⟩ := Discipline.emit_refused ready.inside admitted
      rw [show p.call (.emit t) = p.emit t from rfl, refused] at first
      cases first
    | some after =>
      rw [show p.call (.emit t) = p.emit t from rfl, emit_admitted ready.fresh admitted] at first
      obtain ⟨later, scopes⟩ := taken_ready ready (admits_of_accept admitted) first
      obtain ⟨others, last⟩ := ih later rest
      rw [scopes] at others
      exact ⟨by rw [List.foldlM_cons, admitted]; exact others, last⟩

/-- A document that is printed to its end keeps the discipline of emitting. -/
theorem print_emittable (printed : Printer.print c (ts.map Call.emit) = .ok q) :
    (∃ p, Printer.ofConfig c = .ok p) ∧ Emittable ts := by
  obtain ⟨p, accepted, rest⟩ := bind_ok printed
  obtain ⟨last, ran, finished⟩ := bind_ok rest
  obtain ⟨ready, scopes, _⟩ := ofConfig_ready accepted
  obtain ⟨admitted, later⟩ := run_admitted ready ran
  refine ⟨⟨p, accepted⟩, ?_⟩
  rw [Emittable, ← scopes, admitted, Option.map_some, finish_closed later finished]

/-- A render that ends gives the output of its printer. -/
theorem render_ok {text : Text} (rendered : render c ts = .ok text) :
    ∃ p, Printer.print c (ts.map Call.emit) = .ok p ∧ p.output = text := by
  rw [render, printCalls] at rendered
  cases printed : Printer.print c (ts.map Call.emit) with
  | error f =>
    rw [printed] at rendered
    cases rendered
  | ok p =>
    rw [printed] at rendered
    cases rendered
    exact ⟨p, rfl, rfl⟩

/-- A document that is printed to its end is laid out with exact sizes on its page. -/
theorem print_lays (printed : Printer.print c (ts.map Call.emit) = .ok q) :
    TokensLaid c.withDefaults (Page.ofConfig c.withDefaults) ts q.page := by
  obtain ⟨⟨p, accepted⟩, checked⟩ := print_emittable printed
  obtain ⟨final, admitted, _⟩ := Option.map_eq_some_iff.mp checked
  refine ⟨ofConfig_grounded _, emittable_forward _ checked, ⟨1, emittable_balanced checked⟩,
    admitted_present admitted, ?_⟩
  rw [← print_eq_layout accepted checked, printed]
  rfl

private theorem render_eq_layout (accepted : Printer.ofConfig c = .ok p) (checked : Emittable ts) :
    render c ts = reference c.withDefaults ts := by
  have pages := print_eq_layout accepted checked
  rw [render, printCalls, reference, ← pages]
  cases Printer.print c (ts.map Call.emit) <;> rfl

/-- Only a breach of the contract stops the layout of a document that keeps the discipline. -/
theorem reference_error {f : Fault} (checked : Emittable ts)
    (failed : reference c ts = .error f) : ∃ b, f = .contract b := by
  rw [reference] at failed
  cases laid : layout c (Page.ofConfig c) ts with
  | ok page =>
    rw [laid] at failed
    cases failed
  | error e =>
    rw [laid] at failed
    cases failed
    exact layout_error (ofConfig_grounded c) (emittable_forward c checked) (emittable_balanced checked) laid

/-- Rendering a document of admitted tokens under an accepted configuration gives the text of the
layout that knows all sizes beforehand, or stops with the same breach of the contract. The sizes
there are the widths of what each group start and each break covers. -/
theorem render_eq_reference (c : Config Int) (ts : List (Token Int))
    (accepted : ∃ p, Printer.ofConfig c = .ok p) (checked : Emittable ts) :
    render c ts = reference c.withDefaults ts ∧
      (∀ f, render c ts = .error f → ∃ b, f = .contract b) ∧
      ∀ before t after, ts = before ++ t :: after → opening t ≠ none →
        ∃ span, Covers t after span ∧
          exactSize c.withDefaults t after = columnsOf c.withDefaults (t :: span) := by
  obtain ⟨p, accepted⟩ := accepted
  have balanced := emittable_balanced checked
  have same := render_eq_layout accepted checked
  refine ⟨same, ?_, ?_⟩
  · intro f failed
    rw [same] at failed
    exact reference_error checked failed
  · rintro before t after rfl opens
    obtain ⟨span, covers⟩ := covers_some balanced opens
    exact ⟨span, covers, exactSize_of_covers covers⟩

theorem render_eq_reference_group :
    render (⟨10, 4, false, false⟩ : Config Int)
      [.groupStart ⟨.consistent, 2, false⟩, .text "aaaa", .lineBreak ⟨.space, 1, 0, []⟩, .text "bbbbb",
        .groupEnd, .text ";"] = .ok "aaaa\n  bbbbb;" := by
  rw [(render_eq_reference _ _ ⟨_, rfl⟩ (by decide)).1]
  rfl

end Galley.Layout.Rendering
