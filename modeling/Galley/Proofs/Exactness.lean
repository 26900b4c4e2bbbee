import Galley.Proofs.Bracketing
import Galley.Proofs.Room

/-! When words are enough. A printer that counts in words answers every call as one that counts exactly, as
long as the call's own numbers have words and there is room for the columns that its token adds. There is
for calls whose columns add up to no more than a word can count. -/
namespace Galley.Layout.Exactness
open RingQueue Extent PageWriting Pending Tracking
open Lookahead Emission Rendering Indentation Discipline Contract Bracketing Words
open Boundedness (held held_forward narrow_of_sheds)
open Safety (withText withBreak)

/-- The columns that tokens take and move. -/
def loads (c : Config Int) : List (Token Int) → Int
  | [] => 0
  | t :: ts => load c t + loads c ts

variable {c : Config Int} {p q : Printer Int} {bound : Int} {t : Token Int} {ts : List (Token Int)}

section Loads

theorem columns_le_load (c : Config Int) (t : Token Int) : columns c t ≤ load c t := by
  unfold load
  split <;> omega

theorem counted_le_load (counted : 0 ≤ columns c t) : 0 ≤ load c t :=
  Int.le_trans counted (columns_le_load c t)

theorem loads_append (c : Config Int) (ts rest : List (Token Int)) :
    loads c (ts ++ rest) = loads c ts + loads c rest := by
  induction ts with
  | nil => simp [loads]
  | cons t ts ih =>
    simp only [List.cons_append, loads, ih]
    omega

theorem cost_le_load (counted : 0 ≤ columns c t) : cost c t ≤ load c t := by
  cases t with
  | lineBreak b =>
    simp only [columns] at counted
    simp only [cost, load, columns]
    split <;> omega
  | groupStart | indent => simp only [cost, load, columns]; omega
  | text s => exact Int.le_of_eq (Int.add_zero _).symm
  | _ => exact Int.le_refl _

end Loads

section Scanning

variable {n : Nat} {size : Int}

theorem withText_words (p : Printer Int) (s : Text) : withText p.words s = (withText p s).words := by
  have grown := Int64.ofInt_add p.rightTotal (p.config.width s)
  have pushed := push_words p (.text s) (p.config.width s)
  have measured : p.words.config.width s = word (p.config.width s) := width_words p.config s
  simp only [Token.words] at pushed
  rw [withText, measured, pushed, show p.words.rightTotal = word p.rightTotal from rfl, ← grown]
  rfl

theorem withBreak_words (p : Printer Int) (b : Break Int) : withBreak p.words b.words = (withBreak p b).words := by
  have grown := Int64.ofInt_add p.rightTotal b.width
  have pushed := pushPending_words p (.lineBreak b)
  simp only [Token.words] at pushed
  rw [withBreak, breakWidth_words, pushed, show p.words.rightTotal = word p.rightTotal from rfl, ← grown]
  rfl

/-- A printer between two calls: what it holds back fits on a line, and is nothing if nothing is undecided. -/
structure PrinterRested (bound : Int) (p : Printer Int) : Prop extends PrinterRoomy bound p where
  slim : columnsOf p.config (held p) ≤ p.config.margin
  idle : p.idle = true ↔ held p = []

/-- A printer that may hold back another token: its totals count. -/
structure PrinterPoised (bound : Int) (p : Printer Int) : Prop extends PrinterRoomy bound p where
  slim : columnsOf p.config (held p) ≤ p.config.margin
  counts : held p ≠ [] ∨ p.leftTotal = 1

theorem poised_busy (rested : PrinterRested bound p) (busy : ¬ p.idle = true) : PrinterPoised bound p :=
  ⟨rested.toPrinterRoomy, rested.slim, .inl (mt rested.idle.mpr busy)⟩

theorem poised_restart (rested : PrinterRested bound p) (idle : p.idle = true) : PrinterPoised bound p.restart := by
  have empty : held p.restart = [] := rested.idle.mp idle
  have within := resized_within (p := p) (q := p.restart) ⟨rfl, rfl, rfl⟩ rested.toCountsWithin (.inr rfl)
  refine ⟨⟨within, rested.config, rested.margin, ?_, rested.entries, rested.ended⟩, rested.slim, .inr rfl⟩
  rw [empty]
  rfl

/-- A token joins what is held back. -/
theorem push_roomy (poised : PrinterPoised bound p) (fair : TokenFair bound p.config t)
    (sized : EntrySized p.config ⟨t, size⟩)
    (starts : Printer.isGroupStart t = true → size < 0) (config : q.config = p.config) (page : q.page = p.page)
    (buf : q.buf = p.buf.pushBack ⟨t, size⟩) (left : q.leftTotal = p.leftTotal)
    (right : q.rightTotal = p.rightTotal + columns p.config t) : PrinterRoomy (bound + cost p.config t) q := by
  obtain ⟨spent, counts, paid⟩ := poised.spent
  have counted : 0 ≤ columns p.config t := sized.counted
  have slim := poised.slim
  have totals := poised.totals
  have ahead := fair.ahead
  have held_nonneg := columnsOf_nonneg (roomy_forward poised.toPrinterRoomy)
  have tokens : held q = held p ++ [t] := by simp [held, buf]
  have columns_more : columnsOf p.config (held q) = columnsOf p.config (held p) + columns p.config t := by
    rw [tokens, columnsOf_append, columnsOf, columnsOf, Int.add_zero]
  refine ⟨⟨⟨spent, ⟨counts.least, page ▸ counts.page, fun _ => ?_⟩, ?_⟩, ?_, ?_, ?_, ?_⟩,
    by rw [config, page]; exact poised.config, config ▸ poised.margin, ?_, fun e member => ?_, ?_⟩
  · have least := counts.least
    rcases poised.counts with filled | fresh
    · have before := counts.left filled
      omega
    · omega
  · rw [config, tokens, costs_append]
    simp only [costs]
    omega
  · rw [config, tokens, List.dropLast_concat]
    exact slim
  · simp only [most] at ahead
    rw [config, columns_more]
    constructor <;> omega
  · rw [tokens]
    refine List.forall_mem_append.mpr ⟨poised.moved, fun u member => ?_⟩
    cases List.mem_singleton.mp member
    exact fair.moved
  · rw [page, tokens]
    exact contained_append poised.contained [t]
  · rw [config, columns_more, left, right]
    omega
  · rw [buf, toList_pushBack, List.mem_append, List.mem_singleton] at member
    rw [config]
    rcases member with member | rfl
    · exact poised.entries e member
    · exact sized
  · -- The new entry is the last, and not decided if it starts a group.
    rw [config, buf, toList_pushBack]
    intro before e after parts start decided fits
    rcases List.eq_nil_or_concat after with rfl | ⟨inner, last, rfl⟩
    · obtain ⟨_, same⟩ := List.append_inj' parts rfl
      cases same
      exact absurd (starts start) (Int.not_lt.mpr decided)
    · rw [List.concat_eq_append, ← List.cons_append, ← List.append_assoc] at parts
      obtain ⟨earlier, _⟩ := List.append_inj' parts rfl
      rw [List.concat_eq_append, List.map_append]
      exact closes_append (poised.ended before e inner earlier start decided fits) _

/-- A token without an extent goes straight to the page. -/
theorem writeNow_seen (rested : PrinterRested bound p) (idle : p.idle = true) (fair : TokenFair bound p.config t)
    (sized : EntrySized p.config ⟨t, size⟩) (plain : opening t = none) :
    SeenInWords (bound + cost p.config t) (p.page.write t size >>= fun page => .ok { p with page := page })
      (p.words.page.write t.words (word size) >>= fun page => .ok { p.words with page := page }) := by
  obtain ⟨spent, counts, paid⟩ := rested.spent
  have empty := rested.idle.mp idle
  have counted : 0 ≤ columns p.config t := sized.counted
  have least := moves_le_cost counted
  have more := cost_nonneg counted
  have room := fair.room
  rw [empty] at paid
  simp only [costs] at paid
  have written : p.page.words.write t.words (word size) = Page.words <$> p.page.write t size :=
    write_words counts.page (by omega) fair.moved sized.fits
  refine seen_after written fun page ran => seen_ok ?_
  have wrote := narrow_wrote counts.page (by rw [rested.config]; exact counted)
    (by rw [rested.config]; exact sized.plain) (by rintro b rfl; cases plain) (write_cases ran)
  rw [rested.config] at wrote
  have contained : GroupsContained page [] := contained_wrote (contained_append (empty ▸ rested.contained) [t])
    (fun starts _ => by rw [opening_of_start starts] at plain; cases plain) (write_cases ran)
  have first := counts.least
  have spends : ColumnsSpent (spent + cost p.config t) { p with page := page } :=
    ⟨by omega, wrote, fun filled => absurd empty filled⟩
  refine ⟨⟨⟨_, spends, ?_⟩, rested.before, rested.ahead, rested.moved, ?_⟩,
    (Safety.write_keeps ran).trans rested.config, rested.margin, rested.totals, rested.entries, rested.ended⟩
  · show _ + costs p.config (held p) ≤ _
    rw [empty, costs]
    omega
  · show GroupsContained page (held p)
    rw [empty]
    exact contained

theorem scanText_seen (s : Text) (rested : PrinterRested bound p) (fair : TokenFair bound p.config (.text s)) :
    SeenInWords (bound + cost p.config (.text s)) (p.scanText s) (p.words.scanText s) := by
  have sized : EntrySized p.config ⟨.text s, p.config.width s⟩ :=
    ⟨fair.fits, width_nonneg p.config s, fun _ => rfl, fun _ => .inl (Int.le_refl _)⟩
  refine ite_related Iff.rfl (fun idle => ?_) fun busy => ?_
  · rw [show p.words.config.width s = word (p.config.width s) from width_words p.config s]
    exact writeNow_seen rested idle fair sized rfl
  · show SeenInWords _ _ (withText p.words s).checkStream
    rw [withText_words]
    exact checkStream_seen (push_roomy (poised_busy rested busy) fair sized Bool.noConfusion rfl rfl rfl rfl rfl)
      fair.room

theorem scanIndent_seen (delta : Int) (rested : PrinterRested bound p)
    (fair : TokenFair bound p.config (.indent delta)) :
    SeenInWords (bound + cost p.config (.indent delta)) (p.scanIndent delta) (p.words.scanIndent (word delta)) := by
  have sized : EntrySized p.config ⟨.indent delta, 0⟩ :=
    ⟨fits_zero, Int.le_refl 0, fun _ => rfl, fun _ => .inl (Int.le_refl 0)⟩
  refine ite_related Iff.rfl (fun idle => writeNow_seen rested idle fair sized rfl) fun busy => ?_
  have pushed : p.words.push ⟨.indent (word delta), 0⟩ = (p.push ⟨.indent delta, 0⟩).words :=
    push_words p (.indent delta) 0
  rw [pushed]
  exact seen_ok (push_roomy (poised_busy rested busy) fair sized Bool.noConfusion rfl rfl rfl rfl
    (Int.add_zero _).symm)

/-- The total of what fits on a line has a word. -/
theorem poised_total (poised : PrinterPoised bound p) : 1 ≤ p.rightTotal ∧ p.rightTotal ≤ bound := by
  obtain ⟨spent, counts, paid⟩ := poised.spent
  have forward := roomy_forward poised.toPrinterRoomy
  have covered := columnsOf_le_costs forward poised.slim
  have ahead := columnsOf_nonneg forward
  have totals := poised.totals
  have least := counts.least
  rcases poised.counts with filled | fresh
  · have before := counts.left filled
    omega
  · omega

/-- A token with an extent joins what is held back, to be decided later. -/
theorem await_roomy {r : Reach} (opens : opening t = some r) (poised : PrinterPoised bound p)
    (fair : TokenFair bound p.config t) (counted : 0 ≤ columns p.config t) :
    PrinterRoomy (bound + cost p.config t)
      { p.pushPending t with rightTotal := p.rightTotal + columns p.config t } := by
  have more := cost_nonneg counted
  have room := fair.room
  obtain ⟨least, upper⟩ := poised_total poised
  have sized : EntrySized p.config ⟨t, -p.rightTotal⟩ := by
    refine ⟨fits_within (show bound ≤ most by omega) ?_ ?_, counted, fun plain => ?_, fun decided => ?_⟩
    · dsimp only
      omega
    · dsimp only
      omega
    · simp [opens] at plain
    · dsimp only at decided
      omega
  exact push_roomy poised fair sized (fun _ => by omega) rfl rfl rfl rfl rfl

theorem scanStart_seen (g : Group Int) (rested : PrinterRested bound p)
    (fair : TokenFair bound p.config (.groupStart g)) :
    SeenInWords (bound + cost p.config (.groupStart g)) (.ok (p.scanStart g)) (.ok (p.words.scanStart g.words)) := by
  rw [scanStart_words]
  have starts {q : Printer Int} (poised : PrinterPoised bound q) (fair : TokenFair bound q.config (.groupStart g)) :
      PrinterRoomy (bound + cost q.config (.groupStart g)) (q.pushPending (.groupStart g)) := by
    have awaited := await_roomy (t := .groupStart g) rfl poised fair (Int.le_refl 0)
    simp only [columns, Int.add_zero] at awaited
    exact awaited
  refine seen_ok ?_
  unfold Printer.scanStart
  split
  · rename_i idle
    exact starts (poised_restart rested idle) fair
  · rename_i busy
    exact starts (poised_busy rested busy) fair

/-- Which positions are undecided in which groups has no part in the columns that are counted. -/
theorem roomy_aside (roomy : PrinterRoomy bound p) (scan : Ring Int) (closed : List Int) (scopes : List (List Int))
    (stats : Stats) (done : Bool) :
    PrinterRoomy bound { p with scan := scan, closed := closed, scopes := scopes, stats := stats, done := done } := by
  obtain ⟨spent, counts, paid⟩ := roomy.spent
  exact ⟨⟨⟨spent, ⟨counts.least, counts.page, counts.left⟩, paid⟩, roomy.before, roomy.ahead, roomy.moved,
    roomy.contained⟩, roomy.config, roomy.margin, roomy.totals, roomy.entries, roomy.ended⟩

/-- The top of the pending entries is closed in words as it is closed. -/
theorem closeTop_words (p : Printer Int) {test : Token Int → Bool} {also : Token Int64 → Bool}
    (blind : ∀ t : Token Int, also t.words = test t) : closeTop p.words also = Printer.words <$> closeTop p test := by
  refine bind_seen ((pendingIs_words p blind).trans (same_seen _)) fun top _ => ?_
  refine ite_seen Iff.rfl (fun _ => ?_) fun _ => rfl
  exact bind_seen (same_seen (queue p.scan.popBack)) fun last _ => rfl

theorem closeTop_poised (poised : PrinterPoised bound p) {test : Token Int → Bool} (ran : closeTop p test = .ok q) :
    PrinterPoised bound q := by
  obtain ⟨top, _, ran⟩ := bind_ok ran
  split at ran
  · obtain ⟨last, _, same⟩ := bind_ok ran
    cases same
    exact ⟨roomy_aside poised.toPrinterRoomy .., poised.slim, poised.counts⟩
  · cases ran
    exact poised

theorem scanEnd_seen (rested : PrinterRested bound p) (room : bound ≤ most) :
    SeenInWords bound p.scanEnd p.words.scanEnd := by
  have sized (p : Printer Int) : EntrySized p.config ⟨.groupEnd, 0⟩ :=
    ⟨fits_zero, Int.le_refl 0, fun _ => rfl, fun _ => .inl (Int.le_refl 0)⟩
  have free (c : Config Int) : bound + cost c .groupEnd = bound := Int.add_zero bound
  have fair {p : Printer Int} (roomy : PrinterRoomy bound p) : TokenFair bound p.config .groupEnd := by
    refine ⟨by rw [free]; exact room, fits_zero, fits_zero, ?_⟩
    exact Int.le_trans (Int.le_of_lt ((Int.add_zero p.config.margin).symm ▸ roomy.margin)) (by decide)
  by_cases idle : p.idle = true
  · have written := writeNow_seen rested idle (fair rested.toPrinterRoomy) (sized p) rfl
    rw [free] at written
    exact ite_related Iff.rfl (fun _ => written) fun busy => absurd idle busy
  · have busy : p.idle = false := Bool.not_eq_true _ ▸ idle
    rw [scanEnd_eq p busy, scanEnd_eq p.words busy]
    refine seen_after (closeTop_words p isBreak_words) fun q last => ?_
    refine seen_after (closeTop_words q isGroupStart_words) fun r own => ?_
    have poised := closeTop_poised (closeTop_poised (poised_busy rested idle) last) own
    have grown := push_roomy (q := r.push ⟨.groupEnd, 0⟩) poised (fair poised.toPrinterRoomy) (sized r)
      Bool.noConfusion rfl rfl rfl rfl (Int.add_zero _).symm
    rw [free] at grown
    rw [show r.words.push ⟨.groupEnd, 0⟩ = (r.push ⟨.groupEnd, 0⟩).words from push_words r .groupEnd 0]
    exact advance_seen grown room

theorem writeClosed_poised {v : View} (tracks : Tracks (fun _ => False) v p) (waits : HeadWaits v p)
    (within : CountsWithin bound p) (room : bound ≤ most) (slim : Boundedness.BufferNarrow p)
    (written : p.writeClosed = .ok q) {r : Printer Int} (resolved : q.resolveLast = .ok r) :
    PrinterPoised bound r ∧ r.config = p.config := by
  have closed := (writeClosed_seen tracks within room).roomy q written
  have sheds := writeClosed_sheds tracks written
  have heads := writeClosed_heads (b := ⟨.zero, 0, 0, []⟩) [] tracks waits
  rw [written] at heads
  obtain ⟨⟨w, tracked, waiting, cleared, _⟩, _⟩ := heads
  -- Totals may start anew here, so the printer's numbers are bounded again from what it tracks.
  have heads := resolveLast_heads (b := ⟨.zero, 0, 0, []⟩) [] tracked waiting cleared
  rw [resolved] at heads
  obtain ⟨⟨x, settled, counts, _⟩, _⟩ := heads
  obtain ⟨resized, left⟩ := resolveLast_resized resolved
  have within := resized_within resized closed.toCountsWithin left
  have config : r.config = p.config := resized.config.trans sheds.config
  refine ⟨⟨tracks_roomy settled (fun n stop => by cases stop) within room, ?_, ?_⟩, config⟩
  · have narrow := narrow_of_sheds (held_forward tracks) slim sheds
    rw [resized.config, resized.held]
    exact narrow
  · refine counts.imp_left fun filled => ?_
    rw [held, tracks_tokens settled, List.drop_eq_getElem_cons filled]
    exact List.cons_ne_nil _ _

theorem scanBreak_seen {b : Break Int} (steady : PrinterSteady n p) (within : CountsWithin bound p)
    (slim : Boundedness.BufferNarrow p) (counted : 0 ≤ b.width) (fair : TokenFair bound p.config (.lineBreak b)) :
    SeenInWords (bound + cost p.config (.lineBreak b)) (p.scanBreak b) (p.words.scanBreak b.words) := by
  obtain ⟨v, tracks, waits, rfl⟩ := steady
  have more : 0 ≤ cost p.config (.lineBreak b) := cost_nonneg counted
  have room := fair.room
  have least : bound ≤ most := by omega
  refine seen_bind (writeClosed_seen tracks within least) fun q written closed => ?_
  refine seen_after (resolveLast_words q) fun r resolved => ?_
  obtain ⟨poised, config⟩ := writeClosed_poised tracks waits within least slim written resolved
  rw [← config] at fair room ⊢
  have awaited := await_roomy (t := .lineBreak b) rfl poised fair counted
  show SeenInWords _ ((withBreak r b).checkStream >>= _) ((withBreak r.words b.words).checkStream >>= _)
  rw [withBreak_words]
  exact seen_bind (checkStream_seen awaited room) fun s _ later => advance_seen later room

end Scanning

section Calls

variable {n : Nat} {k : Call Int} {calls : List (Call Int)}

theorem steady_rested (steady : PrinterSteady n p) (within : CountsWithin bound p) (slim : Boundedness.BufferNarrow p)
    (room : bound ≤ most) : PrinterRested bound p := by
  obtain ⟨v, tracks, waits, _⟩ := steady
  have idle := PrinterState.empty_iff_idle tracks waits
  refine ⟨tracks_roomy tracks (by simp) within room, slim, ?_⟩
  rw [← idle, held, List.map_eq_nil_iff]

theorem withScopes_rested (rested : PrinterRested bound p) (scopes : List (List Int)) :
    PrinterRested bound (withScopes p scopes) :=
  ⟨roomy_aside rested.toPrinterRoomy .., rested.slim, rested.idle⟩

/-- A call is counted first, and refused once the document has ended. -/
private theorem count_seen {f : Printer Int → Except Fault (Printer Int)}
    {g : Printer Int64 → Except Fault (Printer Int64)}
    (next : SeenInWords bound (f (withScopes p p.scopes)) (g (withScopes p p.scopes).words)) :
    SeenInWords bound (p.count >>= f) (p.words.count >>= g) := by
  rw [count_words]
  cases ended : p.done with
  | true =>
    rw [show p.count = breach .finished by simp [Printer.count, ended]]
    exact seen_fails
  | false =>
    rw [count_fresh ended]
    exact next

theorem break_seen {b : Break Int} (steady : PrinterSteady n p) (rested : PrinterRested bound p) (counted : 0 ≤ b.width)
    (fair : TokenFair bound p.config (.lineBreak b)) :
    SeenInWords (bound + cost p.config (.lineBreak b)) (do (← p.count).scanBreak b)
      (do (← p.words.count).scanBreak b.words) :=
  count_seen (scanBreak_seen (steady_withScopes steady p.scopes) (withScopes_rested rested p.scopes).toCountsWithin
    rested.slim counted fair)

theorem openGroup_seen (g : Group Int) (rested : PrinterRested bound p)
    (fair : TokenFair bound p.config (.groupStart g)) :
    SeenInWords (bound + cost p.config (.groupStart g)) (p.openGroup g) (p.words.openGroup g.words) := by
  have opened := scanStart_seen g (withScopes_rested rested ([] :: p.scopes)) fair
  obtain ⟨breaks, offset, align⟩ := g
  refine count_seen ?_
  cases breaks with
  | consistent | inconsistent => exact opened
  | unknown code => exact seen_fails

theorem closeGroup_seen (rested : PrinterRested bound p) (room : bound ≤ most) :
    SeenInWords bound p.closeGroup p.words.closeGroup := by
  refine count_seen ?_
  match scopes : p.scopes with
  | [] =>
    simp only [withScopes, Printer.words, List.map_nil]
    exact seen_fails
  | [scope] =>
    simp only [withScopes, Printer.words, List.map_cons, List.map_nil]
    exact seen_fails
  | scope :: outer :: rest =>
    have ended := scanEnd_seen (withScopes_rested rested (outer :: rest)) room
    simp only [withScopes, Printer.words, List.map_cons] at ended ⊢
    exact ended

theorem pushIndent_seen {delta : Int} (rested : PrinterRested bound p)
    (fair : TokenFair bound p.config (.indent delta)) :
    SeenInWords (bound + cost p.config (.indent delta)) (p.pushIndent delta) (p.words.pushIndent (word delta)) := by
  have fits : Fits delta := fair.moved
  refine count_seen (ite_related (word_neg fits) (fun _ => ?_) fun _ => ?_)
  · rw [columns_toInt fits]
    exact seen_fails
  · cases scopes : p.scopes with
    | nil =>
      simp only [withScopes, Printer.words, List.map_nil]
      exact seen_fails
    | cons scope rest =>
      have indented := scanIndent_seen delta (withScopes_rested rested ((delta :: scope) :: rest)) fair
      simp only [withScopes, Printer.words, List.map_cons] at indented ⊢
      exact indented

theorem popIndent_seen (rested : PrinterRested bound p)
    (fair : TokenFair bound p.config (.indent (-(standingOf p).active.getD 0))) :
    SeenInWords (bound + cost p.config (.indent (-(standingOf p).active.getD 0))) p.popIndent p.words.popIndent := by
  refine count_seen ?_
  match scopes : p.scopes with
  | [] =>
    simp only [withScopes, Printer.words, List.map_nil]
    exact seen_fails
  | [] :: rest =>
    simp only [withScopes, Printer.words, List.map_cons, List.map_nil]
    exact seen_fails
  | (delta :: scope) :: rest =>
    have active : (standingOf p).active.getD 0 = delta := by simp [Standing.active, standingOf, scopes]
    rw [active] at fair ⊢
    have back : -word delta = word (-delta) := (Int64.ofInt_neg _).symm
    have indented := scanIndent_seen (-delta) (withScopes_rested rested (scope :: rest)) fair
    simp only [withScopes, Printer.words, List.map_cons, back] at indented ⊢
    exact indented

/-- The last indentation is found in words where it is found. -/
private theorem active_words {delta : Int} (deltas : ∀ d ∈ (standingOf p).active, 0 ≤ d ∧ d ≤ most)
    (fits : Fits delta) (less : delta < 0) :
    (p.words.scopes.head?.bind List.head?) = some (-word delta) ↔
      (p.scopes.head?.bind List.head?) = some (-delta) := by
  have seen : (p.words.scopes.head?.bind List.head?) = (standingOf p).active.map word := by
    simp only [Printer.words, Standing.active, standingOf, List.head?_map]
    cases p.scopes.head? with
    | none => rfl
    | some scope => exact List.head?_map
  rw [seen, show (p.scopes.head?.bind List.head?) = (standingOf p).active from rfl]
  cases active : (standingOf p).active with
  | none => simp
  | some d =>
    obtain ⟨low, high⟩ := deltas d active
    have back : -word delta = word (-delta) := (Int64.ofInt_neg _).symm
    simp only [Option.map_some, Option.some.injEq, back, most] at high ⊢
    refine ⟨fun same => ?_, fun same => by rw [same]⟩
    -- The least number has no negation of its own, but then its word is negative and the other is not.
    have whole : Fits d := ⟨by omega, by omega⟩
    by_cases least : delta = -0x8000000000000000
    · subst least
      have negative : (word d).toInt = -0x8000000000000000 := by
        rw [same]
        decide
      rw [word_toInt whole] at negative
      omega
    · obtain ⟨lower, _⟩ := fits
      exact (word_inj whole ⟨by omega, by omega⟩).mp same

/-- With no group open, no extent that ends here is that of a group. -/
private theorem tracks_shut {stops : Reach → Prop} {v : View} (tracks : Tracks stops v p) (top : v.depth = 1) :
    Tracks (fun r => ∀ n, r ≠ .group n) v p := by
  obtain ⟨above, indent, frames⟩ := tracks.page.bottom
  refine { tracks with shape := { tracks.shape with settled := ?_ } }
  intro i low _ _ r here n same
  have deep := depth_of_group low (same ▸ here) (by simp [frames]) tracks.depth
  omega

theorem finish_seen (steady : PrinterSteady p.scopes.length p) (inside : p.scopes ≠ []) (rested : PrinterRested bound p)
    (room : bound ≤ most) : SeenInWords bound p.finish p.words.finish := by
  have least := List.length_pos_iff.mpr inside
  obtain ⟨v, tracks, _, depth⟩ := steady_withScopes steady p.scopes
  have aside := (withScopes_rested rested p.scopes).toCountsWithin
  have count : (withScopes p p.scopes).words.scopes.length = p.scopes.length := by
    simp only [withScopes, Printer.words, List.length_map]
  refine count_seen ?_
  simp only [count]
  refine ite_related Iff.rfl (fun _ => seen_fails) fun closed => ?_
  have closed : p.scopes.length = 1 := by
    simp only [withScopes] at closed
    omega
  refine seen_bind (resolveClosed_seen tracks aside room) fun q resolved roomy => ?_
  refine seen_after (resolveScan_words q q.scan.length) fun r scanned => ?_
  obtain ⟨buf, run, _, tracked⟩ := resolveClosed_tracks tracks
  rw [run] at resolved
  cases resolved
  obtain ⟨last, ran, settled, _⟩ :=
    resolveScan_tracks (tracks_mono tracked fun _ _ => trivial) (depth.trans closed)
  rw [ran] at scanned
  cases scanned
  have shut := tracks_shut settled (depth.trans closed)
  have written := tracks_roomy shut (fun n stop => stop n rfl) (resolveScan_within _ ran roomy.toCountsWithin) room
  exact seen_bind (advance_seen written room) fun u _ later => seen_ok (roomy_aside later ..)

theorem emit_seen (steady : PrinterSteady n p) (rested : PrinterRested bound p) (room : bound ≤ most)
    (deltas : ∀ d ∈ (standingOf p).active, 0 ≤ d ∧ d ≤ most) (fair : TokenFair bound p.config (plain t)) :
    SeenInWords (bound + cost p.config (plain t)) (p.emit t) (p.words.emit t.words) := by
  cases t with
  | text s => exact count_seen (scanText_seen s (withScopes_rested rested p.scopes) fair)
  | lineBreak b =>
    by_cases hard : b.kind = .hard
    · have counted : (0 : Int) ≤ Break.width { b with blank := 0 } := by
        simp [Break.width, hard, infiniteWidth, Columns.ofNat]
      simp only [plain, hard, ↓reduceIte] at fair ⊢
      have broken := break_seen steady rested counted (by simpa only [hard] using fair)
      simp only [Printer.emit, Token.words, Break.words, hard, ↓reduceIte, word_zero] at broken ⊢
      exact broken
    · have width : b.width = b.blank := by simp [Break.width, hard]
      simp only [plain, hard, ↓reduceIte] at fair ⊢
      have fits : Fits b.blank := by
        have fits := fair.fits
        simp only [columns, width] at fits
        exact fits
      have soft : ¬ b.words.kind = .hard := hard
      simp only [Printer.emit, Token.words, hard, soft, ↓reduceIte]
      refine count_seen (ite_related (word_neg fits) (fun _ => ?_) fun counted => ?_)
      · rw [show b.words.blank = word b.blank from rfl, columns_toInt fits]
        exact seen_fails
      · exact scanBreak_seen (steady_withScopes steady p.scopes) (withScopes_rested rested p.scopes).toCountsWithin
          rested.slim (by omega) fair
  | groupStart g => exact openGroup_seen g rested fair
  | groupEnd =>
    have ended := closeGroup_seen rested room
    rwa [← Int.add_zero bound] at ended
  | indent delta =>
    have fits : Fits delta := fair.moved
    have sign : 0 ≤ word delta ↔ 0 ≤ delta := by
      rw [← word_zero]
      exact word_le fits_zero fits
    refine ite_related sign (fun _ => pushIndent_seen rested fair) fun less => ?_
    refine ite_related (active_words deltas fits (Int.not_le.mp less)) (fun last => ?_) fun _ => ?_
    · have active : (standingOf p).active = some (-delta) := last
      have back : -(standingOf p).active.getD 0 = delta := by
        rw [active, Option.getD_some, Int.neg_neg]
      have popped := popIndent_seen rested (by rw [back]; exact fair)
      rwa [back] at popped
    · rw [columns_toInt fits]
      exact seen_fails
  | missing => exact seen_fails

/-- Any call is answered in words as it is answered, if the numbers of its token have words. -/
theorem call_seen (steady : PrinterSteady p.scopes.length p) (inside : p.scopes ≠ []) (rested : PrinterRested bound p)
    (room : bound ≤ most)
    (deltas : ∀ t, k = .emit t → ∀ d ∈ (standingOf p).active, 0 ≤ d ∧ d ≤ most)
    (fair : TokenFair bound p.config (tokenAt (standingOf p) k)) :
    SeenInWords (bound + cost p.config (tokenAt (standingOf p) k)) (p.call k) (p.words.call k.words) := by
  cases k with
  | text s => exact count_seen (scanText_seen s (withScopes_rested rested p.scopes) fair)
  | lineBreak width offset =>
    have whole : columns p.config (tokenAt (standingOf p) (.lineBreak width offset)) = width := by
      by_cases none : width = 0 <;> simp [tokenAt, columns, Break.width, none]
    have fits : Fits width := whole ▸ fair.fits
    have kind : (if word width = 0 then BreakKind.zero else .space) =
        if width = 0 then BreakKind.zero else .space := if_congr (word_inj fits fits_zero) rfl rfl
    refine count_seen (ite_related (word_neg fits) (fun _ => ?_) fun counted => ?_)
    · rw [columns_toInt fits]
      exact seen_fails
    · have wide : 0 ≤ columns p.config (tokenAt (standingOf p) (.lineBreak width offset)) := by
        rw [whole]
        exact Int.not_lt.mp counted
      rw [kind]
      exact scanBreak_seen (steady_withScopes steady p.scopes) (withScopes_rested rested p.scopes).toCountsWithin
        rested.slim wide fair
  | hardBreak | trailingComma => exact break_seen steady rested (by decide) fair
  | groupStart breaks offset => exact openGroup_seen ⟨breaks, offset, false⟩ rested fair
  | alignStart breaks => exact openGroup_seen ⟨breaks, 0, true⟩ rested fair
  | groupEnd =>
    have ended := closeGroup_seen rested room
    rwa [← Int.add_zero bound] at ended
  | indent delta => exact pushIndent_seen rested fair
  | outdent => exact popIndent_seen rested fair
  | emit t => exact emit_seen steady rested room (deltas t rfl) fair
  | eof =>
    have ended := finish_seen steady inside rested room
    rwa [← Int.add_zero bound] at ended

/-- Balanced calls hand over no raw tokens, and do not end the document. -/
theorem balanced_direct (balanced : Balanced calls) : ∀ k ∈ calls, (∀ t, k ≠ .emit t) ∧ k ≠ .eof := by
  have one (k : Call Int) (direct : ∀ t, k ≠ .emit t) (more : k ≠ .eof) :
      ∀ j ∈ [k], (∀ t, j ≠ .emit t) ∧ j ≠ .eof := by
    intro j member
    cases List.mem_singleton.mp member
    exact ⟨direct, more⟩
  induction balanced with
  | nil => simp
  | append _ _ first second => exact List.forall_mem_append.mpr ⟨first, second⟩
  | group starts _ ih =>
    refine List.forall_mem_cons.mpr ⟨?_, List.forall_mem_append.mpr ⟨ih, one _ (by simp) (by simp)⟩⟩
    cases starts <;> simp
  | indented _ _ ih =>
    exact List.forall_mem_cons.mpr ⟨by simp, List.forall_mem_append.mpr ⟨ih, one _ (by simp) (by simp)⟩⟩
  | _ => exact one _ (by simp) (by simp)

end Calls

section Runs

variable {calls : List (Call Int)} {start : Printer Int}

/-- The columns that calls take and move, from the start of a document. -/
def loadOf (c : Config Int) (calls : List (Call Int)) : Int :=
  c.withDefaults.margin + loads c.withDefaults (transcript .initial calls)

/-- Calls that keep the discipline, without raw tokens, whose columns add up to no more than a word can
count. -/
structure Countable (c : Config Int) (calls : List (Call Int)) : Prop where
  proper : Disciplined calls
  direct : ∀ k ∈ calls, (∀ t, k ≠ .emit t) ∧ k ≠ .eof
  room : loadOf c calls ≤ limit

theorem withDefaults_words (margin : Fits c.margin) (unit : Fits c.unit) :
    c.words.withDefaults = c.withDefaults.words := by
  have first : c.words.margin = 0 ↔ c.margin = 0 := word_inj margin fits_zero
  have second : c.words.unit = 0 ↔ c.unit = 0 := word_inj unit fits_zero
  simp only [Config.withDefaults, first, second]
  simp only [Config.words, Config.mk.injEq, and_true]
  exact ⟨by split <;> rfl, by split <;> rfl⟩

theorem withDefaults_fits (margin : Fits c.margin) (unit : Fits c.unit) :
    Fits c.withDefaults.margin ∧ Fits c.withDefaults.unit := by
  have standard : Fits (80 : Int) ∧ Fits (4 : Int) := by
    constructor <;> constructor <;> decide
  simp only [Config.withDefaults]
  constructor
  · split
    · exact standard.1
    · exact margin
  · split
    · exact standard.2
    · exact unit

theorem ofConfig_words (margin : Fits c.margin) (unit : Fits c.unit) :
    Printer.ofConfig c.words = Printer.words <$> Printer.ofConfig c := by
  obtain ⟨wide, level⟩ := withDefaults_fits margin unit
  have most : Fits (maxMargin : Int) := by
    constructor <;> decide
  have bound : (maxMargin : Int64) = word maxMargin := Int64.ofInt_eq_ofNat.symm
  have outside : (word c.withDefaults.margin < 0 ∨ maxMargin < word c.withDefaults.margin ∨
      word c.withDefaults.unit < 0) ↔
      (c.withDefaults.margin < 0 ∨ maxMargin < c.withDefaults.margin ∨ c.withDefaults.unit < 0) := by
    rw [bound, word_neg wide, word_lt most wide, word_neg level]
  simp only [Printer.ofConfig, withDefaults_words margin unit]
  refine ite_seen outside (fun _ => ?_) fun _ => ?_
  · have first : Columns.toInt c.withDefaults.words.margin = Columns.toInt c.withDefaults.margin :=
      columns_toInt wide
    have second : Columns.toInt c.withDefaults.words.unit = Columns.toInt c.withDefaults.unit :=
      columns_toInt level
    rw [first, second]
    rfl
  · refine congrArg Except.ok ?_
    simp only [Printer.words, Ring.map, Ring.empty, Page.ofConfig, Page.words, Sink.ofConfig, Sink.words,
      Frame.words, List.map_nil, List.map_cons, Array.map_empty]
    rfl

/-- The first page is as wide as its margin. -/
theorem ofConfig_within (accepted : Printer.ofConfig c = .ok p) (margin : Fits c.margin) (unit : Fits c.unit) :
    CountsWithin c.withDefaults.margin p := by
  obtain ⟨_, level⟩ := withDefaults_fits margin unit
  have wide : c.withDefaults.margin ≠ 0 := by
    simp only [Config.withDefaults]
    split
    · decide
    · assumption
  simp only [Printer.ofConfig] at accepted
  split at accepted
  · cases accepted
  · rename_i fine
    cases accepted
    have least : 1 ≤ c.withDefaults.margin := by omega
    have wide : 0 ≤ c.withDefaults.margin := by omega
    have owed : (0 : Int) ≤ 0 ∧ 0 ≤ c.withDefaults.margin := ⟨Int.le_refl 0, wide⟩
    have page : PageNarrow c.withDefaults.margin (Page.ofConfig c.withDefaults) := by
      refine ⟨level, ⟨wide, Int.le_refl _⟩, ⟨?_, Int.le_refl _⟩, owed, owed, ?_⟩
      · exact Int.le_trans (Int.le_of_eq (Int.sub_self _)) wide
      · intro f member
        cases List.mem_singleton.mp member
        exact owed
    refine ⟨⟨_, ⟨least, page, fun filled => absurd rfl filled⟩, Int.le_of_eq (Int.add_zero _)⟩, wide, fits_zero,
      fun t member => absurd member List.not_mem_nil, fun n f found fits => ?_⟩
    cases List.mem_singleton.mp (List.mem_of_getElem? found)
    cases fits

theorem tokenAt_counted {s : Standing} {k : Call Int} (direct : ∀ t, k ≠ .emit t) (proper : s.offends k = false) :
    0 ≤ columns c (tokenAt s k) := by
  cases k with
  | text t => exact width_nonneg c t
  | lineBreak width offset =>
    obtain ⟨_, counted⟩ := Bool.or_eq_false_iff.mp proper
    have counted : ¬ width < 0 := of_decide_eq_false counted
    by_cases none : width = 0 <;> simp [tokenAt, columns, Break.width, none]
    omega
  | hardBreak => exact (by decide : (0 : Int) ≤ infiniteWidth)
  | emit t => exact absurd rfl (direct t)
  | _ => exact Int.le_refl 0

theorem loadOf_concat (c : Config Int) (calls : List (Call Int)) (k : Call Int) :
    loadOf c (calls ++ [k]) = loadOf c calls + load c.withDefaults (tokenAt (standing calls) k) := by
  simp only [loadOf, transcript_append, loads_append, transcript, loads, standing]
  omega

theorem countable_concat {k : Call Int} (countable : Countable c (calls ++ [k])) :
    Countable c calls ∧ (standing calls).offends k = false := by
  obtain ⟨proper, direct, room⟩ := countable
  obtain ⟨before, last⟩ := disciplined_concat.mp proper
  have counted := counted_le_load (tokenAt_counted (c := c.withDefaults) (direct k (by simp)).1 last)
  rw [loadOf_concat] at room
  exact ⟨⟨before, fun j member => direct j (by simp [member]), by omega⟩, last⟩

theorem run_rested (accepted : Printer.ofConfig c = .ok start) (ran : start.run calls = .ok p)
    (within : CountsWithin bound p) (room : bound ≤ most) :
    PrinterState.Reached p ∧ PrinterRested bound p ∧ p.config = c.withDefaults := by
  obtain ⟨ready, _, config, _⟩ := ofConfig_ready accepted
  obtain ⟨margin, blank⟩ := Boundedness.ofConfig_narrow accepted
  have reached := PrinterState.run_reached ⟨ready.steady, ready.inside⟩ ran
  obtain ⟨narrow, same⟩ := Boundedness.run_narrow ⟨ready.steady, ready.inside⟩ margin blank ran
  exact ⟨reached, steady_rested reached.steady within narrow room, same.trans config⟩

/-- After any calls, another one is answered in words as it is answered, if the numbers of its token have
words. -/
theorem step_fair {k : Call Int} (accepted : Printer.ofConfig c = .ok start) (ran : start.run calls = .ok p)
    (roomy : PrinterRoomy bound p) (room : bound ≤ most)
    (deltas : ∀ t, k = .emit t → ∀ d ∈ (standing calls).active, 0 ≤ d ∧ d ≤ most)
    (fair : TokenFair bound c.withDefaults (tokenAt (standing calls) k)) :
    SeenInWords (bound + cost c.withDefaults (tokenAt (standing calls) k)) (p.call k) (p.words.call k.words) := by
  obtain ⟨reached, rested, config⟩ := run_rested accepted ran roomy.toCountsWithin room
  rw [← (run_past accepted ran).stands] at deltas fair ⊢
  rw [← config] at fair ⊢
  exact call_seen reached.steady reached.inside rested room deltas fair

/-- A token has words if its columns and all it moves leave room. -/
theorem fair_of_load (line : 0 ≤ c.margin ∧ c.margin ≤ bound) (counted : 0 ≤ columns c t)
    (room : bound + load c t ≤ limit) : TokenFair bound c t := by
  have cheap := cost_le_load counted
  have wide : columns c t + (moves t).natAbs ≤ load c t := by cases t <;> exact Int.le_refl _
  simp only [limit] at room
  refine ⟨by simp only [most]; omega, ⟨by omega, by omega⟩, ⟨by omega, by omega⟩, by simp only [most]; omega⟩

variable (accepted : Printer.ofConfig c = .ok start)
include accepted

/-- After calls that can be counted in words, another one is answered in words as it is answered. -/
theorem step_seen {k : Call Int} (ran : start.run calls = .ok p)
    (roomy : PrinterRoomy (loadOf c calls) p) (countable : Countable c (calls ++ [k])) :
    SeenInWords (loadOf c (calls ++ [k])) (p.call k) (p.words.call k.words) := by
  obtain ⟨before, last⟩ := countable_concat countable
  obtain ⟨direct, _⟩ := countable.direct k (by simp)
  have space : loadOf c calls ≤ most := Int.le_trans before.room (by decide)
  have counted := tokenAt_counted (c := c.withDefaults) direct last
  have cheap := cost_le_load counted
  have line := roomy_margin roomy
  rw [(run_rested accepted ran roomy.toCountsWithin space).2.2] at line
  have room := countable.room
  rw [loadOf_concat] at room ⊢
  have fair := fair_of_load line counted room
  exact seen_mono (step_fair accepted ran roomy space (fun t same => absurd same (direct t)) fair) (by omega)

theorem start_seen (margin : Fits c.margin) (unit : Fits c.unit) : PrinterRoomy (loadOf c []) start := by
  have within := ofConfig_within accepted margin unit
  have wide := accepted_margin accepted
  have none : loadOf c [] = c.withDefaults.margin := Int.add_zero _
  have room : c.withDefaults.margin ≤ most := Int.le_trans (Int.le_of_lt wide) (by decide)
  rw [none]
  have slim := (Boundedness.ofConfig_narrow accepted).2
  exact (steady_rested (ofConfig_ready accepted).1.steady within slim room).toPrinterRoomy

theorem run_seen (margin : Fits c.margin) (unit : Fits c.unit) (countable : Countable c calls) :
    SeenInWords (loadOf c calls) (start.run calls) (start.words.run (calls.map Call.words)) := by
  induction calls using List.reverseRecOn with
  | nil => exact seen_ok (start_seen accepted margin unit)
  | append_singleton calls k ih =>
    have split : start.words.run ((calls ++ [k]).map Call.words) =
        start.words.run (calls.map Call.words) >>= fun p => p.call k.words := by
      simp only [Printer.run, List.map_append, List.map_cons, List.map_nil, List.foldlM_append, List.foldlM_cons,
        List.foldlM_nil, bind_pure]
    rw [run_concat, split]
    refine seen_bind (ih (countable_concat countable).1) fun p ran roomy => ?_
    exact step_seen accepted ran roomy countable

/-- A document ends in words as it ends. -/
theorem run_finish (ran : start.run calls = .ok p) (within : CountsWithin bound p) (room : bound ≤ limit) :
    SeenInWords bound p.finish p.words.finish := by
  have room : bound ≤ most := Int.le_trans room (by decide)
  obtain ⟨reached, rested, _⟩ := run_rested accepted ran within room
  exact finish_seen reached.steady reached.inside rested room

/-- Balanced calls are printed in words as they are printed. -/
theorem print_words (margin : Fits c.margin) (unit : Fits c.unit)
    (balanced : Balanced calls) (room : loadOf c calls ≤ limit) :
    Printer.print c.words (calls.map Call.words) = Printer.words <$> Printer.print c calls := by
  have countable : Countable c calls := ⟨balanced_disciplined balanced, balanced_direct balanced, room⟩
  have answered := run_seen accepted margin unit countable
  refine bind_seen (ofConfig_words margin unit) fun begun begins => ?_
  rw [accepted] at begins
  cases begins
  refine bind_seen answered.same fun p ran => ?_
  exact (run_finish accepted ran (answered.roomy p ran).toCountsWithin room).same

omit accepted

theorem output_words (p : Printer Int) : p.words.output = p.output := by
  have spelled (m : Mark Int) : m.words.spelling = m.spelling := by cases m <;> rfl
  simp only [Printer.output, Sink.text, Printer.words, Page.words, Sink.words]
  rw [← List.map_reverse, List.flatMap_map]
  simp only [spelled]

end Runs

end Galley.Layout.Exactness
