import Galley.Proofs.Safety

/-! How much a printer holds back. Checking the stream ends only when what is held back fits on the rest
of the line, and nothing that is taken in without a check has a width; so what is held back between two
calls would fit on an empty line. A hard break never does, and is written at once with all before it. -/
namespace Galley.Layout.Boundedness
open RingQueue Extent PageWriting Pending Tracking
open Lookahead Emission Rendering Indentation Discipline Contract PrinterState Safety

/-- The tokens that a printer holds back. -/
def held (p : Printer Int) : List (Token Int) := p.buf.toList.map Entry.token

/-- What is held back would fit on an empty line. -/
def BufferNarrow (p : Printer Int) : Prop := columnsOf p.config (held p) ≤ p.config.margin

variable {stops : Reach → Prop} {v : View} {n : Nat} {t : Token Int} {p q : Printer Int}

section Shedding

/-- A printer that holds back a tail of what another does. -/
structure TailHeld (p q : Printer Int) : Prop where
  tail : held q <:+ held p
  config : q.config = p.config

theorem TailHeld.refl (p : Printer Int) : TailHeld p p := ⟨List.suffix_refl _, rfl⟩

theorem held_length (p : Printer Int) : (held p).length = p.buf.length := by
  rw [held, List.length_map, length_toList]

theorem held_forward (tracks : Tracks stops v p) : Forward p.config (held p) := by
  intro t member
  rw [held, tracks_tokens tracks] at member
  exact tracks.forward t (List.mem_of_mem_drop member)

/-- Writing what is decided sheds it. -/
theorem advance_sheds (ran : p.advance = .ok q) : TailHeld p q := by
  obtain ⟨es, all⟩ : ∃ es, p.buf.toList = es := ⟨_, rfl⟩
  induction es generalizing p with
  | nil =>
    rw [advance_empty all] at ran
    cases ran
    exact .refl q
  | cons e es ih =>
    by_cases pending : e.size < 0
    · rw [advance_pending all pending] at ran
      cases ran
      exact .refl q
    · obtain ⟨buf, tail, _, run⟩ := advance_decided all (Int.not_lt.mp pending)
      rw [run] at ran
      obtain ⟨page, _, later⟩ := bind_ok ran
      have rest := ih later tail
      refine ⟨rest.tail.trans ?_, rest.config⟩
      simp only [held, tail, all, List.map_cons]
      exact List.suffix_cons _ _

/-- A decided head of the buffer is written. -/
theorem advance_pops {e : Entry Int} {es : List (Entry Int)} (all : p.buf.toList = e :: es)
    (decided : 0 ≤ e.size) (ran : p.advance = .ok q) :
    held q <:+ es.map Entry.token ∧ q.config = p.config := by
  obtain ⟨buf, tail, _, run⟩ := advance_decided all decided
  rw [run] at ran
  obtain ⟨page, _, later⟩ := bind_ok ran
  have rest := advance_sheds later
  refine ⟨?_, rest.config⟩
  rw [← tail]
  exact rest.tail

/-- A round of forcing writes the head of the buffer. -/
theorem force_pops {r : Printer Int} (tracks : Tracks stops v p) (filled : p.buf.offset < v.stream.length)
    (broken : p.breakHead = .ok q) (ran : q.advance = .ok r) :
    held r <:+ v.stream.drop (p.buf.offset + 1) ∧ r.config = p.config := by
  by_cases member : p.buf.offset ∈ v.waiting
  · obtain ⟨buf, scan, closed, forced, front, _⟩ := breakHead_pending tracks filled member
    rw [forced] at broken
    cases broken
    have popped := advance_pops front (by decide : (0 : Int) ≤ 65535) ran
    rwa [entriesFrom_tokens] at popped
  · have decided : 0 ≤ v.size p.config p.buf.offset := Int.not_lt.mp fun negative =>
      member ((size_negative_iff tracks (Nat.le_refl _) filled).mp negative)
    have front := tracks_head tracks filled
    rw [breakHead_decided front (Int.not_lt.mpr decided)] at broken
    cases broken
    have popped := advance_pops front decided ran
    rwa [entriesFrom_tokens] at popped

theorem narrow_of_empty (margin : 0 ≤ p.config.margin) (empty : held p = []) : BufferNarrow p := by
  rw [BufferNarrow, empty]
  exact margin

theorem narrow_of_sheds (forward : Forward p.config (held p)) (narrow : BufferNarrow p) (sheds : TailHeld p q) :
    BufferNarrow q := by
  obtain ⟨before, parts⟩ := sheds.tail
  rw [← parts] at forward
  have written := columnsOf_nonneg (List.forall_mem_append.mp forward).1
  rw [BufferNarrow, ← parts, columnsOf_append] at narrow
  rw [BufferNarrow, sheds.config]
  omega

/-- Checking the stream ends with no more than fits on the rest of the line. Every round writes at least
one token, so there are rounds enough. -/
theorem checkStreamUpTo_narrow {fuel : Nat} (tracks : Tracks (fun _ => False) v p)
    (margin : 0 ≤ p.config.margin) (enough : p.buf.length ≤ fuel)
    (ran : Printer.checkStreamUpTo fuel p = .ok q) : TailHeld p q ∧ BufferNarrow q := by
  induction fuel generalizing v p with
  | zero =>
    cases ran
    have empty : held q = [] := List.length_eq_zero_iff.mp (by rw [held_length]; omega)
    exact ⟨.refl q, narrow_of_empty margin empty⟩
  | succ fuel ih =>
    unfold Printer.checkStreamUpTo at ran
    split at ran
    · rename_i wide
      obtain ⟨r, broken, rest⟩ := bind_ok ran
      obtain ⟨s, advanced, later⟩ := bind_ok rest
      have filled := tracks_filled tracks wide.2
      have whole : held p = v.stream[p.buf.offset] :: v.stream.drop (p.buf.offset + 1) := by
        rw [held, tracks_tokens tracks, List.drop_eq_getElem_cons filled]
      obtain ⟨popped, config⟩ := force_pops tracks filled broken advanced
      have shorter : s.buf.length < p.buf.length := by
        rw [← held_length, ← held_length, whole]
        exact Nat.lt_succ_of_le popped.length_le
      have heads := force_heads tracks (by simp [Forward] : Forward p.config []) filled wide.1
      rw [broken, ok_bind, advanced] at heads
      obtain ⟨⟨w, tracked, _⟩, _⟩ := heads
      obtain ⟨sheds, narrow⟩ := ih tracked (config ▸ margin) (by omega) later
      refine ⟨⟨sheds.tail.trans ?_, sheds.config.trans config⟩, narrow⟩
      rw [whole]
      exact popped.trans (List.suffix_cons _ _)
    · rename_i checked
      cases ran
      refine ⟨.refl q, ?_⟩
      by_cases empty : held q = []
      · exact narrow_of_empty margin empty
      · have filled : 0 < q.buf.length := by
          rw [← held_length]
          exact List.length_pos_iff.mpr empty
        have space := tracks.page.space
        have total := totals_differ tracks
        rw [BufferNarrow, held, ← total]
        omega

end Shedding

section Step

theorem narrow_push (narrow : BufferNarrow p) (config : q.config = p.config) (more : held q = held p ++ [t])
    (bare : columns p.config t = 0) : BufferNarrow q := by
  rw [BufferNarrow, config, more, columnsOf_append, columnsOf, columnsOf, bare, Int.add_zero, Int.add_zero]
  exact narrow

theorem held_push (p : Printer Int) (e : Entry Int) : held (p.push e) = held p ++ [e.token] := by
  simp [held, Printer.push]

theorem closeTop_held {test : Token Int → Bool} (ran : closeTop p test = .ok q) :
    q.buf = p.buf ∧ q.config = p.config := by
  obtain ⟨top, _, later⟩ := bind_ok ran
  split at later
  · obtain ⟨⟨pos, scan⟩, _, closed⟩ := bind_ok later
    cases closed
    exact ⟨rfl, rfl⟩
  · cases later
    exact ⟨rfl, rfl⟩

/-- What stands at the end of checking the stream for a break. -/
theorem scanBreak_checks {b : Break Int} (steady : PrinterSteady n p) (margin : 0 ≤ p.config.margin)
    (counted : 0 ≤ b.width) (ran : p.scanBreak b = .ok q) :
    ∃ u before, u.advance = .ok q ∧ Forward u.config (held u) ∧ BufferNarrow u ∧ u.config = p.config ∧
      held u <:+ before ++ [.lineBreak b] := by
  rw [scanBreak_eq] at ran
  obtain ⟨r, closed, rest⟩ := bind_ok ran
  obtain ⟨s, last, rest⟩ := bind_ok rest
  obtain ⟨u, checked, advanced⟩ := bind_ok rest
  obtain ⟨v, tracks, config⟩ := checks_tracks (t := .lineBreak b) steady counted (.lineBreak closed last)
  obtain ⟨w, tracked⟩ := checked_tracks tracks checked
  obtain ⟨sheds, narrow⟩ := checkStreamUpTo_narrow tracks (config ▸ margin) (Nat.le_refl _) checked
  refine ⟨u, held s, advanced, held_forward tracked, narrow, sheds.config.trans config, ?_⟩
  have pushed : held (withBreak s b) = held s ++ [.lineBreak b] := held_push s ⟨.lineBreak b, -s.rightTotal⟩
  rw [← pushed]
  exact sheds.tail

/-- Taking in a token leaves no more held back than fits on an empty line. -/
theorem take_narrow (steady : PrinterSteady n p) (margin : 0 ≤ p.config.margin) (counted : 0 ≤ columns p.config t)
    (narrow : BufferNarrow p) (ran : take p t = .ok q) : BufferNarrow q := by
  cases t with
  | text s =>
    cases idle : p.idle with
    | true =>
      simp only [take, Printer.scanText, idle, ↓reduceIte] at ran
      cases ran
      exact narrow
    | false =>
      rw [take, scanText_eq p s idle] at ran
      obtain ⟨v, tracks, config⟩ := checks_tracks (t := .text s) steady counted (.text s idle)
      exact (checkStreamUpTo_narrow tracks (config ▸ margin) (Nat.le_refl _) ran).2
  | lineBreak b =>
    obtain ⟨u, _, advanced, forward, checked, _⟩ := scanBreak_checks steady margin counted ran
    exact narrow_of_sheds forward checked (advance_sheds advanced)
  | groupStart g =>
    cases ran
    have pushed (r : Printer Int) : held (r.pushPending (.groupStart g)) = held r ++ [.groupStart g] :=
      held_push r ⟨.groupStart g, -r.rightTotal⟩
    unfold Printer.scanStart
    split
    · exact narrow_push narrow rfl (pushed p.restart) rfl
    · exact narrow_push narrow rfl (pushed p) rfl
  | groupEnd =>
    cases idle : p.idle with
    | true =>
      simp only [take, Printer.scanEnd, idle, ↓reduceIte] at ran
      obtain ⟨page, _, later⟩ := bind_ok ran
      cases later
      exact narrow
    | false =>
      rw [take, scanEnd_eq p idle] at ran
      obtain ⟨r, last, rest⟩ := bind_ok ran
      obtain ⟨s, own, advanced⟩ := bind_ok rest
      obtain ⟨buf, config⟩ := closeTop_held last
      obtain ⟨buf', config'⟩ := closeTop_held own
      obtain ⟨v, tracks, _⟩ := steady
      have same : s.config = p.config := config'.trans config
      have more : held (s.push ⟨.groupEnd, 0⟩) = held p ++ [.groupEnd] := by
        rw [held_push, held, buf', buf]
        rfl
      have forward : Forward s.config (held (s.push ⟨.groupEnd, 0⟩)) := by
        rw [more, same]
        intro t member
        rcases List.mem_append.mp member with old | new
        · exact held_forward tracks t old
        · obtain rfl := List.mem_singleton.mp new
          exact Int.le_refl 0
      exact narrow_of_sheds forward (narrow_push narrow same more rfl) (advance_sheds advanced)
  | indent delta =>
    cases idle : p.idle with
    | true =>
      simp only [take, Printer.scanIndent, idle, ↓reduceIte] at ran
      obtain ⟨page, _, later⟩ := bind_ok ran
      cases later
      exact narrow
    | false =>
      simp only [take, Printer.scanIndent, idle, Bool.false_eq_true, ↓reduceIte] at ran
      cases ran
      exact narrow_push narrow rfl (held_push p ⟨.indent delta, 0⟩) rfl
  | missing =>
    cases ran
    exact narrow

theorem call_narrow {k : Call Int} (reached : Reached p) (margin : 0 ≤ p.config.margin) (narrow : BufferNarrow p)
    (ran : p.call k = .ok q) : BufferNarrow q ∧ q.config = p.config := by
  obtain ⟨fresh, ends⟩ := call_cases reached.inside ran
  have ready : PrinterReady p := ⟨reached.steady, fresh, reached.inside⟩
  rcases ends with ⟨_, finished⟩ | ⟨t, after, admits, taken⟩
  · have heads := finish_heads ready (finish_closed ready finished)
    rw [finished] at heads
    obtain ⟨⟨steady, idle, _, _, config⟩, _⟩ := heads
    have empty : held q = [] := by rw [held, (idle_drained steady idle).buf]; rfl
    exact ⟨narrow_of_empty (config ▸ margin) empty, config⟩
  · have heads := take_ready ready admits (by simp [Forward] : Forward p.config [])
    rw [taken] at heads
    obtain ⟨⟨_, _, config⟩, _⟩ := heads
    have steady := steady_withScopes ready.steady after
    exact ⟨take_narrow steady margin (admits_counted admits _) narrow taken, config⟩

theorem run_narrow {calls : List (Call Int)} (reached : Reached p) (margin : 0 ≤ p.config.margin)
    (narrow : BufferNarrow p) (ran : p.run calls = .ok q) : BufferNarrow q ∧ q.config = p.config := by
  induction calls generalizing p with
  | nil =>
    cases ran
    exact ⟨narrow, rfl⟩
  | cons k calls ih =>
    obtain ⟨next, first, rest⟩ := bind_ok ran
    obtain ⟨later, config⟩ := call_narrow reached margin narrow first
    obtain ⟨final, same⟩ := ih (call_reached reached first).1 (config ▸ margin) later rest
    exact ⟨final, same.trans config⟩

end Step

section Nesting

/-- Open groups leave at most their start and one break undecided each, and the document one break. -/
theorem nested_length {stream : List (Token Int)} {offset k d : Nat} {l : List Nat}
    (nested : IndicesNested stream n l) (low : ∀ i ∈ l, offset ≤ i) (positive : 1 ≤ k)
    (deep : levels k (stream.drop offset) = some d) : l.length ≤ 2 * (d - 1 - n) + 1 := by
  induction nested with
  | nil n => simp
  | @group n i outer here rest ih =>
    have inside := depth_of_group (low i (by simp)) here positive deep
    have shorter := ih fun j member => low j (by simp [member])
    simp only [List.length_cons]
    omega
  | alone here => simp
  | @chunk n i j outer here own rest ih =>
    have inside := depth_of_group (low j (by simp)) own positive deep
    have shorter := ih fun j member => low j (by simp [member])
    simp only [List.length_cons]
    omega

theorem scan_bounded (steady : PrinterSteady n p) : p.scan.length ≤ 2 * (n - 1) + 1 := by
  obtain ⟨v, tracks, _, rfl⟩ := steady
  obtain ⟨above, indent, frames⟩ := tracks.page.bottom
  have bound := nested_length tracks.shape.nested
    (fun i member => opened_low tracks (List.mem_reverse.mp member)) (by simp [frames]) tracks.depth
  rwa [List.length_reverse, ← scan_length tracks] at bound

end Nesting

section HardBreaks

/-- The calls that ask for a break that is always taken. -/
inductive HardBreak : Call Int → Prop where
  | call : HardBreak .hardBreak
  | raw {b : Break Int} (hard : b.kind = .hard) : HardBreak (.emit (.lineBreak b))

/-- A hard break never fits on a line. -/
theorem narrow_soft (margin : p.config.margin < infiniteWidth) (forward : Forward p.config (held p))
    (narrow : BufferNarrow p) {b : Break Int} (member : .lineBreak b ∈ held p) : b.kind ≠ .hard := by
  intro hard
  obtain ⟨before, after, parts⟩ := List.append_of_mem member
  rw [parts] at forward
  obtain ⟨first, _, rest⟩ := List.forall_mem_append.mp forward |>.imp_right List.forall_mem_cons.mp
  have left := columnsOf_nonneg first
  have right := columnsOf_nonneg rest
  have wide : columns p.config (.lineBreak b) = infiniteWidth := by simp [columns, Break.width, hard]
  rw [BufferNarrow, parts, columnsOf_append, columnsOf, wide] at narrow
  omega

/-- A hard break is written at once, with everything held back before it. -/
theorem scanBreak_hard {b : Break Int} (steady : PrinterSteady n p) (margin : 0 ≤ p.config.margin)
    (hard : b.kind = .hard) (ran : p.scanBreak b = .ok q) : held q = [] := by
  have counted : 0 ≤ b.width := by simp [Break.width, hard, infiniteWidth, Columns.ofNat]
  have limit : p.config.margin < infiniteWidth := by
    obtain ⟨v, tracks, _⟩ := steady
    exact tracks.margin
  obtain ⟨u, before, advanced, forward, narrow, config, tail⟩ := scanBreak_checks steady margin counted ran
  rcases List.eq_nil_or_concat (held u) with empty | ⟨others, last, more⟩
  · have sheds := (advance_sheds advanced).tail
    rw [empty] at sheds
    exact List.suffix_nil.mp sheds
  · -- What is left would end with the break itself, and be too wide.
    obtain ⟨written, parts⟩ := tail
    rw [List.concat_eq_append] at more
    rw [more, ← List.append_assoc] at parts
    obtain ⟨_, same⟩ := List.append_inj' parts rfl
    cases same
    exact absurd hard (narrow_soft (config ▸ limit) forward narrow (by simp [more]))

/-- A printer that holds back nothing has nothing undecided. -/
theorem empty_idle (steady : PrinterSteady n p) (empty : held p = []) : p.idle = true := by
  obtain ⟨v, tracks, _⟩ := steady
  rw [idle_iff tracks]
  by_contra undecided
  have filled := some_held tracks undecided
  rw [held, tracks_tokens tracks, List.drop_eq_getElem_cons filled] at empty
  cases empty

theorem hardBreak_takes {k : Call Int} (fresh : p.done = false) (breaks : HardBreak k) :
    ∃ b, b.kind = .hard ∧ CallHands k (.lineBreak b) ∧ GroupsAdmit p.scopes (.lineBreak b) p.scopes ∧
      p.call k = (withScopes p p.scopes).scanBreak b := by
  cases breaks with
  | call =>
    refine ⟨_, rfl, .hardBreak, .lineBreak (by decide), ?_⟩
    simp only [Printer.call, count_fresh fresh, ok_bind]
    rfl
  | @raw b hard =>
    have admitted : accept p.scopes (.lineBreak b) = some p.scopes := by simp [accept, hard]
    have hands := CallHands.emit (.lineBreak b)
    have admits := admits_of_accept admitted
    have taken := emit_admitted fresh admitted
    simp only [plain, hard, ↓reduceIte] at hands admits taken
    exact ⟨_, rfl, hands, admits, taken⟩

end HardBreaks

section Texts

/-- The text that a call asks for. -/
def asked : Call Int → Option Text
  | .text s | .emit (.text s) => some s
  | _ => none

/-- The text that a mark stands for. -/
def shown : Mark Int → Option Text
  | .text _ s => some s
  | _ => none

theorem shown_of_hands {k : Call Int} {m : Mark Int} (hands : CallHands k t) (records : MarkRecords t m) :
    shown m = asked k := by
  cases hands with
  | emit t =>
    cases t with
    | lineBreak b => cases records <;> rfl
    | missing => cases records
    | _ => cases records; rfl
  | text s => cases records; rfl
  | lineBreak | hardBreak | trailingComma => cases records <;> rfl
  | groupStart | alignStart | groupEnd | indent | outdent => cases records; rfl

theorem shown_all {calls : List (Call Int)} {ts : List (Token Int)} {marks : List (Mark Int)}
    (hands : List.Forall₂ CallHands calls ts) (records : List.Forall₂ MarkRecords ts marks) :
    marks.filterMap shown = calls.filterMap asked := by
  induction hands generalizing marks with
  | nil =>
    cases records
    rfl
  | cons first rest ih =>
    cases records with
    | cons here later => simp only [List.filterMap_cons, shown_of_hands first here, ih later]

/-- The texts that a printer has been told are on the page that it is about to lay out. -/
theorem laid_shown {c : Config Int} {calls : List (Call Int)} {ts : List (Token Int)} {page : Page Int}
    (told : PrinterTold c calls ts p) (laid : outlook p [] = .ok page) :
    page.sink.marks.reverse.filterMap shown = calls.filterMap asked := by
  rw [told.heading [] (by simp [Forward]), List.append_nil] at laid
  have lays : TokensLaid c.withDefaults (Page.ofConfig c.withDefaults) ts page :=
    ⟨ofConfig_grounded _, admitted_counted told.admitted _, ⟨_, admitted_nested told.admitted⟩,
      admitted_whole told.admitted, laid⟩
  obtain ⟨marks, records, written⟩ := lays_records lays
  have same : page.sink.marks.reverse = marks := by simp [written, Page.ofConfig, Sink.ofConfig]
  rw [same]
  exact shown_all told.hands records

/-- With nothing held back, the texts that a printer has been told are on its page. -/
theorem told_shown {c : Config Int} {calls : List (Call Int)} {ts : List (Token Int)}
    (told : PrinterTold c calls ts p) (idle : p.idle = true) :
    p.page.sink.marks.reverse.filterMap shown = calls.filterMap asked :=
  laid_shown told (outlook_idle told.ready.steady idle)

end Texts

/-- A printer of an accepted configuration has a line, and holds back nothing. -/
theorem ofConfig_narrow {c : Config Int} (accepted : Printer.ofConfig c = .ok p) :
    0 ≤ p.config.margin ∧ BufferNarrow p := by
  simp only [Printer.ofConfig] at accepted
  split at accepted
  · cases accepted
  · rename_i valid
    cases accepted
    have margin : 0 ≤ c.withDefaults.margin := by omega
    exact ⟨margin, narrow_of_empty margin rfl⟩

/-- As long as every call is answered, what is held back would fit on an empty line, no hard break is
among it, and each open group leaves at most two positions pending. A hard break leaves nothing held
back and nothing pending: every text asked for before it has been written. -/
theorem lookahead_bounded (c : Config Int) (start p : Printer Int) (calls : List (Call Int))
    (accepted : Printer.ofConfig c = .ok start) (ran : start.run calls = .ok p) :
    columnsOf c.withDefaults (held p) ≤ c.withDefaults.margin ∧
      (∀ b, .lineBreak b ∈ held p → b.kind ≠ .hard) ∧
      p.scan.length ≤ 2 * (standing calls).depth + 1 ∧
      ∀ k q, HardBreak k → p.call k = .ok q →
        held q = [] ∧ q.scan.toList = [] ∧ q.closed = [] ∧
          q.page.sink.marks.reverse.filterMap shown = calls.filterMap asked := by
  obtain ⟨ready, _, config, _⟩ := ofConfig_ready accepted
  obtain ⟨margin, blank⟩ := ofConfig_narrow accepted
  have reached := run_reached ⟨ready.steady, ready.inside⟩ ran
  obtain ⟨narrow, same⟩ := run_narrow ⟨ready.steady, ready.inside⟩ margin blank ran
  have past := run_past accepted ran
  refine ⟨?_, ?_, ?_, ?_⟩
  · rw [← config, ← same]
    exact narrow
  · obtain ⟨v, tracks, _⟩ := reached.steady
    exact fun b member => narrow_soft tracks.margin (held_forward tracks) narrow member
  · rw [← past.stands]
    exact scan_bounded reached.steady
  · intro k q breaks answered
    obtain ⟨fresh, _⟩ := call_cases reached.inside answered
    obtain ⟨ts, told⟩ := past.told fresh
    obtain ⟨b, hard, hands, admits, taken⟩ := hardBreak_takes fresh breaks
    rw [taken] at answered
    have steady := steady_withScopes reached.steady p.scopes
    have empty := scanBreak_hard steady (same ▸ margin) hard answered
    obtain ⟨later, _⟩ := take_told told hands admits answered
    have idle := empty_idle later.ready.steady empty
    have texts := told_shown later idle
    obtain ⟨v, tracks, _⟩ := later.ready.steady
    obtain ⟨opened, ended⟩ := List.append_eq_nil_iff.mp ((idle_iff tracks).mp idle)
    refine ⟨empty, by rw [tracks.scan, opened]; rfl, by rw [tracks.closed, ended]; rfl, ?_⟩
    have silent : asked k = none := by cases breaks <;> rfl
    rw [texts, List.filterMap_append]
    simp [silent]

/-- Every open group has its start and a break pending, and the document a break: no more can be. -/
theorem lookahead_bounded_nested :
    ∃ start p q : Printer Int, Printer.ofConfig ⟨10, 4, false, false⟩ = .ok start ∧
      start.run [Call.space, .groupStart .consistent 0, .text "a", Call.space, .groupStart .inconsistent 0,
        .text "bb", Call.space, .text "c"] = .ok p ∧ p.call .hardBreak = .ok q ∧
      p.scan.length = 2 * 2 + 1 ∧ (held p).length = 8 ∧
      columnsOf ⟨10, 4, false, false⟩ (held p) ≤ 10 ∧ held q = [] ∧
      q.page.sink.marks.reverse.filterMap shown = ["a", "bb", "c"] := by
  obtain ⟨⟨p, q⟩, run, state⟩ := ok_of_toOption (b := (5, 8))
    (x := do
      let start ← Printer.ofConfig (⟨10, 4, false, false⟩ : Config Int)
      let p ← start.run [Call.space, .groupStart .consistent 0, .text "a", Call.space,
        .groupStart .inconsistent 0, .text "bb", Call.space, .text "c"]
      let q ← p.call .hardBreak
      return (p, q))
    (f := fun states => (states.1.scan.length, (held states.1).length)) (by decide +kernel)
  obtain ⟨start, accepted, rest⟩ := bind_ok run
  obtain ⟨p, ran, rest⟩ := bind_ok rest
  obtain ⟨q, answered, rest⟩ := bind_ok rest
  cases rest
  obtain ⟨scan, length⟩ := Prod.mk.inj state
  obtain ⟨width, _, _, breaks⟩ := lookahead_bounded ⟨10, 4, false, false⟩ start p _ accepted ran
  obtain ⟨empty, _, _, texts⟩ := breaks .hardBreak q .call answered
  exact ⟨start, p, q, accepted, ran, answered, scan, length, width, empty, texts⟩

end Galley.Layout.Boundedness
