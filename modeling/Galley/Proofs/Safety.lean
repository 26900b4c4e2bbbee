import Galley.Proofs.Contract
import Galley.Proofs.PrinterState

/-! What a printer does within a call. Besides answering it or refusing it by the contract, a call may
only pass through states in which every position it looks for is there and every run of blanks it
writes has a count. The states are those of the printer's own functions: the rounds of checking the
stream, and the tokens written one after the other. -/
namespace Galley.Layout.Safety
open RingQueue Extent PageWriting Pending Tracking
open Lookahead Emission Rendering Indentation Discipline Contract PrinterState

section States

variable {ι : Type} [Columns ι]

/-- A printer that holds back another text. -/
def withText (p : Printer ι) (s : Text) : Printer ι :=
  { p.push ⟨.text s, p.config.width s⟩ with rightTotal := p.rightTotal + p.config.width s }

/-- A printer that holds back another break, undecided. -/
def withBreak (p : Printer ι) (b : Break ι) : Printer ι :=
  { p.pushPending (.lineBreak b) with rightTotal := p.rightTotal + b.width }

theorem scanText_eq (p : Printer ι) (s : Text) (busy : p.idle = false) :
    p.scanText s = (withText p s).checkStream := by
  simp only [Printer.scanText, busy, Bool.false_eq_true, ↓reduceIte]
  rfl

theorem scanBreak_eq (p : Printer ι) (b : Break ι) :
    p.scanBreak b = (do
      let q ← p.writeClosed
      let r ← q.resolveLast
      let s ← (withBreak r b).checkStream
      s.advance) := rfl

/-- The printer that checks its stream while it takes in a token. -/
inductive StreamChecked (p : Printer Int) : Token Int → Printer Int → Prop where
  | text (s : Text) (busy : p.idle = false) : StreamChecked p (.text s) (withText p s)
  | lineBreak {b : Break Int} {q r : Printer Int} (closed : p.writeClosed = .ok q)
      (last : q.resolveLast = .ok r) : StreamChecked p (.lineBreak b) (withBreak r b)

/-- The printer at the start of a round of checking the stream. -/
def RoundStarts (p s : Printer Int) : Prop :=
  ∃ n, Printer.checkStreamUpTo n p = .ok s ∧ s.page.sink.space < s.rightTotal - s.leftTotal ∧
    0 < s.buf.length

/-- The printers that write what is decided while a token is taken in. -/
inductive DecidedWritten (p : Printer Int) : Token Int → Printer Int → Prop where
  | closed {b : Break Int} {q : Printer Int} (resolved : p.resolveClosed = .ok q) :
      DecidedWritten p (.lineBreak b) q
  | forced {t : Token Int} {q r s : Printer Int} (checks : StreamChecked p t q) (round : RoundStarts q r)
      (broken : r.breakHead = .ok s) : DecidedWritten p t s
  | checked {b : Break Int} {q r : Printer Int} (checks : StreamChecked p (.lineBreak b) q)
      (ran : q.checkStream = .ok r) : DecidedWritten p (.lineBreak b) r
  | ended {q r : Printer Int} (busy : p.idle = false) (last : closeTop p Printer.isBreak = .ok q)
      (own : closeTop q Printer.isGroupStart = .ok r) : DecidedWritten p .groupEnd (r.push ⟨.groupEnd, 0⟩)

/-- The printers that a call comes through, each before it writes a token. -/
inductive CallPasses (p : Printer Int) : Call Int → Printer Int → Prop where
  | direct {k : Call Int} (fresh : p.done = false) : CallPasses p k p
  | token {k : Call Int} {t : Token Int} {after : List (List Int)} {q s : Printer Int} {n : Nat}
      (fresh : p.done = false) (hands : CallHands k t) (admits : GroupsAdmit p.scopes t after)
      (advances : DecidedWritten (withScopes p after) t q) (ahead : Printer.advanceUpTo n q = .ok s) :
      CallPasses p k s
  | eof {q r s : Printer Int} {n : Nat} (fresh : p.done = false)
      (resolved : (withScopes p p.scopes).resolveClosed = .ok q)
      (scanned : Printer.resolveScan q.scan.length q = .ok r)
      (ahead : Printer.advanceUpTo n r = .ok s) : CallPasses p .eof s

/-- The printers that look for the head of the buffer among the positions of closed groups in the
course of a call: the head is pending, and not the outermost position of an open group. -/
inductive HeadSought (p : Printer Int) : Call Int → Printer Int → Prop where
  | round {k : Call Int} {t : Token Int} {after : List (List Int)} {q s : Printer Int} {e : Entry Int}
      (fresh : p.done = false) (hands : CallHands k t) (admits : GroupsAdmit p.scopes t after)
      (checks : StreamChecked (withScopes p after) t q) (round : RoundStarts q s) (head : s.buf.front = .ok e)
      (pending : e.size < 0) (other : s.scan.toList.head? ≠ some s.buf.frontPos) : HeadSought p k s

end States

variable {p q : Printer Int}

section Sheets

/-- An action leaves the configuration of the page as it is. -/
def ConfigKept (p : Printer Int) (x : Except Fault (Printer Int)) : Prop :=
  ∀ q, x = .ok q → q.page.sink.config = p.page.sink.config

theorem keeps_bind {x : Except Fault (Printer Int)} {f : Printer Int → Except Fault (Printer Int)}
    (first : ConfigKept p x) (second : ∀ q, ConfigKept q (f q)) : ConfigKept p (x >>= f) := by
  intro q ran
  obtain ⟨r, before, later⟩ := bind_ok ran
  exact (second r q later).trans (first r before)

theorem keeps_after {α : Type} {x : Except Fault α} {f : α → Except Fault (Printer Int)}
    (each : ∀ a, ConfigKept p (f a)) : ConfigKept p (x >>= f) := by
  intro q ran
  obtain ⟨a, _, later⟩ := bind_ok ran
  exact each a q later

theorem keeps_ok (same : q.page.sink.config = p.page.sink.config) : ConfigKept p (.ok q) := by
  intro r ran
  cases ran
  exact same

theorem write_keeps {page after : Page Int} {t : Token Int} {size : Int}
    (ran : page.write t size = .ok after) : after.sink.config = page.sink.config := by
  cases write_cases ran with
  | text s => cases s <;> rfl
  | _ => rfl

theorem resolve_keeps (pos : Int) : ConfigKept p (p.resolve pos) :=
  keeps_after fun _ => keeps_after fun _ => keeps_ok rfl

theorem resolveClosed_keeps : ConfigKept p p.resolveClosed := by
  have each (positions : List Int) (p : Printer Int) : ConfigKept p (positions.foldlM Printer.resolve p) := by
    induction positions generalizing p with
    | nil => exact keeps_ok rfl
    | cons pos positions ih => exact keeps_bind (resolve_keeps pos) ih
  exact keeps_bind (each p.closed p) fun _ => keeps_ok rfl

theorem resolveScan_keeps (n : Nat) : ConfigKept p (Printer.resolveScan n p) := by
  induction n generalizing p with
  | zero => exact keeps_ok rfl
  | succ n ih =>
    unfold Printer.resolveScan
    split
    · exact keeps_ok rfl
    · exact keeps_after fun _ => keeps_bind (resolve_keeps _) fun _ => ih

theorem advanceUpTo_keeps (n : Nat) : ConfigKept p (Printer.advanceUpTo n p) := by
  induction n generalizing p with
  | zero => exact keeps_ok rfl
  | succ n ih =>
    unfold Printer.advanceUpTo
    split
    · exact keeps_ok rfl
    · refine keeps_after fun e => ?_
      split
      · exact keeps_ok rfl
      · refine keeps_after fun popped => ?_
        intro q ran
        obtain ⟨page, written, later⟩ := bind_ok ran
        exact (ih q later).trans (write_keeps written)

theorem breakHead_keeps : ConfigKept p p.breakHead := by
  unfold Printer.breakHead
  refine keeps_after fun e => ?_
  split
  · -- Whichever list the head is taken from, storing its size is the last step.
    have stores (q : Printer Int) : ConfigKept q (do
        let buf ← queue (q.buf.write p.buf.frontPos { e with size := infiniteWidth })
        return { q with buf := buf }) := keeps_after fun _ => keeps_ok rfl
    dsimp only
    split
    · refine keeps_after fun first => ?_
      split
      · exact keeps_after fun _ => keeps_bind (keeps_ok rfl) stores
      · exact keeps_bind (keeps_ok rfl) stores
    · refine keeps_after fun first => ?_
      split
      · exact keeps_after fun _ => keeps_bind (keeps_ok rfl) stores
      · exact keeps_bind (keeps_ok rfl) stores
  · exact keeps_ok rfl

theorem checkStreamUpTo_keeps (n : Nat) : ConfigKept p (Printer.checkStreamUpTo n p) := by
  induction n generalizing p with
  | zero => exact keeps_ok rfl
  | succ n ih =>
    unfold Printer.checkStreamUpTo
    split
    · exact keeps_bind breakHead_keeps fun _ => keeps_bind (advanceUpTo_keeps _) fun _ => ih
    · exact keeps_ok rfl

theorem writeClosed_keeps : ConfigKept p p.writeClosed := by
  unfold Printer.writeClosed
  split
  · exact keeps_ok rfl
  · exact keeps_bind resolveClosed_keeps fun _ => advanceUpTo_keeps _

theorem resolveLast_keeps : ConfigKept p p.resolveLast := by
  unfold Printer.resolveLast
  split
  · exact keeps_ok rfl
  · refine keeps_after fun last => ?_
    split
    · exact keeps_after fun _ => resolve_keeps _
    · exact keeps_ok rfl

theorem closeTop_keeps (test : Token Int → Bool) : ConfigKept p (closeTop p test) := by
  refine keeps_after fun top => ?_
  split
  · exact keeps_after fun _ => keeps_ok rfl
  · exact keeps_ok rfl

theorem checks_keeps {t : Token Int} (checks : StreamChecked p t q) :
    q.page.sink.config = p.page.sink.config := by
  cases checks with
  | text s busy => rfl
  | lineBreak closed last => exact (resolveLast_keeps _ last).trans (writeClosed_keeps _ closed)

theorem advances_keeps {t : Token Int} (advances : DecidedWritten p t q) :
    q.page.sink.config = p.page.sink.config := by
  cases advances with
  | closed resolved => exact resolveClosed_keeps _ resolved
  | forced checks round broken =>
    obtain ⟨n, ran, _⟩ := round
    exact (breakHead_keeps _ broken).trans ((checkStreamUpTo_keeps n _ ran).trans (checks_keeps checks))
  | checked checks ran => exact (checkStreamUpTo_keeps _ _ ran).trans (checks_keeps checks)
  | ended busy last own => exact (closeTop_keeps _ _ own).trans (closeTop_keeps _ _ last)

/-- Every page that a call writes on has the configuration of the first. -/
theorem passes_keeps {k : Call Int} (passes : CallPasses p k q) :
    q.page.sink.config = p.page.sink.config := by
  cases passes with
  | direct => rfl
  | token _ _ _ advances ahead =>
    have first := advances_keeps advances
    exact (advanceUpTo_keeps _ _ ahead).trans first
  | eof _ resolved scanned ahead =>
    have first := resolveClosed_keeps _ resolved
    exact (advanceUpTo_keeps _ _ ahead).trans ((resolveScan_keeps _ _ scanned).trans first)

end Sheets

section Blanks

/-- The runs of one byte that a sink owes before the next text, each with its count. -/
def owed (s : Sink Int) : List (UInt8 × Int) :=
  (if 0 < s.indent then
    if s.config.tabs then [(0x09, s.indent.tdiv s.config.unit), (0x20, s.indent.tmod s.config.unit)]
    else [(0x20, s.indent)]
  else []) ++ if 0 < s.blank then [(0x20, s.blank)] else []

/-- What a sink owes can be written: nothing is divided by zero, no run has a negative count, and the
runs spell what stands before the next text. -/
structure Payable (s : Sink Int) : Prop where
  unit : s.config.unit ≠ 0
  counts : ∀ run ∈ owed s, 0 ≤ run.2
  spelled : ∀ t : Text, t.isEmpty = false →
    s.lead t = (owed s).flatMap fun run => List.replicate run.2.toNat run.1

variable {s : Sink Int}

theorem owed_nonneg (positive : 0 < s.config.unit) : ∀ run ∈ owed s, 0 ≤ run.2 := by
  intro run member
  rcases List.mem_append.mp member with inner | inner
  · split at inner
    · rename_i indented
      split at inner
      · rcases List.mem_cons.mp inner with rfl | inner
        · exact Int.tdiv_nonneg (Int.le_of_lt indented) (Int.le_of_lt positive)
        · obtain rfl := List.mem_singleton.mp inner
          exact Int.tmod_nonneg _ (Int.le_of_lt indented)
      · obtain rfl := List.mem_singleton.mp inner
        exact Int.le_of_lt indented
    · cases inner
  · split at inner
    · rename_i blank
      obtain rfl := List.mem_singleton.mp inner
      exact Int.le_of_lt blank
    · cases inner

theorem lead_owed (positive : 0 < s.config.unit) {t : Text} (some : t.isEmpty = false) :
    s.lead t = (owed s).flatMap fun run => List.replicate run.2.toNat run.1 := by
  obtain ⟨unit, whole⟩ := Int.eq_ofNat_of_zero_le (Int.le_of_lt positive)
  simp only [Sink.lead, some, Bool.false_eq_true, ↓reduceIte, owed, List.flatMap_append]
  congr 1
  · by_cases indented : 0 < s.indent
    · obtain ⟨n, columns⟩ := Int.eq_ofNat_of_zero_le (Int.le_of_lt indented)
      by_cases tabs : s.config.tabs
      · have level : s.indent.toNat = n := by simp [columns]
        have width : s.config.unit.toNat = unit := by simp [whole]
        have quotient : s.indent.tdiv s.config.unit = (n / unit : Nat) := by rw [columns, whole]; rfl
        have remainder : s.indent.tmod s.config.unit = (n % unit : Nat) := by rw [columns, whole]; rfl
        simp only [Sink.indentation, Int.not_le.mpr indented, indented, tabs, ↓reduceIte, quotient, remainder,
          Columns.toNat, Columns.toInt, id_eq, level, width]
        simp only [List.flatMap_cons, List.flatMap_nil, List.append_nil, Int.toNat_natCast, Text.spaces]
      · simp [Sink.indentation, Text.spaces, Columns.toNat, Columns.toInt, indented, tabs]
    · simp [Sink.indentation, indented, Int.not_lt.mp indented]
  · by_cases blank : 0 < s.blank
    · simp [Text.spaces, Columns.toNat, Columns.toInt, blank]
    · simp [Text.spaces, Columns.toNat, Columns.toInt, blank]
      omega

theorem payable_of_unit (positive : 0 < s.config.unit) : Payable s :=
  ⟨fun zero => absurd positive (by omega), owed_nonneg positive, fun _ => lead_owed positive⟩

end Blanks

theorem accepted_unit {c : Config Int} (accepted : Printer.ofConfig c = .ok p) :
    0 < c.withDefaults.unit := by
  simp only [Printer.ofConfig] at accepted
  split at accepted
  · cases accepted
  · rename_i valid
    have standard : (Config.standard : Config Int).unit = 4 := rfl
    simp only [Config.withDefaults] at valid ⊢
    split at valid <;> omega

section Positions

variable {v : View} {n : Nat} {t : Token Int}

theorem checks_tracks (steady : PrinterSteady n p) (counted : 0 ≤ columns p.config t) (checks : StreamChecked p t q) :
    ∃ v, Tracks (fun _ => False) v q ∧ q.config = p.config := by
  obtain ⟨v, tracks, waits, _⟩ := steady
  cases checks with
  | text s busy =>
    have undecided : v.waiting ≠ [] := by
      intro decided
      rw [(idle_iff tracks).mpr decided] at busy
      cases busy
    exact ⟨_, (hold_tracks (q := withText p s) (t := .text s) tracks waits undecided rfl (fun _ => rfl)
      (width_nonneg _ s) rfl rfl rfl rfl rfl rfl rfl rfl).1, rfl⟩
  | @lineBreak b q r closed last =>
    have heads := writeClosed_heads (b := b) [] tracks waits
    rw [closed] at heads
    obtain ⟨⟨w, tracked, waiting, cleared, _, first⟩, _⟩ := heads
    have heads := resolveLast_heads (b := b) [] tracked waiting cleared
    rw [last] at heads
    obtain ⟨⟨x, settled, counts, gone, inside, _, second⟩, _⟩ := heads
    have positive : 1 ≤ r.leftTotal := counts.elim settled.positive Int.ge_of_eq
    exact ⟨_, (await_tracks (t := .lineBreak b) settled positive (fun _ stop => stop) counted rfl
      (shaped_break settled.shape settled.le gone inside b)).1, (first.trans second).config⟩

theorem checked_tracks (tracks : Tracks (fun _ => False) v p)
    (ran : Printer.checkStreamUpTo n p = .ok q) : ∃ w, Tracks (fun _ => False) w q := by
  have heads := checkStreamUpTo_heads n tracks (by simp [Forward] : Forward p.config [])
  rw [ran] at heads
  obtain ⟨⟨w, tracked, _⟩, _⟩ := heads
  exact ⟨w, tracked⟩

theorem head_waiting {stops : Reach → Prop} {e : Entry Int} (tracks : Tracks stops v p)
    (filled : 0 < p.buf.length) (head : p.buf.front = .ok e) (pending : e.size < 0) :
    p.buf.offset < v.stream.length ∧ p.buf.offset ∈ v.waiting := by
  have inside := tracks_filled tracks filled
  rw [front_cons (tracks_head tracks inside)] at head
  cases head
  exact ⟨inside, (size_negative_iff tracks (Nat.le_refl _) inside).mp pending⟩

/-- A pending head of the buffer is the outermost position of an open group, or a position of a closed
one. -/
theorem pending_head {stops : Reach → Prop} {e : Entry Int} (tracks : Tracks stops v p)
    (filled : 0 < p.buf.length) (head : p.buf.front = .ok e) (pending : e.size < 0) :
    p.scan.toList.head? = some p.buf.frontPos ∨ p.buf.frontPos ∈ p.closed := by
  obtain ⟨_, member⟩ := head_waiting tracks filled head pending
  rcases (mem_waiting v _).mp member with opened | ended
  · obtain ⟨first, rest, order⟩ := List.exists_cons_of_ne_nil (List.ne_nil_of_mem opened)
    have same := opened_first tracks.shape order opened
    refine .inl ?_
    rw [tracks.scan, order, same]
    rfl
  · refine .inr ?_
    rw [tracks.closed]
    exact List.mem_map_of_mem ended

/-- Forcing a pending head takes its position out of those of closed groups, if it is there. -/
theorem breakHead_drops {stops : Reach → Prop} {e : Entry Int} (tracks : Tracks stops v p)
    (filled : 0 < p.buf.length) (head : p.buf.front = .ok e) (pending : e.size < 0) :
    ∃ q, p.breakHead = .ok q ∧ q.closed = p.closed.erase p.buf.frontPos := by
  obtain ⟨inside, member⟩ := head_waiting tracks filled head pending
  obtain ⟨buf, scan, closed, broken, _, _, _, ended⟩ := breakHead_pending tracks inside member
  refine ⟨_, broken, ?_⟩
  rw [tracks.closed]
  exact ended.trans (List.map_erase (fun _ _ same => Int.ofNat.inj same) v.ended)

end Positions

/-- Under an accepted configuration a call fails only by a breach of the contract. On its way, answered
or not, it writes only on pages where what is owed can be written, and a position that it takes out of
those of closed groups is among them. -/
theorem calls_fail_only_by_contract (c : Config Int) (start p : Printer Int) (calls : List (Call Int))
    (k : Call Int) (accepted : Printer.ofConfig c = .ok start) (ran : start.run calls = .ok p) :
    (∀ f, p.call k = .error f → ∃ b, f = .contract b) ∧
      (∀ s, CallPasses p k s → Payable s.page.sink) ∧
      ∀ s, HeadSought p k s → s.buf.frontPos ∈ s.closed ∧
        ∃ q, s.breakHead = .ok q ∧ q.closed = s.closed.erase s.buf.frontPos := by
  have past := run_past accepted ran
  refine ⟨?_, ?_, ?_⟩
  · intro f failed
    rcases call_fails past failed with ⟨_, b, same, _⟩ | ⟨_, t, overhangs⟩
    · exact ⟨b, same⟩
    · cases overhangs with
      | lineBreak | groupStart => exact ⟨_, rfl⟩
  · intro s passes
    have fresh : p.done = false := by cases passes <;> assumption
    obtain ⟨ts, told⟩ := past.told fresh
    obtain ⟨v, tracks, _⟩ := told.ready.steady
    apply payable_of_unit
    rw [passes_keeps passes, tracks.page.config, told.config]
    exact accepted_unit accepted
  · rintro s drops
    cases drops with
    | @round t after q _ e fresh hands admits checks round head pending other =>
      obtain ⟨ts, told⟩ := past.told fresh
      have steady := steady_withScopes told.ready.steady after
      obtain ⟨v, tracks, _⟩ := checks_tracks steady (admits_counted admits _) checks
      obtain ⟨n, ran, _, filled⟩ := round
      obtain ⟨w, tracked⟩ := checked_tracks tracks ran
      exact ⟨(pending_head tracked filled head pending).resolve_left other,
        breakHead_drops tracked filled head pending⟩

/-- A group has ended, with nothing decided, when the text after it goes past the margin. -/
theorem calls_fail_only_by_contract_overflow :
    ∃ start p : Printer Int, Printer.ofConfig ⟨5, 4, false, false⟩ = .ok start ∧
      start.run [.groupStart .consistent 0, .text "aa", Call.space, .text "b", .groupEnd] = .ok p ∧
      ∃ s, HeadSought p (.text "cc") s ∧ s.buf.frontPos ∈ s.closed := by
  obtain ⟨p, run, state⟩ := ok_of_toOption (b := (false, false, some (-1), [], true))
    (x := do
      (← Printer.ofConfig (⟨5, 4, false, false⟩ : Config Int)).run
        [.groupStart .consistent 0, .text "aa", Call.space, .text "b", .groupEnd])
    (f := fun p =>
      let s := withText (withScopes p p.scopes) "cc"
      (p.done, p.idle, (s.buf.front.map Entry.size).toOption, s.scan.toList,
        decide (s.page.sink.space < s.rightTotal - s.leftTotal ∧ 0 < s.buf.length)))
    (by decide +kernel)
  obtain ⟨start, accepted, ran⟩ := bind_ok run
  simp only [Prod.mk.injEq, decide_eq_true_eq] at state
  obtain ⟨fresh, busy, front, scan, wide⟩ := state
  obtain ⟨e, head, size⟩ := ok_of_toOption front
  have drops : HeadSought p (.text "cc") (withText (withScopes p p.scopes) "cc") :=
    .round fresh (.text "cc") (.text "cc") (.text "cc" busy) ⟨0, rfl, wide⟩ head
      (by omega) (by simp [scan])
  exact ⟨start, p, accepted, ran, _, drops,
    ((calls_fail_only_by_contract _ start p _ (.text "cc") accepted ran).2.2 _ drops).1⟩

end Galley.Layout.Safety
