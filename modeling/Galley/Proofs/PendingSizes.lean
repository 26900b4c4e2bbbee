import Galley.Proofs.Reformatting

/-! The sign of a stored size. An entry of the buffer is pending exactly while its size is negative, and is
resolved by adding the total of everything so far. Machine words keep to this as long as the columns that a
printer compares have words: then it pushes pending entries with negative sizes alone, resolves them to sizes
that are not negative, and ends a document with all its texts written. A single break may be as wide as words
allow next to the margin, since it is taken at once. A wider one can turn the total negative: nothing reacts,
and the texts held back are lost. -/
namespace Galley.Layout

/-- A break in words, read as numbers. -/
def Break.numbers (b : Break Int64) : Break Int := ⟨b.kind, b.blank.toInt, b.offset.toInt, b.preBreak⟩

/-- A group in words, read as numbers. -/
def Group.numbers (g : Group Int64) : Group Int := ⟨g.breaks, g.offset.toInt, g.align⟩

/-- A token in words, read as numbers. -/
def Token.numbers : Token Int64 → Token Int
  | .text s => .text s
  | .lineBreak b => .lineBreak b.numbers
  | .groupStart g => .groupStart g.numbers
  | .groupEnd => .groupEnd
  | .indent delta => .indent delta.toInt
  | .missing => .missing

/-- A call in words, read as numbers. -/
def Call.numbers : Call Int64 → Call Int
  | .text s => .text s
  | .lineBreak width offset => .lineBreak width.toInt offset.toInt
  | .hardBreak => .hardBreak
  | .trailingComma => .trailingComma
  | .groupStart breaks offset => .groupStart breaks offset.toInt
  | .alignStart breaks => .alignStart breaks
  | .groupEnd => .groupEnd
  | .indent delta => .indent delta.toInt
  | .outdent => .outdent
  | .emit t => .emit t.numbers
  | .eof => .eof

namespace PendingSizes
open RingQueue Extent PageWriting Pending Tracking
open Lookahead Emission Rendering Discipline Contract Bracketing
open Words Exactness Reformatting
open Boundedness (held asked shown laid_shown)

section States

variable {ι : Type} [Columns ι]

/-- The printers that put a pending token into their buffer while a call is answered. -/
inductive PendingPushed (p : Printer ι) : Printer ι → Prop where
  /-- A group starts, with nothing held back. -/
  | fresh {q : Printer ι} (counted : p.count = .ok q) (idle : q.idle = true) :
      PendingPushed p { q.restart with scopes := [] :: q.scopes }
  | nested {q : Printer ι} (counted : p.count = .ok q) (busy : ¬ q.idle = true) :
      PendingPushed p { q with scopes := [] :: q.scopes }
  | lineBreak {q r s : Printer ι} (counted : p.count = .ok q) (closed : q.writeClosed = .ok r)
      (last : r.resolveLast = .ok s) : PendingPushed p s

/-- The printers that resolve a position while a call is answered. -/
inductive PositionResolved (p : Printer ι) : Printer ι → Int → Prop where
  /-- A break or the end of the document, after some of the closed positions. -/
  | closed {q r : Printer ι} {before after : List Int} {pos : Int} (counted : p.count = .ok q)
      (parts : q.closed = before ++ pos :: after) (ran : before.foldlM Printer.resolve q = .ok r) :
      PositionResolved p r pos
  /-- A break, once what waits for a break of any group is written. -/
  | last {q r : Printer ι} {scan : Ring Int} {pos : Int} (counted : p.count = .ok q)
      (closed : q.writeClosed = .ok r) (popped : r.scan.popBack = .ok (pos, scan)) :
      PositionResolved p { r with scan := scan } pos
  /-- The end of the document, after some of the open positions. -/
  | final {q r s : Printer ι} {scan : Ring Int} {pos : Int} {n : Nat} (counted : p.count = .ok q)
      (closed : q.resolveClosed = .ok r) (ran : Printer.resolveScan n r = .ok s)
      (popped : s.scan.popBack = .ok (pos, scan)) : PositionResolved p { s with scan := scan } pos

/-- A token that is put into the buffer as pending gets a negative size. -/
def Defers (p : Printer ι) : Prop :=
  ∀ t, ∃ e, (p.pushPending t).buf.toList = p.buf.toList ++ [e] ∧ e.token = t ∧ e.size < 0

/-- Resolving a position turns a negative size into one that is not. -/
def Resolves (p : Printer ι) (pos : Int) : Prop :=
  ∃ e q f, p.buf.read pos = .ok e ∧ e.size < 0 ∧ p.resolve pos = .ok q ∧ q.buf.read pos = .ok f ∧ 0 ≤ f.size

/-- Every undecided position has a negative size that ends at zero or more. -/
def SizesOwing (p : Printer ι) : Prop :=
  ∀ pos ∈ p.scan.toList ++ p.closed, ∃ e, p.buf.read pos = .ok e ∧ e.size < 0 ∧ 0 ≤ e.size + p.rightTotal

/-- A text holds others, one after the other. -/
def TextHolds : List Text → Text → Prop
  | [], _ => True
  | t :: ts, whole => ∃ lead rest, whole = lead ++ t ++ rest ∧ TextHolds ts rest

end States

section Resolving

variable {ι : Type} [Columns ι] {p q : Printer ι} {pos : Int} {e : Entry ι}

theorem defers_of_total (negative : -p.rightTotal < 0) : Defers p :=
  fun t => ⟨⟨t, -p.rightTotal⟩, toList_pushBack .., rfl, negative⟩

theorem resolve_read (found : p.buf.read pos = .ok e) :
    ∃ q, p.resolve pos = .ok q ∧ q.buf.read pos = .ok { e with size := e.size + p.rightTotal } := by
  obtain ⟨i, rfl, held⟩ := read_ok found
  obtain ⟨bounded, _⟩ := List.getElem?_eq_some_iff.mp held
  obtain ⟨buf, written, replaced, still⟩ := write_at (r := p.buf) bounded { e with size := e.size + p.rightTotal }
  refine ⟨{ p with buf := buf }, ?_, ?_⟩
  · simp only [Printer.resolve, found, queue, ok_bind, written]
    rfl
  · rw [← still]
    exact read_at (by rw [replaced, List.getElem?_set_self bounded])

/-- Resolving a position leaves the others as they are. -/
theorem resolve_apart (ran : p.resolve pos = .ok q) :
    q.rightTotal = p.rightTotal ∧ q.scan = p.scan ∧
      ∀ other f, other ≠ pos → p.buf.read other = .ok f → q.buf.read other = .ok f := by
  obtain ⟨i, e, buf, rfl, -, rfl, replaced, still⟩ := resolve_ok ran
  refine ⟨rfl, rfl, fun other f apart found => ?_⟩
  obtain ⟨j, rfl, kept⟩ := read_ok found
  rw [← still]
  refine read_at ?_
  rw [replaced, List.getElem?_set_ne (by omega)]
  exact kept

theorem resolveAll_apart {positions : List Int} (ran : positions.foldlM Printer.resolve p = .ok q)
    (apart : pos ∉ positions) (found : p.buf.read pos = .ok e) :
    q.buf.read pos = .ok e ∧ q.rightTotal = p.rightTotal := by
  induction positions generalizing p with
  | nil =>
    cases ran
    exact ⟨found, rfl⟩
  | cons first positions ih =>
    rw [List.foldlM_cons] at ran
    obtain ⟨r, resolved, later⟩ := bind_ok ran
    obtain ⟨other, further⟩ := not_or.mp (mt List.mem_cons.mpr apart)
    obtain ⟨total, _, kept⟩ := resolve_apart resolved
    obtain ⟨read, same⟩ := ih later further (kept pos e other found)
    exact ⟨read, same.trans total⟩

/-- The end of a document resolves some last positions of open groups, and leaves the others as they are. -/
theorem resolveScan_apart {n : Nat} (ran : Printer.resolveScan n p = .ok q) :
    ∃ gone, p.scan.toList = q.scan.toList ++ gone ∧ q.rightTotal = p.rightTotal ∧
      ∀ pos e, pos ∉ gone → p.buf.read pos = .ok e → q.buf.read pos = .ok e := by
  induction n generalizing p with
  | zero =>
    cases ran
    exact ⟨[], (List.append_nil _).symm, rfl, fun _ _ _ found => found⟩
  | succ n ih =>
    unfold Printer.resolveScan at ran
    split at ran
    · cases ran
      exact ⟨[], (List.append_nil _).symm, rfl, fun _ _ _ found => found⟩
    · obtain ⟨⟨last, scan⟩, popped, later⟩ := bind_ok ran
      obtain ⟨r, resolved, rest⟩ := bind_ok later
      obtain ⟨total, same, kept⟩ := resolve_apart resolved
      obtain ⟨gone, parts, right, read⟩ := ih rest
      refine ⟨gone ++ [last], ?_, right.trans total, fun pos e apart found => ?_⟩
      · rw [popBack_ok (queue_ok popped), ← List.append_assoc, ← parts, same]
      · obtain ⟨further, other⟩ := not_or.mp (mt List.mem_append.mpr apart)
        exact read pos e further (kept pos e (List.ne_of_not_mem_cons other) found)

theorem resolves_of_read (found : p.buf.read pos = .ok e) (negative : e.size < 0)
    (total : 0 ≤ e.size + p.rightTotal) : Resolves p pos := by
  obtain ⟨q, ran, read⟩ := resolve_read found
  exact ⟨e, q, _, found, negative, ran, read, total⟩

/-- After some of the closed positions another one is resolved. -/
theorem closed_resolves {before after : List Int} (owing : SizesOwing p) (distinct : (p.scan.toList ++ p.closed).Nodup)
    (parts : p.closed = before ++ pos :: after) (ran : before.foldlM Printer.resolve p = .ok q) :
    Resolves q pos := by
  have apart : pos ∉ before := by
    have own := (List.nodup_append.mp distinct).2.1
    rw [parts] at own
    exact fun member => (List.nodup_append.mp own).2.2 pos member pos (by simp) rfl
  obtain ⟨e, found, negative, total⟩ := owing pos (by simp [parts])
  obtain ⟨read, same⟩ := resolveAll_apart ran apart found
  exact resolves_of_read read negative (same ▸ total)

/-- After some of the open positions another one is resolved. -/
theorem scan_resolves {n : Nat} {scan : Ring Int} (owing : SizesOwing p) (distinct : (p.scan.toList ++ p.closed).Nodup)
    (ran : Printer.resolveScan n p = .ok q) (popped : q.scan.popBack = .ok (pos, scan)) :
    Resolves { q with scan := scan } pos := by
  obtain ⟨gone, parts, same, kept⟩ := resolveScan_apart ran
  have last := popBack_ok popped
  have apart : pos ∉ gone := by
    have own := (List.nodup_append.mp distinct).1
    rw [parts] at own
    exact fun member => (List.nodup_append.mp own).2.2 pos (by simp [last]) pos member rfl
  obtain ⟨e, found, negative, total⟩ := owing pos (by simp [parts, last])
  exact resolves_of_read (p := { q with scan := scan }) (kept pos e apart found) negative (same ▸ total)

end Resolving

section Counting

variable {stops : Reach → Prop} {v : View} {p q : Printer Int} {bound : Int}

theorem mem_of_read {pos : Int} {e : Entry Int} (found : p.buf.read pos = .ok e) : e ∈ p.buf.toList := by
  obtain ⟨i, _, held⟩ := read_ok found
  exact List.mem_of_getElem? held

theorem read_words {pos : Int} {e : Entry Int} (found : p.buf.read pos = .ok e) :
    p.words.buf.read pos = .ok e.words := by
  have seen := read_seen Entry.words p.buf pos
  rw [found] at seen
  exact seen

/-- The undecided positions of a printer whose numbers have words end at zero or more in words. -/
theorem owing_words (tracks : Tracks stops v p) (roomy : PrinterRoomy bound p) : SizesOwing p.words := by
  intro pos member
  obtain ⟨i, waits, rfl⟩ : ∃ i ∈ v.waiting, (i : Int) = pos := by
    simpa [Printer.words, tracks.scan, tracks.closed, positions, View.waiting, or_and_right, exists_or]
      using member
  obtain ⟨low, high⟩ := tracks.shape.bounds i waits
  have found := read_entry tracks.buf low (List.getElem?_eq_getElem high)
  have negative := (size_negative_iff tracks low high).mpr waits
  have sized := roomy.entries _ (mem_of_read found)
  have total : v.size p.config i + p.rightTotal = columnsOf p.config (v.stream.drop i) := by
    have split := columnsOf_append p.config (v.stream.take i) (v.stream.drop i)
    rw [List.take_append_drop] at split
    rw [size_waiting waits, tracks.right]
    omega
  have counted : 0 ≤ columnsOf p.config (v.stream.drop i) :=
    columnsOf_nonneg fun t member => tracks.forward t (List.mem_of_mem_drop member)
  have fits : Fits (v.size p.config i + p.rightTotal) := by
    have ahead := roomy.ahead
    rw [held, tracks_tokens tracks] at ahead
    have behind := columnsOf_drop_le tracks.forward low
    rw [total]
    exact ⟨Int.le_trans (by decide) counted, Int.lt_of_le_of_lt behind ahead.2⟩
  refine ⟨_, read_words found, (word_neg sized.fits).mpr negative, ?_⟩
  show 0 ≤ word (v.size p.config i) + word p.rightTotal
  rw [← Int64.ofInt_add, ← word_zero]
  exact (word_le fits_zero fits).mpr (total ▸ counted)

/-- The sign of a size in words tells the undecided from the decided. -/
theorem pending_words (tracks : Tracks stops v p) (roomy : PrinterRoomy bound p) (pos : Int) :
    pos ∈ p.words.scan.toList ++ p.words.closed ↔ ∃ e, p.words.buf.read pos = .ok e ∧ e.size < 0 := by
  rw [show p.words.scan.toList ++ p.words.closed = p.scan.toList ++ p.closed from rfl,
    PrinterState.mem_pending tracks]
  have seen := read_seen Entry.words p.buf pos
  constructor
  · rintro ⟨e, found, negative⟩
    exact ⟨_, read_words found, (word_neg (roomy.entries e (mem_of_read found)).fits).mpr negative⟩
  · rintro ⟨e, found, negative⟩
    rw [show p.words.buf = p.buf.map Entry.words from rfl, seen] at found
    cases read : p.buf.read pos with
    | error f =>
      rw [read] at found
      cases found
    | ok d =>
      rw [read] at found
      cases found
      exact ⟨d, rfl, (word_neg (roomy.entries d (mem_of_read read)).fits).mp negative⟩

/-- What a poised printer pushes as pending has a negative size in words. -/
theorem poised_words (poised : PrinterPoised bound p) (room : bound ≤ most) : -p.words.rightTotal < 0 := by
  obtain ⟨least, upper⟩ := poised_total poised
  have total : -p.words.rightTotal = word (-p.rightTotal) := (Int64.ofInt_neg _).symm
  rw [total]
  exact (word_neg (fits_within room (by omega) (by omega))).mpr (by omega)

/-- What ends well in words ends well. -/
theorem ok_of_seen {x : Except Fault (Printer Int)} {y : Except Fault (Printer Int64)} {q : Printer Int64}
    (seen : y = Printer.words <$> x) (ran : y = .ok q) : ∃ r, x = .ok r ∧ q = r.words := by
  cases x with
  | error f =>
    rw [seen] at ran
    cases ran
  | ok r =>
    rw [seen] at ran
    cases ran
    exact ⟨r, rfl, rfl⟩

theorem count_of_words {q : Printer Int64} (rested : PrinterRested bound p) (counted : p.words.count = .ok q) :
    ∃ r, q = r.words ∧ PrinterRested bound r ∧ r = withScopes p p.scopes := by
  obtain ⟨r, ran, same⟩ := ok_of_seen (count_words p) counted
  unfold Printer.count at ran
  split at ran
  · cases ran
  · cases ran
    exact ⟨_, same, withScopes_rested rested p.scopes, rfl⟩

variable {n : Nat}

theorem awaits_defers {q : Printer Int64} (steady : PrinterSteady n p) (rested : PrinterRested bound p)
    (room : bound ≤ most) (awaits : PendingPushed p.words q) : Defers q := by
  refine defers_of_total ?_
  cases awaits with
  | fresh counted idle =>
    show -(1 : Int64) < 0
    decide
  | @nested q counted busy =>
    obtain ⟨r, rfl, ready, _⟩ := count_of_words rested counted
    show -r.words.rightTotal < 0
    exact poised_words (poised_busy ready busy) room
  | lineBreak counted closed last =>
    obtain ⟨r, rfl, ready, rfl⟩ := count_of_words rested counted
    obtain ⟨v, tracks, waits, _⟩ := steady_withScopes steady p.scopes
    obtain ⟨s, written, rfl⟩ := ok_of_seen (writeClosed_seen tracks ready.toCountsWithin room).same closed
    obtain ⟨t, resolved, rfl⟩ := ok_of_seen (resolveLast_words s) last
    exact poised_words (writeClosed_poised tracks waits ready.toCountsWithin room ready.slim written resolved).1 room

theorem settles_resolves {q : Printer Int64} {pos : Int} (steady : PrinterSteady n p) (rested : PrinterRested bound p)
    (room : bound ≤ most) (settles : PositionResolved p.words q pos) : Resolves q pos := by
  obtain ⟨v, tracks, waits, _⟩ := steady_withScopes steady p.scopes
  cases settles with
  | closed counted parts ran =>
    obtain ⟨r, rfl, ready, rfl⟩ := count_of_words rested counted
    exact closed_resolves (owing_words tracks ready.toPrinterRoomy) (PrinterState.pending_distinct tracks) parts ran
  | last counted closed popped =>
    obtain ⟨r, rfl, ready, rfl⟩ := count_of_words rested counted
    have seen := writeClosed_seen tracks ready.toCountsWithin room
    obtain ⟨s, written, rfl⟩ := ok_of_seen seen.same closed
    have heads := writeClosed_heads (b := ⟨.zero, 0, 0, []⟩) [] tracks waits
    rw [written] at heads
    obtain ⟨⟨w, tracked, _⟩, _⟩ := heads
    obtain ⟨e, found, negative, total⟩ := owing_words tracked (seen.roomy s written) pos
      (by simp [popBack_ok popped])
    exact resolves_of_read (p := { s.words with scan := _ }) found negative total
  | final counted closed ran popped =>
    obtain ⟨r, rfl, ready, rfl⟩ := count_of_words rested counted
    have seen := resolveClosed_seen tracks ready.toCountsWithin room
    obtain ⟨s, resolved, rfl⟩ := ok_of_seen seen.same closed
    have roomy := seen.roomy s resolved
    obtain ⟨buf, run, _, tracked⟩ := resolveClosed_tracks tracks
    rw [run] at resolved
    cases resolved
    exact scan_resolves (owing_words tracked roomy) (PrinterState.pending_distinct tracked) ran popped

end Counting

section Numbers

variable (c : Config Int) {s : Standing} {k : Call Int} {calls : List (Call Int)}

/-- The columns of the text that a call asks for. -/
def inkOf (k : Call Int) : Int := ((asked k).map c.width).getD 0

/-- The columns that a call asks for between texts. -/
def blankOf : Call Int → Int
  | .lineBreak width _ => width
  | .emit (.lineBreak b) => if b.kind = .hard then 0 else b.blank
  | _ => 0

/-- The columns by which a call moves lines to the right. -/
def riseOf : Call Int → Int
  | .lineBreak _ offset | .groupStart _ offset => offset.toNat
  | .indent delta => delta.toNat
  | .emit t => (moves t).toNat
  | _ => 0

/-- Something counted over calls. -/
def total (count : Call Int → Int) : List (Call Int) → Int
  | [] => 0
  | k :: calls => count k + total count calls

/-- Calls that are not too many, with not too much text, whose breaks have words next to the margin and which
do not move lines to where columns have no words. -/
structure Moderate (calls : List (Call Int)) : Prop where
  few : calls.length < 0x80000000
  light : total (inkOf c) calls < 0x80000000
  blanks : ∀ k ∈ calls, c.withDefaults.margin + blankOf k < 0x8000000000000000
  rises : total riseOf calls < 0x7fff000000000000

/-- The columns that a call adds at most. A break that is wider than a line adds none. -/
def price (k : Call Int) : Int := inkOf c k + riseOf k + infiniteWidth

/-- The columns that there are at most after some calls. -/
def reach (calls : List (Call Int)) : Int := c.withDefaults.margin + total (price c) calls

theorem total_append (count : Call Int → Int) (calls more : List (Call Int)) :
    total count (calls ++ more) = total count calls + total count more := by
  induction calls with
  | nil => exact (Int.zero_add _).symm
  | cons k calls ih => simp only [List.cons_append, total, ih, Int.add_assoc]

theorem inkOf_nonneg (k : Call Int) : 0 ≤ inkOf c k := by
  unfold inkOf
  cases asked k with
  | none => exact Int.le_refl 0
  | some s => exact width_nonneg c s

theorem riseOf_nonneg (k : Call Int) : 0 ≤ riseOf k := by
  cases k <;> simp only [riseOf] <;> omega

theorem total_price (calls : List (Call Int)) :
    total (price c) calls = total (inkOf c) calls + total riseOf calls + 0xffff * calls.length := by
  have wide : (infiniteWidth : Int) = 0xffff := rfl
  induction calls with
  | nil => rfl
  | cons k calls ih =>
    simp only [total, price, ih, List.length_cons, wide]
    omega

theorem reach_concat (calls : List (Call Int)) (k : Call Int) :
    reach c (calls ++ [k]) = reach c calls + price c k := by
  simp only [reach, total_append, total]
  omega

variable {c}

theorem moderate_concat (moderate : Moderate c (calls ++ [k])) :
    Moderate c calls ∧ c.withDefaults.margin + blankOf k < 0x8000000000000000 := by
  obtain ⟨few, light, blanks, rises⟩ := moderate
  have ink := inkOf_nonneg c k
  have rise := riseOf_nonneg k
  simp only [List.length_append, List.length_singleton, total_append, total] at few light rises
  exact ⟨⟨by omega, by omega, fun j member => blanks j (by simp [member]), by omega⟩, blanks k (by simp)⟩

theorem reach_le_most (margin : c.withDefaults.margin < infiniteWidth) (moderate : Moderate c calls) :
    reach c calls ≤ most := by
  have wide : (infiniteWidth : Int) = 0xffff := rfl
  obtain ⟨few, light, _, rises⟩ := moderate
  simp only [reach, total_price, most]
  omega

/-- The indentation that is open has been added with numbers that have words. -/
def IndentGrown (s : Standing) : Prop := ∀ scope ∈ s.scopes, ∀ d ∈ scope, 0 ≤ d ∧ d ≤ most

theorem grown_active (grown : IndentGrown s) : ∀ d ∈ s.active, 0 ≤ d ∧ d ≤ most := by
  intro d found
  obtain ⟨scope, first, top⟩ := Option.bind_eq_some_iff.mp found
  exact grown scope (List.mem_of_head? first) d (List.mem_of_head? top)

theorem grown_push {d : Int} (grown : IndentGrown s) (counted : 0 ≤ d ∧ d ≤ most) : IndentGrown (s.push d) := by
  obtain ⟨scopes, ended⟩ := s
  cases scopes with
  | nil => exact grown
  | cons scope outer =>
    obtain ⟨first, rest⟩ := List.forall_mem_cons.mp grown
    exact List.forall_mem_cons.mpr ⟨List.forall_mem_cons.mpr ⟨counted, first⟩, rest⟩

theorem grown_pop (grown : IndentGrown s) : IndentGrown s.pop := by
  obtain ⟨scopes, ended⟩ := s
  cases scopes with
  | nil => exact grown
  | cons scope outer =>
    obtain ⟨first, rest⟩ := List.forall_mem_cons.mp grown
    exact List.forall_mem_cons.mpr ⟨fun d member => first d (List.mem_of_mem_tail member), rest⟩

theorem toInt_fits (n : Int64) : Fits n.toInt := ⟨Int64.le_toInt n, Int64.toInt_lt n⟩

theorem toInt_le_most (n : Int64) : n.toInt ≤ most := Int.lt_add_one_iff.mp (toInt_fits n).2

theorem grown_after {j : Call Int64} (grown : IndentGrown s) (proper : s.offends j.numbers = false) :
    IndentGrown (s.after j.numbers) := by
  obtain ⟨_, proper⟩ := Bool.or_eq_false_iff.mp proper
  have opened : IndentGrown { s with scopes := [] :: s.scopes } :=
    List.forall_mem_cons.mpr ⟨by simp, grown⟩
  have closed : IndentGrown { s with scopes := s.scopes.tail } :=
    fun scope member => grown scope (List.mem_of_mem_tail member)
  cases j with
  | groupStart | alignStart => exact opened
  | groupEnd => exact closed
  | indent delta =>
    have counted : ¬ delta.toInt < 0 := of_decide_eq_false proper
    exact grown_push grown ⟨Int.not_lt.mp counted, toInt_le_most delta⟩
  | outdent => exact grown_pop grown
  | emit t =>
    cases t with
    | groupStart g => exact opened
    | groupEnd => exact closed
    | indent delta =>
      simp only [Call.numbers, Token.numbers, Standing.after]
      split
      · exact grown_push grown ⟨by assumption, toInt_le_most delta⟩
      · exact grown_pop grown
    | _ => exact grown
  | _ => exact grown

theorem grown_standing {calls : List (Call Int64)} (proper : Disciplined (calls.map Call.numbers)) :
    IndentGrown (standing (calls.map Call.numbers)) := by
  induction calls using List.reverseRecOn with
  | nil => exact List.forall_mem_cons.mpr ⟨by simp, by simp⟩
  | append_singleton calls j ih =>
    rw [List.map_append, List.map_singleton] at proper ⊢
    obtain ⟨before, last⟩ := disciplined_concat.mp proper
    rw [standing_concat]
    exact grown_after (ih before) last

theorem moves_plain (t : Token Int) : moves (plain t) = moves t := by
  cases t with
  | lineBreak b => by_cases hard : b.kind = .hard <;> simp [plain, moves, hard]
  | _ => rfl

theorem moves_fits (grown : IndentGrown s) (j : Call Int64) : Fits (moves (tokenAt s j.numbers)) := by
  cases j with
  | lineBreak _ offset | groupStart _ offset => exact toInt_fits offset
  | indent delta => exact toInt_fits delta
  | outdent =>
    have active := grown_active grown
    simp only [Call.numbers, tokenAt, moves]
    cases found : s.active with
    | none => exact fits_zero
    | some d =>
      obtain ⟨least, upper⟩ := active d found
      simp only [most] at upper
      exact ⟨by simp only [Option.getD_some]; omega, by simp only [Option.getD_some]; omega⟩
  | emit t =>
    rw [Call.numbers, tokenAt, moves_plain]
    cases t with
    | lineBreak b => exact toInt_fits b.offset
    | groupStart g => exact toInt_fits g.offset
    | indent delta => exact toInt_fits delta
    | _ => exact fits_zero
  | _ => exact fits_zero

theorem blankOf_fits (j : Call Int64) : Fits (blankOf j.numbers) := by
  cases j with
  | lineBreak width offset => exact toInt_fits width
  | emit t =>
    cases t with
    | lineBreak b =>
      simp only [Call.numbers, Token.numbers, blankOf, Break.numbers]
      split
      · exact fits_zero
      · exact toInt_fits b.blank
    | _ => exact fits_zero
  | _ => exact fits_zero

/-- What a token takes on a line is the width of a text or of a break, or more than any line has. -/
theorem columns_tokenAt (s : Standing) (k : Call Int) :
    columns c.withDefaults (tokenAt s k) = inkOf c k ∨ columns c.withDefaults (tokenAt s k) = blankOf k ∨
      columns c.withDefaults (tokenAt s k) = infiniteWidth := by
  cases k with
  | text t => exact .inl rfl
  | lineBreak width offset =>
    refine .inr (.inl ?_)
    by_cases none : width = 0 <;> simp [tokenAt, columns, Break.width, blankOf, none]
  | hardBreak => exact .inr (.inr rfl)
  | emit t =>
    cases t with
    | text t => exact .inl rfl
    | lineBreak b =>
      by_cases hard : b.kind = .hard
      · exact .inr (.inr (by simp [tokenAt, plain, columns, Break.width, hard]))
      · exact .inr (.inl (by simp [tokenAt, plain, columns, Break.width, blankOf, hard]))
    | _ => exact .inl rfl
  | _ => exact .inl rfl

theorem break_cost (b : Break Int) (margin : c.margin < infiniteWidth) :
    cost c (.lineBreak b) ≤ b.offset.toNat + infiniteWidth := by
  have wide : (infiniteWidth : Int) = 0xffff := rfl
  simp only [cost]
  split <;> omega

theorem cost_le_price (grown : IndentGrown s) (margin : c.withDefaults.margin < infiniteWidth) (k : Call Int) :
    cost c.withDefaults (tokenAt s k) ≤ price c k := by
  have wide : (infiniteWidth : Int) = 0xffff := rfl
  have moved {n : Int} (rises : n ≤ riseOf k + infiniteWidth) : n ≤ price c k := by
    have ink := inkOf_nonneg c k
    simp only [price]
    omega
  have level {n : Int} (same : n = riseOf k) : n ≤ price c k := moved (by omega)
  have none {n : Int} (same : n = 0) : n ≤ price c k := moved (by have rise := riseOf_nonneg k; omega)
  cases k with
  | text t => exact Int.le_add_of_nonneg_right (by decide : (0 : Int) ≤ infiniteWidth)
  | lineBreak | hardBreak | trailingComma => exact moved (break_cost _ margin)
  | groupStart | indent => exact level rfl
  | outdent =>
    refine none ?_
    simp only [tokenAt, cost]
    cases found : s.active with
    | none => rfl
    | some d =>
      have counted := (grown_active grown d found).1
      simp only [Option.getD_some]
      omega
  | emit t =>
    cases t with
    | text t => exact Int.le_add_of_nonneg_right (by decide : (0 : Int) ≤ infiniteWidth)
    | lineBreak b =>
      refine moved ?_
      rw [riseOf, ← moves_plain]
      exact break_cost _ margin
    | groupStart | indent => exact level rfl
    | _ => exact none rfl
  | _ => exact none rfl

/-- The token of a call in words has words, if there is room for what it adds and its break has one next to
the margin. -/
theorem numbers_fair {bound : Int} {j : Call Int64} (grown : IndentGrown s)
    (line : 0 ≤ c.withDefaults.margin ∧ c.withDefaults.margin ≤ bound)
    (margin : c.withDefaults.margin < infiniteWidth) (room : bound + price c j.numbers ≤ most)
    (blank : c.withDefaults.margin + blankOf j.numbers < 0x8000000000000000) :
    TokenFair bound c.withDefaults (tokenAt s j.numbers) := by
  have wide : (infiniteWidth : Int) = 0xffff := rfl
  have cheap := cost_le_price grown margin j.numbers
  have ink := inkOf_nonneg c j.numbers
  have rise := riseOf_nonneg j.numbers
  obtain ⟨least, _⟩ := blankOf_fits j
  have taken : -0x8000000000000000 ≤ columns c.withDefaults (tokenAt s j.numbers) ∧
      c.withDefaults.margin + columns c.withDefaults (tokenAt s j.numbers) ≤ most := by
    simp only [price, most] at room ⊢
    rcases columns_tokenAt (c := c) s j.numbers with same | same | same <;> omega
  have ahead := taken.2
  simp only [most] at ahead
  exact ⟨by omega, moves_fits grown j, ⟨taken.1, by omega⟩, taken.2⟩

theorem token_words (t : Token Int64) : t.numbers.words = t := by
  cases t <;> simp [Token.numbers, Token.words, Break.numbers, Break.words, Group.numbers, Group.words]

theorem call_words (j : Call Int64) : j.numbers.words = j := by
  cases j <;> simp [Call.numbers, Call.words, token_words]

end Numbers

section Runs

variable {c : Config Int} {start p q : Printer Int} {calls : List (Call Int64)}

/-- Moderate calls are answered in words as they are answered. -/
theorem run_moderate (accepted : Printer.ofConfig c = .ok start) (margin : Fits c.margin) (unit : Fits c.unit)
    (moderate : Moderate c (calls.map Call.numbers)) :
    SeenInWords (reach c (calls.map Call.numbers)) (start.run (calls.map Call.numbers)) (start.words.run calls) := by
  have wide := accepted_margin accepted
  induction calls using List.reverseRecOn with
  | nil => exact seen_ok (start_seen accepted margin unit)
  | append_singleton calls j ih =>
    have room := reach_le_most wide moderate
    have split : start.words.run (calls ++ [j]) = start.words.run calls >>= fun p => p.call j := by
      simp only [Printer.run, List.foldlM_append, List.foldlM_cons, List.foldlM_nil, bind_pure]
    rw [List.map_append, List.map_singleton] at moderate room ⊢
    obtain ⟨before, blank⟩ := moderate_concat moderate
    have space := reach_le_most wide before
    rw [run_concat, split]
    rw [reach_concat] at room ⊢
    refine seen_bind (ih before) fun p ran roomy => ?_
    have grown := grown_standing (run_past accepted ran).proper
    have line := roomy_margin roomy
    rw [(run_rested accepted ran roomy.toCountsWithin space).2.2] at line
    have fair := numbers_fair grown line wide room blank
    have seen := step_fair accepted ran roomy space (fun _ _ => grown_active grown) fair
    rw [call_words] at seen
    exact seen_mono seen (Int.add_le_add_left (cost_le_price grown wide j.numbers) _)

/-- When a document ends, its texts are on the page. -/
theorem finish_shown {calls : List (Call Int)} {ts : List (Token Int)} (told : PrinterTold c calls ts p)
    (ran : p.finish = .ok q) : q.page.sink.marks.reverse.filterMap shown = calls.filterMap asked := by
  have heads := finish_heads told.ready (finish_closed told.ready ran)
  rw [ran] at heads
  obtain ⟨⟨steady, idle, _⟩, same⟩ := heads
  exact laid_shown told (same.symm.trans (outlook_idle steady idle))

theorem marks_hold (marks : List (Mark Int)) :
    TextHolds (marks.filterMap shown) (marks.flatMap Mark.spelling) := by
  have later {texts : List Text} {whole : Text} (lead : Text) (holds : TextHolds texts whole) :
      TextHolds texts (lead ++ whole) := by
    cases texts with
    | nil => trivial
    | cons t ts =>
      obtain ⟨before, rest, rfl, holds⟩ := holds
      exact ⟨lead ++ before, rest, by simp, holds⟩
  induction marks with
  | nil => trivial
  | cons m marks ih =>
    cases m with
    | text lead s => exact ⟨lead, _, rfl, ih⟩
    | _ => exact later _ ih

/-- The sign of a size tells the pending entries in words too, as long as every break has a word next to the
margin and lines are not moved to where columns have none. -/
theorem pending_sizes_negative {c : Config Int64} {start p : Printer Int64} {calls : List (Call Int64)}
    (accepted : Printer.ofConfig c = .ok start) (ran : start.run calls = .ok p)
    (moderate : Moderate c.numbers (calls.map Call.numbers)) :
    (∀ pos, pos ∈ p.scan.toList ++ p.closed ↔ ∃ e, p.buf.read pos = .ok e ∧ e.size < 0) ∧
      (∀ q, PendingPushed p q → Defers q) ∧ (∀ q pos, PositionResolved p q pos → Resolves q pos) ∧
      ∀ q, p.call .eof = .ok q →
        q.buf.toList = [] ∧ TextHolds ((calls.map Call.numbers).filterMap asked) q.output := by
  obtain ⟨margin, unit⟩ := numbers_fits c
  have begins := ofConfig_words margin unit
  rw [numbers_words] at begins
  obtain ⟨begun, counted, rfl⟩ := ok_of_seen begins accepted
  have seen := run_moderate counted margin unit moderate
  obtain ⟨r, told, rfl⟩ := ok_of_seen seen.same ran
  have room := reach_le_most (accepted_margin counted) moderate
  have roomy := seen.roomy r told
  obtain ⟨reached, rested, _⟩ := run_rested counted told roomy.toCountsWithin room
  obtain ⟨v, tracks, _⟩ := reached.steady
  refine ⟨pending_words tracks roomy, fun q => awaits_defers reached.steady rested room,
    fun q pos => settles_resolves reached.steady rested room, fun q ended => ?_⟩
  obtain ⟨s, finished, rfl⟩ := ok_of_seen (finish_seen reached.steady reached.inside rested room).same ended
  obtain ⟨fresh, _⟩ := call_cases reached.inside (k := .eof) finished
  obtain ⟨ts, told⟩ := (run_past counted told).told fresh
  obtain ⟨_, drained⟩ := PrinterState.finish_drained told.ready finished
  refine ⟨?_, ?_⟩
  · rw [show s.words.buf = s.buf.map Entry.words from rfl, toList_seen, drained.buf, List.map_nil]
  · rw [output_words, ← finish_shown told finished]
    exact marks_hold _

/-- The widest break that has a word next to the margin, before a group that is pending when the document
ends. -/
theorem pending_sizes_negative_widest :
    let c : Config Int64 := ⟨80, 4, false, false⟩
    let calls : List (Call Int64) := [.groupStart .consistent 0, .text "a", .lineBreak 0x7fffffffffffffaf 0,
      .text "b", .groupStart .consistent 0, .lineBreak 1 0, .text "c", .groupEnd, .groupEnd]
    ∃ start p q, Printer.ofConfig c = .ok start ∧ start.run calls = .ok p ∧ p.call .eof = .ok q ∧
      Moderate c.numbers (calls.map Call.numbers) ∧ p.scan.toList ++ p.closed = [4, 3] ∧
      (∃ e, p.buf.read 3 = .ok e ∧ e.size < 0) ∧ (∀ q, PendingPushed p q → Defers q) ∧
      (∀ q pos, PositionResolved p q pos → Resolves q pos) ∧ q.buf.toList = [] ∧ TextHolds ["a", "b", "c"] q.output ∧
      q.output = "a\nb c" := by
  intro c calls
  obtain ⟨⟨p, q⟩, run, state⟩ := PrinterState.ok_of_toOption (b := ([4, 3], "a\nb c"))
    (x := do
      let start ← Printer.ofConfig c
      let p ← start.run calls
      let q ← p.call .eof
      return (p, q))
    (f := fun states => (states.1.scan.toList ++ states.1.closed, states.2.output)) (by decide +kernel)
  obtain ⟨start, accepted, rest⟩ := bind_ok run
  obtain ⟨p, ran, rest⟩ := bind_ok rest
  obtain ⟨q, ended, rest⟩ := bind_ok rest
  cases rest
  obtain ⟨undecided, output⟩ := Prod.mk.inj state
  have moderate : Moderate c.numbers (calls.map Call.numbers) :=
    ⟨by decide +kernel, by decide +kernel, by decide +kernel, by decide +kernel⟩
  obtain ⟨pending, awaits, settles, eof⟩ := pending_sizes_negative accepted ran moderate
  obtain ⟨empty, texts⟩ := eof q ended
  exact ⟨start, p, q, accepted, ran, ended, moderate, undecided, (pending 3).mp (by simp [undecided]), awaits,
    settles, empty, texts, output⟩

/-- A document ends well with nothing undecided, but with entries that look pending: they are never written. -/
def EntriesStranded (c : Config Int64) (calls : List (Call Int64)) (output : Text) : Prop :=
  ∃ q, Printer.print c calls = .ok q ∧ q.scan.toList ++ q.closed = [] ∧
    (∃ e ∈ q.buf.toList, e.size < 0) ∧ q.output = output

/-- A break of the largest width strands a whole document, and so do two of half of it after a line that is
moved too far. -/
theorem texts_stranded :
    EntriesStranded ⟨80, 4, false, false⟩
      [.groupStart .consistent 0, .text "a", .lineBreak 0x7fffffffffffffff 0, .text "b", .groupEnd] [] ∧
    EntriesStranded ⟨1, 0x7fffffffffffffff, true, false⟩
      [.emit (.lineBreak ⟨.hard, 0, 0x7fffffffffffffff, []⟩), .text "abc", .groupStart .consistent 0,
        .lineBreak 0x4000000000000000 0, .lineBreak 0x4000000000000000 0, .text "x", .groupEnd] "\n\tabc" := by
  have stranded {c : Config Int64} {calls : List (Call Int64)} {output : Text}
      (found : ((Printer.print c calls).map fun q => (q.scan.toList ++ q.closed,
        decide (∃ e ∈ q.buf.toList, e.size < 0), q.output)).toOption = some ([], true, output)) :
      EntriesStranded c calls output := by
    obtain ⟨q, printed, state⟩ := PrinterState.ok_of_toOption found
    simp only [Prod.mk.injEq, decide_eq_true_eq] at state
    exact ⟨q, printed, state⟩
  exact ⟨stranded (by decide +kernel), stranded (by decide +kernel)⟩

end Runs

end PendingSizes

end Galley.Layout
