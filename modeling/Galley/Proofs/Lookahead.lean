import Galley.Proofs.Tracking

/-! A printer with bounded lookahead writes the page that exact sizes give. Every token it takes in
leaves it heading for the same page as before, and at the end of the document nothing is left to
be written. -/
namespace Galley.Layout.Lookahead
open RingQueue Extent PageWriting Pending Tracking

/-- A printer between two calls, with some groups open, the document itself counted. -/
def PrinterSteady (n : Nat) (p : Printer Int) : Prop :=
  ∃ v, Tracks (fun _ => False) v p ∧ HeadWaits v p ∧ v.depth = n

variable {stops : Reach → Prop} {v : View} {p : Printer Int} {n m : Nat}

theorem idle_iff (tracks : Tracks stops v p) : p.idle = true ↔ v.waiting = [] := by
  simp [Printer.idle, scan_length tracks, tracks.closed, positions, View.waiting]

/-- Nothing undecided, nothing held back. -/
theorem all_written (waits : HeadWaits v p) (decided : v.waiting = []) : ¬ p.buf.offset < v.stream.length := by
  intro filled
  have member := waits filled
  simp [decided] at member

/-- Something undecided is held back. -/
theorem some_held (tracks : Tracks stops v p) (undecided : v.waiting ≠ []) :
    p.buf.offset < v.stream.length := by
  obtain ⟨i, member⟩ := List.exists_mem_of_ne_nil _ undecided
  have bound := tracks.shape.bounds i member
  omega

theorem shaped_depth {offset : Nat} (shaped : StreamShaped stops offset v) (n : Nat) :
    StreamShaped stops offset { v with depth := n } :=
  ⟨shaped.bounds, shaped.distinct, shaped.ascending, shaped.nested, shaped.line, shaped.settled⟩

theorem tracks_mono {wider : Reach → Prop} (tracks : Tracks stops v p)
    (wide : ∀ r, stops r → wider r) : Tracks wider v p :=
  { tracks with shape := shaped_mono tracks.shape wide }

/-- With nothing held back, totals may start anew. -/
theorem restart_tracks (tracks : Tracks stops v p) (empty : ¬ p.buf.offset < v.stream.length) :
    Tracks stops { v with base := 1 - columnsOf p.config v.stream } p.restart := by
  have le := tracks.le
  have shape := tracks.shape
  have all : v.stream.take p.buf.offset = v.stream := List.take_of_length_le (by omega)
  refine ⟨le, ?_, tracks.scan, tracks.closed, ?_, ?_, fun _ => Int.le_refl 1, tracks.forward, tracks.depth,
    tracks.page, tracks.margin,
    ⟨shape.bounds, shape.distinct, shape.ascending, shape.nested, shape.line, shape.settled⟩⟩
  · show p.buf.toList = entriesFrom _ p.buf.offset (v.stream.drop p.buf.offset)
    rw [tracks_empty tracks empty, List.drop_eq_nil_of_le (by omega)]
    rfl
  · show (1 : Int) = 1 - columnsOf p.config v.stream + columnsOf p.config (v.stream.take p.buf.offset)
    rw [all]
    omega
  · show (1 : Int) = 1 - columnsOf p.config v.stream + columnsOf p.config v.stream
    omega

variable {t : Token Int}

theorem outlook_push {q : Printer Int} {size : Int} (config : q.config = p.config)
    (page : q.page = p.page) (buf : q.buf = p.buf.pushBack ⟨t, size⟩) (rest : List (Token Int)) :
    outlook q rest = outlook p (t :: rest) := by
  simp [outlook, config, page, buf]

/-- With nothing held back, a token without an extent goes straight to the page. -/
theorem write_idle_heads (rest : List (Token Int))
    (tracks : Tracks (fun _ => False) v p) (waits : HeadWaits v p) (decided : v.waiting = [])
    (plain : opening t = none) (counted : 0 ≤ columns p.config t) (here : level v.depth t = some n) :
    Heads rest (outlook p (t :: rest)) (fun q => PrinterSteady n q ∧ LayoutKept p q)
      (p.page.write t (columns p.config t) >>= fun page => .ok { p with page := page }) := by
  have empty := all_written waits decided
  have held := tracks_empty tracks empty
  have depth := tracks.depth
  rw [List.drop_eq_nil_of_le (by omega), levels, Option.some.injEq] at depth
  have size : exactSize p.config t rest = columns p.config t := by simp [exactSize, plain]
  have goal : outlook p (t :: rest) =
      p.page.write t (columns p.config t) >>= fun page => layout p.config page rest := by
    rw [outlook, held, ← size]
    rfl
  rw [goal]
  cases ran : p.page.write t (columns p.config t) with
  | error f => exact rfl
  | ok page =>
    obtain ⟨grounded, frames⟩ := write_grounded tracks.page counted (fun _ => rfl) (depth ▸ here) ran
    refine ⟨⟨⟨{ v with depth := n }, ?_, fun filled => absurd filled empty, rfl⟩, rfl, rfl, rfl⟩, ?_⟩
    · refine { tracks with depth := ?_, page := grounded, shape := shaped_depth tracks.shape n }
      show levels page.frames.length (v.stream.drop p.buf.offset) = some n
      rw [List.drop_eq_nil_of_le (by omega), levels, frames]
    · simp only [outlook, held]
      rfl

/-- A token without an extent joins what is held back. -/
theorem hold_tracks {q : Printer Int} (tracks : Tracks (fun _ => False) v p)
    (waits : HeadWaits v p) (undecided : v.waiting ≠ []) (plain : opening t = none)
    (runs : ∀ r : Reach, r.step t = some r) (counted : 0 ≤ columns p.config t)
    (here : level v.depth t = some v.depth) (config : q.config = p.config) (page : q.page = p.page)
    (buf : q.buf = p.buf.pushBack ⟨t, columns p.config t⟩) (scan : q.scan = p.scan)
    (closed : q.closed = p.closed) (left : q.leftTotal = p.leftTotal)
    (right : q.rightTotal = p.rightTotal + columns p.config t) :
    Tracks (fun _ => False) (v.hold t) q ∧ HeadWaits (v.hold t) q ∧
      ∀ rest, outlook q rest = outlook p (t :: rest) := by
  have filled := some_held tracks undecided
  have free : v.stream.length ∉ v.waiting := fun member =>
    Nat.lt_irrefl _ (tracks.shape.bounds _ member).2
  have size : (v.hold t).size p.config v.stream.length = columns p.config t := by
    rw [size_decided (v := v.hold t) free]
    exact sizeAt_last p.config v.stream t
  refine ⟨push_tracks tracks rfl rfl (fun _ _ => Iff.rfl) here (shaped_plain tracks.shape plain runs)
    (fun _ never => never.elim) counted (tracks.positive filled) config page (size ▸ buf)
    (scan ▸ tracks.scan) (closed ▸ tracks.closed) left right, ?_, outlook_push config page buf⟩
  intro _
  rw [buf, offset_pushBack]
  exact waits filled

theorem width_nonneg (c : Config Int) (s : Text) : 0 ≤ c.width s := Int.natCast_nonneg _

theorem scanText_heads {rest : List (Token Int)} (steady : PrinterSteady n p)
    (forward : Forward p.config rest) (s : Text) :
    Heads rest (outlook p (.text s :: rest)) (fun q => PrinterSteady n q ∧ LayoutKept p q) (p.scanText s) := by
  obtain ⟨v, tracks, waits, rfl⟩ := steady
  unfold Printer.scanText
  split
  · rename_i idle
    exact write_idle_heads rest tracks waits ((idle_iff tracks).mp idle) rfl (width_nonneg _ s) rfl
  · rename_i busy
    obtain ⟨tracked, waiting, ahead⟩ := hold_tracks
      (q := { p.push ⟨.text s, p.config.width s⟩ with rightTotal := p.rightTotal + p.config.width s })
      (t := .text s) tracks waits (fun decided => busy ((idle_iff tracks).mpr decided)) rfl
      (fun _ => rfl) (width_nonneg _ s) rfl rfl rfl rfl rfl rfl rfl rfl
    rw [← ahead rest]
    refine heads_mono (checkStreamUpTo_heads _ tracked forward) ?_
    rintro q ⟨w, tracked, later, depth, kept⟩
    exact ⟨⟨w, tracked, later waiting, depth⟩, kept.config, kept.scopes, kept.done⟩

theorem scanIndent_heads (rest : List (Token Int)) (steady : PrinterSteady n p) (delta : Int) :
    Heads rest (outlook p (.indent delta :: rest)) (fun q => PrinterSteady n q ∧ LayoutKept p q)
      (p.scanIndent delta) := by
  obtain ⟨v, tracks, waits, rfl⟩ := steady
  unfold Printer.scanIndent
  split
  · rename_i idle
    exact write_idle_heads rest tracks waits ((idle_iff tracks).mp idle) rfl (Int.le_refl 0) rfl
  · rename_i busy
    obtain ⟨tracked, waiting, ahead⟩ := hold_tracks (q := p.push ⟨.indent delta, 0⟩) (t := .indent delta) tracks
      waits (fun decided => busy ((idle_iff tracks).mpr decided)) rfl (fun _ => rfl) (Int.le_refl 0) rfl
      rfl rfl rfl rfl rfl rfl (Int.add_zero _).symm
    exact ⟨⟨⟨v.hold (.indent delta), tracked, waiting, rfl⟩, rfl, rfl, rfl⟩, ahead rest⟩

/-- A token with an extent joins what is held back, to be decided later. -/
theorem await_tracks (tracks : Tracks stops v p) (positive : 1 ≤ p.leftTotal)
    (ends : ∀ r, stops r → r.step t = none) (counted : 0 ≤ columns p.config t)
    (here : level v.depth t = some n) (shape : StreamShaped (fun _ => False) p.buf.offset (v.await t)) :
    Tracks (fun _ => False) { v.await t with depth := n } { p.pushPending t with
      rightTotal := p.rightTotal + columns p.config t } ∧
    ∀ rest, outlook { p.pushPending t with
      rightTotal := p.rightTotal + columns p.config t } rest = outlook p (t :: rest) := by
  have le := tracks.le
  have size : View.size p.config { v.await t with depth := n } v.stream.length = -p.rightTotal := by
    rw [size_waiting (by simp [View.await])]
    simp [View.await, tracks.right]
  have last : (p.buf.pushBack ⟨t, -p.rightTotal⟩).backPos = v.stream.length := by
    have count := congrArg List.length tracks.buf
    rw [entriesFrom_length, List.length_drop] at count
    rw [backPos_pushBack, count]
    omega
  refine ⟨push_tracks tracks rfl rfl ?_ here (shaped_depth shape n) ends counted positive rfl rfl
    (by rw [size]; rfl) ?_ tracks.closed rfl rfl, outlook_push rfl rfl rfl⟩
  · intro i old
    simp only [mem_waiting, View.await, List.mem_append, List.mem_singleton]
    have other : i ≠ v.stream.length := by omega
    simp [other]
  · show (p.scan.pushBack (p.buf.pushBack ⟨t, -p.rightTotal⟩).backPos).toList = _
    rw [toList_pushBack, tracks.scan, last]
    simp [positions, View.await]

theorem await_waits {q : Printer Int} (tracks : Tracks stops v p) (waits : HeadWaits v p)
    (offset : q.buf.offset = p.buf.offset) : HeadWaits { v.await t with depth := n } q := by
  intro _
  have le := tracks.le
  simp only [offset, mem_waiting, View.await, List.mem_append, List.mem_singleton]
  by_cases filled : p.buf.offset < v.stream.length
  · have member := waits filled
    simp only [mem_waiting] at member
    rcases member with opened | ended
    · exact .inl (.inl opened)
    · exact .inr ended
  · exact .inl (.inr (by omega))

theorem scanStart_heads (rest : List (Token Int)) (steady : PrinterSteady n p) (g : Group Int) :
    Heads rest (outlook p (.groupStart g :: rest)) (fun q => PrinterSteady (n + 1) q ∧ LayoutKept p q)
      (.ok (p.scanStart g)) := by
  obtain ⟨v, tracks, waits, rfl⟩ := steady
  -- Whether or not totals start anew, the printer that takes the token in counts from one or more.
  obtain ⟨w, q, same, tracked, waiting, positive, depth, kept, ahead⟩ : ∃ w q,
      (if p.idle then p.restart else p) = q ∧ Tracks (fun _ => False) w q ∧ HeadWaits w q ∧
        1 ≤ q.leftTotal ∧ w.depth = v.depth ∧ LayoutKept p q ∧ ∀ rest, outlook q rest = outlook p rest := by
    by_cases idle : p.idle = true
    · have empty := all_written waits ((idle_iff tracks).mp idle)
      exact ⟨_, p.restart, if_pos idle, restart_tracks tracks empty, fun filled => absurd filled empty,
        Int.le_refl 1, rfl, ⟨rfl, rfl, rfl⟩, fun _ => rfl⟩
    · have filled := some_held tracks fun decided => idle ((idle_iff tracks).mpr decided)
      exact ⟨v, p, if_neg idle, tracks, waits, tracks.positive filled, rfl, .refl p, fun _ => rfl⟩
  obtain ⟨awaited, grown⟩ := await_tracks (t := .groupStart g) tracked positive
    (fun _ never => never.elim) (Int.le_refl 0) rfl (shaped_start tracked.shape tracked.le g)
  have still : { q.pushPending (.groupStart g) with
      rightTotal := q.rightTotal + columns q.config (.groupStart g) } =
      q.pushPending (.groupStart g) := by
    simp only [columns, Int.add_zero]
    rfl
  rw [still, depth] at awaited
  rw [Printer.scanStart, same]
  refine ⟨⟨⟨_, awaited, await_waits tracked waiting (offset_pushBack _ _), rfl⟩,
    kept.trans ⟨rfl, rfl, rfl⟩⟩, ?_⟩
  rw [← ahead, ← grown, still]

theorem pendingIs_empty (none : p.scan.toList = []) (test : Token Int → Bool) :
    p.pendingIs test = .ok false := by
  have count : p.scan.length = 0 := by rw [← length_toList, none]; rfl
  simp [Printer.pendingIs, count]

theorem pendingIs_last {outer : List Nat} {i : Nat} {size : Nat → Int}
    {stream : List (Token Int)} (top : p.scan.toList = positions (outer ++ [i]))
    (held : p.buf.toList = entriesFrom size p.buf.offset (stream.drop p.buf.offset))
    (low : p.buf.offset ≤ i) (found : stream[i]? = some t) (test : Token Int → Bool) :
    p.pendingIs test = .ok (test t) := by
  have split : p.scan.toList = positions outer ++ [(i : Int)] := by simp [top, positions]
  have count : p.scan.length ≠ 0 := by
    rw [← length_toList, split]
    simp
  simp [Printer.pendingIs, count, back_append split, queue, read_entry held low found]

theorem popBack_position {scan : Ring Int} {outer : List Nat} {i : Nat}
    (top : scan.toList = positions (outer ++ [i])) :
    ∃ left : Ring Int, scan.popBack = .ok ((i : Int), left) ∧ left.toList = positions outer := by
  have split : scan.toList = positions outer ++ [(i : Int)] := by simp [top, positions]
  obtain ⟨left, popped, tail, _⟩ := popBack_append split
  exact ⟨left, popped, tail⟩

/-- Two printers that differ in no more than which positions are undecided in which groups. -/
structure Regrouped (p q : Printer Int) : Prop extends LayoutKept p q where
  page : q.page = p.page
  buf : q.buf = p.buf
  left : q.leftTotal = p.leftTotal
  right : q.rightTotal = p.rightTotal

section Closing

variable {ι : Type} [Columns ι]

/-- Moves the innermost pending entry to those of closed groups, if it satisfies a test. -/
def closeTop (p : Printer ι) (test : Token ι → Bool) : Except Fault (Printer ι) := do
  if ← p.pendingIs test then
    let (pos, scan) ← queue p.scan.popBack
    return Printer.close { p with scan := scan } pos
  else return p

omit [Columns ι] in
private theorem closeTop_bind (p : Printer ι) (test : Token ι → Bool)
    (next : Printer ι → Except Fault (Printer ι)) :
    closeTop p test >>= next = p.pendingIs test >>= fun top =>
      if top then queue p.scan.popBack >>= fun last => next (Printer.close { p with scan := last.2 } last.1)
      else next p := by
  rw [closeTop, bind_assoc]
  congr
  funext top
  cases top with
  | true => simp only [↓reduceIte, bind_assoc, pure_bind]
  | false => rfl

theorem scanEnd_eq (p : Printer ι) (busy : p.idle = false) :
    p.scanEnd = (do
      let q ← closeTop p Printer.isBreak
      let r ← closeTop q Printer.isGroupStart
      (r.push ⟨.groupEnd, 0⟩).advance) := by
  simp only [Printer.scanEnd, busy, Bool.false_eq_true, ↓reduceIte, closeTop_bind, bind_assoc, pure_bind]

end Closing

/-- What a group end does before it is taken in: the undecided start and last break of the
innermost group become those of an ended group. -/
private theorem closes_top (tracks : Tracks stops v p) :
    ∃ (q : Printer Int) (outer inner : List Nat),
      (closeTop p Printer.isBreak >>= fun r => closeTop r Printer.isGroupStart) = .ok q ∧
      Regrouped p q ∧
      v.opened = outer ++ inner.reverse ∧ q.scan.toList = positions outer ∧
      q.closed = positions (v.ended ++ inner) ∧ IndicesNested v.stream 1 outer.reverse ∧
      ∀ i ∈ inner, spot v.stream i = some (.chunk 0) ∨ spot v.stream i = some (.group 0) := by
  have nested := tracks.shape.nested
  generalize order : v.opened.reverse = innermost at nested
  have opened : v.opened = innermost.reverse := by rw [← order, List.reverse_reverse]
  -- What is on top of the pending positions: nothing, the group's own start, or its last break,
  -- which is above the start unless the start has been written.
  cases nested with
  | nil =>
    have none : p.scan.toList = [] := by rw [tracks.scan, opened]; rfl
    refine ⟨p, [], [], ?_, ⟨.refl p, rfl, rfl, rfl, rfl⟩, opened, none, ?_, .nil 1, by simp⟩
    · simp [closeTop, pendingIs_empty none]
      rfl
    · rw [tracks.closed, List.append_nil]
  | @group _ i outer here rest =>
    rw [List.reverse_cons] at opened
    obtain ⟨g, token⟩ := token_of_group here
    have top := tracks.scan
    rw [opened] at top
    have low : p.buf.offset ≤ i := opened_low tracks (by simp [opened])
    obtain ⟨scan, popped, tail⟩ := popBack_position top
    refine ⟨Printer.close { p with scan := scan } i, outer.reverse, [i], ?_,
      ⟨⟨rfl, rfl, rfl⟩, rfl, rfl, rfl, rfl⟩, opened, tail, ?_, by rwa [List.reverse_reverse], by simp [here]⟩
    · simp [closeTop, pendingIs_last top tracks.buf low token, Printer.isBreak,
        Printer.isGroupStart, popped, queue]
    · simp [Printer.close, Printer.trackPending, tracks.closed, positions]
  | @alone _ i here =>
    obtain ⟨b, token⟩ := token_of_chunk here
    have top : p.scan.toList = positions ([] ++ [i]) := by rw [tracks.scan, opened]; rfl
    have low : p.buf.offset ≤ i := opened_low tracks (by simp [opened])
    obtain ⟨scan, popped, tail⟩ := popBack_position top
    have first : p.pendingIs Printer.isBreak = .ok true := pendingIs_last top tracks.buf low token _
    have second : (Printer.close { p with scan := scan } i).pendingIs Printer.isGroupStart = .ok false :=
      pendingIs_empty tail _
    refine ⟨Printer.close { p with scan := scan } i, [], [i], ?_,
      ⟨⟨rfl, rfl, rfl⟩, rfl, rfl, rfl, rfl⟩, opened, tail, ?_, .nil 1, by simp [here]⟩
    · simp [closeTop, first, second, popped, queue]
      rfl
    · simp [Printer.close, Printer.trackPending, tracks.closed, positions]
  | @chunk _ i j outer here own rest =>
    rw [List.reverse_cons, List.reverse_cons] at opened
    obtain ⟨b, token⟩ := token_of_chunk here
    obtain ⟨g, start⟩ := token_of_group own
    have top := tracks.scan
    rw [opened] at top
    have low : p.buf.offset ≤ i := opened_low tracks (by simp [opened])
    have lower : p.buf.offset ≤ j := opened_low tracks (by simp [opened])
    obtain ⟨scan, popped, tail⟩ := popBack_position top
    obtain ⟨last, also, left⟩ := popBack_position tail
    have first : p.pendingIs Printer.isBreak = .ok true := pendingIs_last top tracks.buf low token _
    have second : (Printer.close { p with scan := scan } i).pendingIs Printer.isGroupStart = .ok true :=
      pendingIs_last (p := Printer.close { p with scan := scan } i) tail tracks.buf lower start _
    have again : (Printer.close { p with scan := scan } i).scan.popBack = .ok ((j : Int), last) := also
    refine ⟨Printer.close { Printer.close { p with scan := scan } i with scan := last } j, outer.reverse,
      [i, j], ?_, ⟨⟨rfl, rfl, rfl⟩, rfl, rfl, rfl, rfl⟩, by simpa using opened, left, ?_,
      by rwa [List.reverse_reverse], by simp [here, own]⟩
    · simp [closeTop, first, second, popped, again, queue]
    · simp [Printer.close, Printer.trackPending, tracks.closed, positions]

/-- Where something is undecided, a group end joins what is held back. -/
theorem scanEnd_tracks (tracks : Tracks (fun _ => False) v p) (undecided : v.waiting ≠ [])
    (here : level v.depth .groupEnd = some n) :
    ∃ q w, (closeTop p Printer.isBreak >>= fun r => closeTop r Printer.isGroupStart) = .ok q ∧ Regrouped p q ∧
      Tracks (fun _ => False) w (q.push ⟨.groupEnd, 0⟩) ∧ w.depth = n := by
  obtain ⟨q, outer, inner, run, only, parts, scan, closed, nested, own⟩ := closes_top tracks
  have shape := shaped_end tracks.shape parts own nested
  have same (i : Nat) : i ∈ (v.shut outer inner).waiting ↔ i ∈ v.waiting := by
    simp only [mem_waiting, View.shut, parts, List.mem_append, List.mem_reverse]
    tauto
  have free : v.stream.length ∉ (v.shut outer inner).waiting := fun member =>
    Nat.lt_irrefl _ (tracks.shape.bounds _ ((same _).mp member)).2
  have size : View.size p.config { v.shut outer inner with depth := n } v.stream.length = 0 := by
    rw [size_decided (v := { v.shut outer inner with depth := n }) free]
    exact sizeAt_last p.config v.stream .groupEnd
  refine ⟨q, { v.shut outer inner with depth := n }, run, only, ?_, rfl⟩
  exact push_tracks tracks rfl rfl (fun i _ => same i) here (shaped_depth shape _) (fun _ never => never.elim)
    (Int.le_refl 0) (tracks.positive (some_held tracks undecided)) only.config only.page
    (by rw [size, ← only.buf]; rfl) scan closed only.left (only.right.trans (Int.add_zero _).symm)

theorem scanEnd_heads (rest : List (Token Int)) (steady : PrinterSteady (n + 2) p) :
    Heads rest (outlook p (.groupEnd :: rest)) (fun q => PrinterSteady (n + 1) q ∧ LayoutKept p q) p.scanEnd := by
  obtain ⟨v, tracks, waits, depth⟩ := steady
  have here : level v.depth .groupEnd = some (n + 1) := by simp [level, depth]
  by_cases decided : v.waiting = []
  · have idle := (idle_iff tracks).mpr decided
    simp only [Printer.scanEnd, idle, ↓reduceIte]
    exact write_idle_heads rest tracks waits decided rfl (Int.le_refl 0) here
  · obtain ⟨q, w, run, only, tracked, deep⟩ := scanEnd_tracks tracks decided here
    have busy : p.idle = false := Bool.eq_false_iff.mpr fun idle => decided ((idle_iff tracks).mp idle)
    have ahead := outlook_push (q := q.push ⟨.groupEnd, 0⟩) only.config only.page
      (by rw [← only.buf]; rfl) rest
    rw [scanEnd_eq p busy, ← bind_assoc, run, ok_bind, ← ahead]
    refine heads_mono (advance_heads rest tracked fun _ never => never.elim) ?_
    rintro r ⟨tracked, waiting, kept⟩
    exact ⟨⟨w, tracked, waiting, deep⟩, only.toLayoutKept.trans ⟨kept.config, kept.scopes, kept.done⟩⟩

/-- Before a break is taken in, everything that waits for a break of any group is written. -/
theorem writeClosed_heads {b : Break Int} (rest : List (Token Int))
    (tracks : Tracks (fun _ => False) v p) (waits : HeadWaits v p) :
    Heads (.lineBreak b :: rest) (outlook p (.lineBreak b :: rest))
      (fun q => ∃ w, Tracks (· = .line) w q ∧ HeadWaits w q ∧ w.ended = [] ∧ w.depth = v.depth ∧ LayoutKept p q)
      p.writeClosed := by
  unfold Printer.writeClosed
  split
  · rename_i none
    have cleared : v.ended = [] := by simpa [tracks.closed, positions] using none
    exact ⟨⟨v, tracks_mono tracks fun _ never => never.elim, waits, cleared, rfl, .refl p⟩, rfl⟩
  · obtain ⟨buf, run, still, tracked⟩ := resolveClosed_tracks tracks
    rw [run, ok_bind, ← outlook_same tracks tracked rfl still rfl rfl]
    refine heads_mono (advance_heads _ tracked ?_) ?_
    · rintro r rfl
      rfl
    · rintro q ⟨tracked, waiting, kept⟩
      exact ⟨_, tracked, waiting, rfl, rfl, kept.config, kept.scopes, kept.done⟩

/-- The innermost undecided index is a break: it is resolved. -/
private theorem resolve_break {outer : List Nat} {i : Nat} (tracks : Tracks (· = .line) v p)
    (order : v.opened = outer ++ [i]) (here : spot v.stream i = some (.chunk 0))
    (nested : IndicesNested v.stream 0 outer.reverse) :
    ∃ q, p.resolveLast = .ok q ∧
      Tracks (fun r => r.meet = none) { v with opened := outer } q ∧ q.buf.offset = p.buf.offset ∧ LayoutKept p q ∧
      ∀ rest, outlook q rest = outlook p rest := by
  have low : p.buf.offset ≤ i := opened_low tracks (by simp [order])
  obtain ⟨b, token⟩ := token_of_chunk here
  have top := tracks.scan
  rw [order] at top
  have first : p.pendingIs Printer.isBreak = .ok true := pendingIs_last top tracks.buf low token _
  obtain ⟨scan, popped, tail⟩ := popBack_position top
  have wider : Tracks (fun r => r.meet = none) v p := tracks_mono tracks (by rintro r rfl; rfl)
  have stop : ∀ r, spot v.stream i = some r → r.meet = none := by
    intro r same
    rw [here] at same
    cases same
    rfl
  obtain ⟨buf, run, still, tracked⟩ := resolve_tracks wider order stop nested tail
  refine ⟨{ p with buf := buf, scan := scan }, ?_, tracked, still, ⟨rfl, rfl, rfl⟩,
    outlook_same tracks tracked rfl still rfl rfl⟩
  have count : p.scan.length ≠ 0 := by simp [scan_length tracks, order]
  simp only [Printer.resolveLast, count, first, ok_bind, ↓reduceIte, popped, queue, run]

/-- Before a break is taken in, the last break of its group is resolved; with nothing undecided,
totals start anew. -/
theorem resolveLast_heads {b : Break Int} (rest : List (Token Int))
    (tracks : Tracks (· = .line) v p) (waits : HeadWaits v p) (cleared : v.ended = []) :
    Heads (.lineBreak b :: rest) (outlook p (.lineBreak b :: rest))
      (fun q => ∃ w, Tracks (fun r => r.meet = none) w q ∧
        (q.buf.offset < w.stream.length ∨ q.leftTotal = 1) ∧ w.ended = [] ∧
        (w.opened.reverse = [] ∨ ∃ i outer, w.opened.reverse = i :: outer ∧
          spot w.stream i = some (.group 0) ∧ IndicesNested w.stream 1 outer) ∧
        w.depth = v.depth ∧ LayoutKept p q)
      p.resolveLast := by
  have wider : ∀ r, r = Reach.line → r.meet = none := by
    rintro r rfl
    rfl
  have count := scan_length tracks
  have nested := tracks.shape.nested
  generalize order : v.opened.reverse = innermost at nested
  have opened : v.opened = innermost.reverse := by rw [← order, List.reverse_reverse]
  cases nested with
  | nil =>
    have empty := all_written waits (by simp [View.waiting, opened, cleared])
    rw [Printer.resolveLast, if_pos (by simp [count, opened])]
    exact ⟨⟨_, restart_tracks (tracks_mono tracks wider) empty, .inr rfl, cleared, .inl order, rfl,
      ⟨rfl, rfl, rfl⟩⟩, rfl⟩
  | @group _ i outer here deeper =>
    obtain ⟨g, token⟩ := token_of_group here
    rw [List.reverse_cons] at opened
    have top := tracks.scan
    rw [opened] at top
    have last : p.pendingIs Printer.isBreak = .ok false :=
      pendingIs_last top tracks.buf (opened_low tracks (by simp [opened])) token _
    have filled := some_held tracks (by simp [View.waiting, opened])
    rw [Printer.resolveLast, if_neg (by simp [count, opened]), last, ok_bind, if_neg (by simp)]
    exact ⟨⟨v, tracks_mono tracks wider, .inl filled, cleared, .inr ⟨i, outer, order, here, deeper⟩,
      rfl, .refl p⟩, rfl⟩
  | @alone _ i here =>
    have filled := some_held tracks (by simp [View.waiting, opened])
    obtain ⟨q, run, tracked, still, kept, same⟩ := resolve_break tracks
      (show v.opened = [] ++ [i] from opened) here (.nil 0)
    rw [run]
    exact ⟨⟨_, tracked, .inl (still ▸ filled), cleared, .inl rfl, rfl, kept⟩, same _⟩
  | @chunk _ i j outer here own deeper =>
    rw [List.reverse_cons] at opened
    have filled := some_held tracks (by simp [View.waiting, opened])
    obtain ⟨q, run, tracked, still, kept, same⟩ := resolve_break tracks opened here
      (by rw [List.reverse_reverse]; exact .group own deeper)
    rw [run]
    exact ⟨⟨_, tracked, .inl (still ▸ filled), cleared,
      .inr ⟨j, outer, List.reverse_reverse _, own, deeper⟩, rfl, kept⟩, same _⟩

theorem scanBreak_heads {rest : List (Token Int)} {b : Break Int} (steady : PrinterSteady n p)
    (forward : Forward p.config rest) (counted : 0 ≤ b.width) :
    Heads rest (outlook p (.lineBreak b :: rest)) (fun q => PrinterSteady n q ∧ LayoutKept p q) (p.scanBreak b) := by
  obtain ⟨v, tracks, waits, rfl⟩ := steady
  unfold Printer.scanBreak
  refine heads_bind (writeClosed_heads rest tracks waits) ?_
  rintro q ⟨w, tracked, waiting, cleared, depth, kept⟩
  refine heads_bind (resolveLast_heads rest tracked waiting cleared) ?_
  rintro r ⟨x, settled, counts, gone, inside, same, also⟩
  have kept := kept.trans also
  have positive : 1 ≤ r.leftTotal := counts.elim settled.positive Int.ge_of_eq
  obtain ⟨awaited, grown⟩ := await_tracks (t := .lineBreak b) settled positive (fun _ stop => stop) counted
    rfl (shaped_break settled.shape settled.le gone inside b)
  rw [← grown]
  refine heads_bind (checkStreamUpTo_heads _ awaited (kept.config ▸ forward)) ?_
  rintro u ⟨y, checked, _, deep, further⟩
  refine heads_mono (advance_heads rest checked fun _ never => never.elim) ?_
  rintro final ⟨tracked, waiting, last⟩
  exact ⟨⟨y, tracked, waiting, deep.trans (same.trans depth)⟩,
    kept.trans (LayoutKept.trans ⟨further.config, further.scopes, further.done⟩ last)⟩

/-- Hands a token to the part of the printer that takes it in. -/
def take {ι : Type} [Columns ι] (p : Printer ι) : Token ι → Except Fault (Printer ι)
  | .text s => p.scanText s
  | .lineBreak b => p.scanBreak b
  | .groupStart g => .ok (p.scanStart g)
  | .groupEnd => p.scanEnd
  | .indent delta => p.scanIndent delta
  | .missing => .ok p

/-- Taking in a token heads for the page that the token leads to, whatever follows it. -/
theorem take_heads {rest : List (Token Int)} (steady : PrinterSteady n p)
    (forward : Forward p.config rest) (counted : 0 ≤ columns p.config t) (present : t ≠ .missing)
    (here : level n t = some m) :
    Heads rest (outlook p (t :: rest)) (fun q => PrinterSteady m q ∧ LayoutKept p q) (take p t) := by
  cases t with
  | text s => cases here; exact scanText_heads steady forward s
  | lineBreak b => cases here; exact scanBreak_heads steady forward counted
  | groupStart g => cases here; exact scanStart_heads rest steady g
  | groupEnd =>
    simp only [level, Option.ite_none_right_eq_some, Option.some.injEq] at here
    obtain ⟨k, rfl⟩ := Nat.exists_eq_add_of_le here.1
    have same : m = k + 1 := by omega
    subst same
    rw [Nat.add_comm] at steady
    exact scanEnd_heads rest steady
  | indent delta => cases here; exact scanIndent_heads rest steady delta
  | missing => exact absurd rfl present

/-- Outside any group at most one break is undecided. -/
private theorem opened_at_top (tracks : Tracks stops v p) (top : v.depth = 1) :
    v.opened = [] ∨ ∃ i, v.opened = [i] := by
  have closed : ∀ i ∈ v.opened, ∀ n, spot v.stream i ≠ some (.group n) := by
    intro i member n here
    obtain ⟨above, indent, frames⟩ := tracks.page.bottom
    have deep := depth_of_group (opened_low tracks member) here (by simp [frames]) tracks.depth
    omega
  have nested := tracks.shape.nested
  generalize order : v.opened.reverse = innermost at nested
  have opened : v.opened = innermost.reverse := by rw [← order, List.reverse_reverse]
  cases nested with
  | nil => exact .inl opened
  | @group _ i outer here deeper => exact absurd here (closed i (by simp [opened]) _)
  | @alone _ i here => exact .inr ⟨i, opened⟩
  | @chunk _ i j outer here own deeper => exact absurd own (closed j (by simp [opened]) _)

/-- With no group open, the breaks that are left are resolved at the end of the document. -/
theorem resolveScan_tracks (tracks : Tracks (fun _ => True) v p) (top : v.depth = 1) :
    ∃ q, Printer.resolveScan p.scan.length p = .ok q ∧
      Tracks (fun _ => True) { v with opened := [] } q ∧ LayoutKept p q ∧
      ∀ rest, outlook q rest = outlook p rest := by
  have count := scan_length tracks
  rcases opened_at_top tracks top with none | ⟨i, one⟩
  · have same : { v with opened := [] } = v := by rw [← none]
    rw [count, none, same]
    exact ⟨p, rfl, tracks, .refl p, fun _ => rfl⟩
  · have order : v.opened = [] ++ [i] := one
    have scanned := tracks.scan
    rw [order] at scanned
    obtain ⟨scan, popped, tail⟩ := popBack_position scanned
    obtain ⟨buf, run, still, tracked⟩ := resolve_tracks tracks order (fun _ _ => trivial) (.nil 0) tail
    refine ⟨_, ?_, tracked, ⟨rfl, rfl, rfl⟩, outlook_same tracks tracked rfl still rfl rfl⟩
    rw [count, one]
    simp [Printer.resolveScan, count, one, popped, queue, run]

/-- At the end of the document everything is written. -/
theorem drain_heads (steady : PrinterSteady 1 p) :
    Heads [] (outlook p []) (fun q => PrinterSteady 1 q ∧ q.idle = true ∧ LayoutKept p q) (do
      let p ← p.resolveClosed
      let p ← Printer.resolveScan p.scan.length p
      p.advance) := by
  obtain ⟨v, tracks, _, depth⟩ := steady
  obtain ⟨buf, run, still, resolved⟩ := resolveClosed_tracks tracks
  obtain ⟨q, scanned, tracked, kept, same⟩ :=
    resolveScan_tracks (tracks_mono resolved fun _ _ => trivial) depth
  rw [run, ok_bind, scanned, ok_bind, ← outlook_same tracks resolved rfl still rfl rfl, ← same]
  refine heads_mono (advance_heads [] tracked fun _ _ => rfl) ?_
  rintro final ⟨written, waits, last⟩
  have empty := all_written waits rfl
  refine ⟨⟨_, { written with shape := ?_ }, waits, depth⟩, (idle_iff written).mpr rfl,
    LayoutKept.trans ⟨kept.config, kept.scopes, kept.done⟩ last⟩
  exact { written.shape with
    settled := fun i low high _ _ _ => absurd (Nat.lt_of_le_of_lt low high) empty }

end Galley.Layout.Lookahead
