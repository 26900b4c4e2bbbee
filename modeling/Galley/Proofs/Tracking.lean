import Mathlib.Data.List.Basic
import Galley.Proofs.RingQueue
import Galley.Proofs.Pending

/-! A printer's stored state as a view of its stream, and the page it is heading for. Each action of
the printer is followed in both: which indices it decides, and that the page it is heading for stays
the one that exact sizes give. -/
namespace Galley.Layout.Tracking
open RingQueue Extent PageWriting Pending

/-- Tokens from an index on, with the sizes stored for them. -/
def entriesFrom (size : Nat → Int) : Nat → List (Token Int) → List (Entry Int)
  | _, [] => []
  | i, t :: ts => ⟨t, size i⟩ :: entriesFrom size (i + 1) ts

@[simp] theorem entriesFrom_tokens (size : Nat → Int) (i : Nat) (ts : List (Token Int)) :
    (entriesFrom size i ts).map Entry.token = ts := by
  induction ts generalizing i with
  | nil => rfl
  | cons t ts ih => simp [entriesFrom, ih]

@[simp] theorem entriesFrom_length (size : Nat → Int) (i : Nat) (ts : List (Token Int)) :
    (entriesFrom size i ts).length = ts.length := by
  have same := congrArg List.length (entriesFrom_tokens size i ts)
  rwa [List.length_map] at same

theorem entriesFrom_concat (size : Nat → Int) (i : Nat) (ts : List (Token Int)) (t : Token Int) :
    entriesFrom size i (ts ++ [t]) = entriesFrom size i ts ++ [⟨t, size (i + ts.length)⟩] := by
  induction ts generalizing i with
  | nil => rfl
  | cons u ts ih => simp [entriesFrom, ih, Nat.add_assoc, Nat.add_comm 1]

theorem entriesFrom_congr {size other : Nat → Int} {i : Nat} {ts : List (Token Int)}
    (same : ∀ j, i ≤ j → j < i + ts.length → size j = other j) :
    entriesFrom size i ts = entriesFrom other i ts := by
  induction ts generalizing i with
  | nil => rfl
  | cons t ts ih =>
    have head := same i (Nat.le_refl i) (by simp)
    have tail := ih (i := i + 1) fun j low high => same j (by omega) (by simp; omega)
    simp [entriesFrom, head, tail]

theorem entriesFrom_getElem? (size : Nat → Int) (i k : Nat) (ts : List (Token Int)) :
    (entriesFrom size i ts)[k]? = ts[k]?.map fun t => ⟨t, size (i + k)⟩ := by
  induction ts generalizing i k with
  | nil => rfl
  | cons t ts ih =>
    cases k with
    | zero => rfl
    | succ k => simp [entriesFrom, ih, Nat.add_assoc, Nat.add_comm 1]

theorem entriesFrom_set (size other : Nat → Int) {i k : Nat} {ts : List (Token Int)}
    (bound : k < ts.length) (same : ∀ j, j ≠ i + k → other j = size j) :
    (entriesFrom size i ts).set k ⟨ts[k], other (i + k)⟩ = entriesFrom other i ts := by
  apply List.ext_getElem?
  intro j
  by_cases here : k = j
  · subst here
    rw [List.getElem?_set_self (by simpa using bound), entriesFrom_getElem?,
      List.getElem?_eq_getElem bound]
    rfl
  · rw [List.getElem?_set_ne here, entriesFrom_getElem?, entriesFrom_getElem?, same _ (by omega)]

/-- Indices as stored positions. -/
def positions (l : List Nat) : List Int := l.map fun i : Nat => (i : Int)

/-- The stored state of a printer is that of a view. -/
structure Tracks (stops : Reach → Prop) (v : View) (p : Printer Int) : Prop where
  le : p.buf.offset ≤ v.stream.length
  buf : p.buf.toList = entriesFrom (v.size p.config) p.buf.offset (v.stream.drop p.buf.offset)
  scan : p.scan.toList = positions v.opened
  closed : p.closed = positions v.ended
  left : p.leftTotal = v.base + columnsOf p.config (v.stream.take p.buf.offset)
  right : p.rightTotal = v.base + columnsOf p.config v.stream
  positive : p.buf.offset < v.stream.length → 1 ≤ p.leftTotal
  forward : Forward p.config v.stream
  depth : levels p.page.frames.length (v.stream.drop p.buf.offset) = some v.depth
  page : PageGrounded p.config p.page
  margin : p.config.margin < infiniteWidth
  shape : StreamShaped stops p.buf.offset v

/-- Nothing decided stands at the head of the buffer. -/
def HeadWaits (v : View) (p : Printer Int) : Prop :=
  p.buf.offset < v.stream.length → p.buf.offset ∈ v.waiting

/-- What no action of the layout side touches. -/
structure LayoutKept (p q : Printer Int) : Prop where
  config : q.config = p.config
  scopes : q.scopes = p.scopes
  done : q.done = p.done

theorem LayoutKept.refl (p : Printer Int) : LayoutKept p p := ⟨rfl, rfl, rfl⟩

theorem LayoutKept.trans {p q r : Printer Int} (first : LayoutKept p q) (second : LayoutKept q r) : LayoutKept p r :=
  ⟨second.config.trans first.config, second.scopes.trans first.scopes, second.done.trans first.done⟩

/-- The page a printer is heading for if the given tokens are all that follows. -/
def outlook (p : Printer Int) (rest : List (Token Int)) : Except Fault (Page Int) :=
  layout p.config p.page (p.buf.toList.map Entry.token ++ rest)

/-- An action ends in a printer of the given kind that heads for the given page, or it raises what
the page's layout raises. -/
def Heads (rest : List (Token Int)) (goal : Except Fault (Page Int)) (kind : Printer Int → Prop) :
    Except Fault (Printer Int) → Prop
  | .ok q => kind q ∧ outlook q rest = goal
  | .error f => goal = .error f

theorem heads_bind {rest later : List (Token Int)} {goal : Except Fault (Page Int)}
    {kind final : Printer Int → Prop} {x : Except Fault (Printer Int)}
    {f : Printer Int → Except Fault (Printer Int)} (first : Heads rest goal kind x)
    (second : ∀ q, kind q → Heads later (outlook q rest) final (f q)) :
    Heads later goal final (x >>= f) := by
  cases x with
  | error e => exact first
  | ok q =>
    obtain ⟨here, same⟩ := first
    rw [← same]
    exact second q here

theorem heads_mono {rest : List (Token Int)} {goal : Except Fault (Page Int)}
    {kind wider : Printer Int → Prop} {x : Except Fault (Printer Int)}
    (heads : Heads rest goal kind x) (wide : ∀ q, kind q → wider q) : Heads rest goal wider x := by
  cases x with
  | error e => exact heads
  | ok q => exact ⟨wide q heads.1, heads.2⟩

section Advance

variable {p : Printer Int}

private theorem length_of_held {es : List (Entry Int)} (held : p.buf.toList = es) :
    p.buf.length = es.length := by
  rw [← length_toList, held]

theorem advance_empty (held : p.buf.toList = []) : p.advance = .ok p := by
  simp [Printer.advance, length_of_held held, Printer.advanceUpTo]

theorem advance_pending {e : Entry Int} {es : List (Entry Int)} (held : p.buf.toList = e :: es)
    (pending : e.size < 0) : p.advance = .ok p := by
  simp [Printer.advance, length_of_held held, Printer.advanceUpTo, front_cons held, queue, pending]
  rfl

theorem advance_decided {e : Entry Int} {es : List (Entry Int)} (held : p.buf.toList = e :: es)
    (decided : 0 ≤ e.size) :
    ∃ buf : Ring (Entry Int), buf.toList = es ∧ buf.offset = p.buf.offset + 1 ∧
      p.advance = p.page.write e.token e.size >>= fun page =>
        Printer.advance { p with
          buf := buf, page := page, leftTotal := p.leftTotal + e.flatWidth } := by
  obtain ⟨buf, popped, tail, moved⟩ := popFront_cons held
  refine ⟨buf, tail, moved, ?_⟩
  have count : buf.length = es.length := by rw [← length_toList, tail]
  simp [Printer.advance, length_of_held held, Printer.advanceUpTo, front_cons held, queue, popped,
    Int.not_lt.mpr decided, count]

end Advance

section Views

variable {stops : Reach → Prop} {v : View} {p : Printer Int}

theorem size_release_ne {offset : Nat} (c : Config Int) (shaped : StreamShaped stops offset v) {i j : Nat}
    (other : j ≠ i) : (v.release i).size c j = v.size c j := by
  have same : j ∈ (v.release i).waiting ↔ j ∈ v.waiting := by simp [mem_release shaped, other]
  simp only [View.size, same]
  rfl

variable {i : Nat} {c : Config Int}

theorem size_waiting (member : i ∈ v.waiting) : v.size c i = -(v.base + columnsOf c (v.stream.take i)) := by
  simp only [View.size, member, ↓reduceIte]

theorem size_decided (free : i ∉ v.waiting) : v.size c i = sizeAt c v.stream i := by
  simp only [View.size, free, ↓reduceIte]

theorem columnsOf_sublist {ts us : List (Token Int)} (part : ts.Sublist us) (forward : Forward c us) :
    columnsOf c ts ≤ columnsOf c us := by
  induction part with
  | slnil => exact Int.le_refl _
  | cons t _ ih | cons_cons t _ ih =>
    obtain ⟨head, tail⟩ := List.forall_mem_cons.mp forward
    have less := ih tail
    simp only [columnsOf]
    omega

theorem columnsOf_nonneg {ts : List (Token Int)} (forward : Forward c ts) : 0 ≤ columnsOf c ts :=
  columnsOf_sublist (List.nil_sublist ts) forward

theorem exactSize_nonneg {t : Token Int} {after : List (Token Int)}
    (forward : Forward c (t :: after)) : 0 ≤ exactSize c t after := by
  have head := forward t (by simp)
  have tail : Forward c after := fun t member => forward t (by simp [member])
  cases start : opening t with
  | none => simpa [exactSize, start] using head
  | some r =>
    have reached := extent_nonneg r tail
    simp only [exactSize, start]
    omega

variable (tracks : Tracks stops v p)
include tracks

/-- The head of a buffer that holds something. -/
theorem tracks_head (filled : p.buf.offset < v.stream.length) :
    p.buf.toList = ⟨v.stream[p.buf.offset], v.size p.config p.buf.offset⟩ ::
      entriesFrom (v.size p.config) (p.buf.offset + 1) (v.stream.drop (p.buf.offset + 1)) := by
  rw [tracks.buf, List.drop_eq_getElem_cons filled]
  rfl

theorem tracks_empty (empty : ¬ p.buf.offset < v.stream.length) : p.buf.toList = [] := by
  rw [tracks.buf, List.drop_eq_nil_of_le (by omega)]
  rfl

/-- Something is held back as long as the buffer has a length. -/
theorem tracks_filled (filled : 0 < p.buf.length) : p.buf.offset < v.stream.length := by
  have count := congrArg List.length tracks.buf
  simp only [length_toList, entriesFrom_length, List.length_drop] at count
  omega

theorem tracks_tokens : p.buf.toList.map Entry.token = v.stream.drop p.buf.offset := by
  rw [tracks.buf, entriesFrom_tokens]

theorem scan_length : p.scan.length = v.opened.length := by
  rw [← length_toList, tracks.scan, positions, List.length_map]

theorem opened_low (member : i ∈ v.opened) : p.buf.offset ≤ i :=
  (tracks.shape.bounds i ((mem_waiting v i).mpr (.inl member))).1

/-- Which tokens are decided does not change where a printer is heading. -/
theorem outlook_same {wider : Reach → Prop} {w : View} {q : Printer Int}
    (tracked : Tracks wider w q) (stream : w.stream = v.stream) (still : q.buf.offset = p.buf.offset)
    (config : q.config = p.config) (page : q.page = p.page) (rest : List (Token Int)) :
    outlook q rest = outlook p rest := by
  rw [outlook, outlook, tracks_tokens tracked, tracks_tokens tracks, stream, still, config, page]

/-- The sign of a stored size tells the undecided from the decided. -/
theorem size_negative_iff (low : p.buf.offset ≤ i)
    (high : i < v.stream.length) : v.size p.config i < 0 ↔ i ∈ v.waiting := by
  constructor
  · intro negative
    by_contra free
    rw [size_decided free] at negative
    have rest : Forward p.config (v.stream[i] :: v.stream.drop (i + 1)) := by
      rw [← List.drop_eq_getElem_cons high]
      exact fun t member => tracks.forward t (List.mem_of_mem_drop member)
    have reached := exactSize_nonneg rest
    simp only [sizeAt, List.drop_eq_getElem_cons high] at negative
    omega
  · intro member
    rw [size_waiting member]
    have positive := tracks.positive (by omega)
    have split : v.stream.take i = v.stream.take p.buf.offset ++
        (v.stream.drop p.buf.offset).take (i - p.buf.offset) := by
      rw [← List.take_add]
      congr 1
      omega
    have middle : Forward p.config ((v.stream.drop p.buf.offset).take (i - p.buf.offset)) :=
      fun t member => tracks.forward t (List.mem_of_mem_drop (List.mem_of_mem_take member))
    have covered := columnsOf_nonneg middle
    rw [split, columnsOf_append]
    rw [tracks.left] at positive
    omega

omit tracks

theorem flatWidth_eq {t : Token Int} {size : Int}
    (sized : opening t = none → size = columns c t) : Entry.flatWidth ⟨t, size⟩ = columns c t := by
  cases t with
  | text s => exact sized rfl
  | lineBreak | groupStart | groupEnd | indent | missing => rfl

/-- The first token leaves the buffer for the page, decided or not. -/
theorem pop_tracks {page : Page Int} {buf : Ring (Entry Int)} {size : Int} (scan : Ring Int)
    (closed : List Int) (tracks : Tracks stops v p) (filled : p.buf.offset < v.stream.length)
    (tail : buf.toList =
      entriesFrom (v.size p.config) (p.buf.offset + 1) (v.stream.drop (p.buf.offset + 1)))
    (moved : buf.offset = p.buf.offset + 1)
    (opened : scan.toList = positions (v.opened.erase p.buf.offset))
    (ended : closed = positions (v.ended.erase p.buf.offset))
    (sized : opening v.stream[p.buf.offset] = none → size = columns p.config v.stream[p.buf.offset])
    (ran : p.page.write v.stream[p.buf.offset] size = .ok page) :
    Tracks stops (v.release p.buf.offset) { p with
      buf := buf, page := page, scan := scan, closed := closed
      leftTotal := p.leftTotal + columns p.config v.stream[p.buf.offset] } := by
  have counted := tracks.forward _ (List.getElem_mem filled)
  have depth := tracks.depth
  rw [List.drop_eq_getElem_cons filled, levels] at depth
  obtain ⟨n, here, deeper⟩ := Option.bind_eq_some_iff.mp depth
  obtain ⟨grounded, frames⟩ := write_grounded tracks.page counted sized here ran
  have longer : columnsOf p.config (v.stream.take (p.buf.offset + 1)) =
      columnsOf p.config (v.stream.take p.buf.offset) + columns p.config v.stream[p.buf.offset] := by
    rw [List.take_succ_eq_append_getElem filled, columnsOf_append]
    simp [columnsOf]
  refine ⟨?_, ?_, opened, ended, ?_, tracks.right, ?_, tracks.forward, ?_, grounded, tracks.margin, ?_⟩
  · simp only [moved]
    exact filled
  · simp only [moved, tail]
    exact entriesFrom_congr fun j low _ => (size_release_ne p.config tracks.shape (by omega)).symm
  · simp only [moved, tracks.left, View.release, longer]
    omega
  · intro _
    have positive := tracks.positive filled
    show 1 ≤ p.leftTotal + _
    omega
  · simp only [moved, frames]
    exact deeper
  · simpa only [moved] using shaped_flush tracks.shape

/-- With something in the buffer, the page headed for starts with its head. -/
theorem outlook_head (tracks : Tracks stops v p) (filled : p.buf.offset < v.stream.length)
    (rest : List (Token Int)) :
    outlook p rest = p.page.write v.stream[p.buf.offset]
        (exactSize p.config v.stream[p.buf.offset] (v.stream.drop (p.buf.offset + 1) ++ rest)) >>=
      fun page => layout p.config page (v.stream.drop (p.buf.offset + 1) ++ rest) := by
  rw [outlook, tracks_tokens tracks, List.drop_eq_getElem_cons filled]
  rfl

variable {rest : List (Token Int)}

/-- The size of a decided token is exact, whatever follows that ends what stops here. -/
theorem decided_exact (tracks : Tracks stops v p)
    (ends : ∀ r, stops r → extent p.config r rest = 0) (low : p.buf.offset ≤ i)
    (high : i < v.stream.length) (free : i ∉ v.waiting) :
    exactSize p.config v.stream[i] (v.stream.drop (i + 1) ++ rest) = v.size p.config i := by
  have settled := tracks.shape.settled i low high free
  simp only [spot, List.drop_eq_getElem_cons high] at settled
  rw [size_decided free, exactSize_append, sizeAt, List.drop_eq_getElem_cons high]
  cases runs : reach v.stream[i] (v.stream.drop (i + 1)) with
  | none => simp
  | some r => simp [ends r (settled r runs)]

theorem sized_of_decided (high : i < v.stream.length) (free : i ∉ v.waiting)
    (plain : opening v.stream[i] = none) : v.size p.config i = columns p.config v.stream[i] := by
  rw [size_decided free, sizeAt, List.drop_eq_getElem_cons high]
  simp [exactSize, plain]

/-- The page after the head of the buffer has been written. -/
private theorem outlook_popped {q : Printer Int} {w : View} (tracks : Tracks stops w q)
    (moved : q.buf.offset = i) (rest : List (Token Int)) :
    outlook q rest = layout q.config q.page (w.stream.drop i ++ rest) := by
  rw [outlook, tracks_tokens tracks, moved]

/-- Writing what is decided heads for the same page, and stops at something undecided. -/
theorem advance_heads (rest : List (Token Int)) (tracks : Tracks stops v p)
    (ends : ∀ r, stops r → extent p.config r rest = 0) :
    Heads rest (outlook p rest) (fun q => Tracks stops v q ∧ HeadWaits v q ∧ LayoutKept p q) p.advance := by
  -- Every token written leaves one less between the head of the buffer and the end of the stream.
  obtain ⟨n, left⟩ : ∃ n, v.stream.length - p.buf.offset = n := ⟨_, rfl⟩
  induction n generalizing p with
  | zero =>
    rw [advance_empty (tracks_empty tracks (by omega))]
    exact ⟨⟨tracks, fun filled => absurd filled (by omega), .refl p⟩, rfl⟩
  | succ n ih =>
    have filled : p.buf.offset < v.stream.length := by omega
    have sign := size_negative_iff tracks (Nat.le_refl _) filled
    by_cases pending : p.buf.offset ∈ v.waiting
    · rw [advance_pending (tracks_head tracks filled) (sign.mpr pending)]
      exact ⟨⟨tracks, fun _ => pending, .refl p⟩, rfl⟩
    · obtain ⟨buf, tail, moved, run⟩ := advance_decided (tracks_head tracks filled)
        (Int.not_lt.mp fun negative => pending (sign.mp negative))
      have sized := sized_of_decided (p := p) filled pending
      rw [run, flatWidth_eq sized, outlook_head tracks filled,
        decided_exact tracks ends (Nat.le_refl _) filled pending]
      cases ran : p.page.write v.stream[p.buf.offset] (v.size p.config p.buf.offset) with
      | error f => exact rfl
      | ok page =>
        have free := (not_or.mp ((mem_waiting v _).not.mp pending))
        have popped := pop_tracks p.scan p.closed tracks filled tail moved
          (by rw [List.erase_of_not_mem free.1, tracks.scan])
          (by rw [List.erase_of_not_mem free.2, tracks.closed]) sized ran
        rw [release_of_free pending] at popped
        have headed := ih popped ends (by simp only [moved]; omega)
        rw [outlook_popped popped moved] at headed
        refine heads_mono headed ?_
        rintro q ⟨tracked, waits, kept⟩
        exact ⟨tracked, waits, ⟨kept.config, kept.scopes, kept.done⟩⟩

/-- Forcing an undecided head takes it out of the undecided, with a size that fits no line. -/
theorem breakHead_pending (tracks : Tracks stops v p) (filled : p.buf.offset < v.stream.length)
    (member : p.buf.offset ∈ v.waiting) :
    ∃ (buf : Ring (Entry Int)) (scan : Ring Int) (closed : List Int),
      p.breakHead = .ok { p with buf := buf, scan := scan, closed := closed } ∧
      buf.toList = ⟨v.stream[p.buf.offset], infiniteWidth⟩ ::
        entriesFrom (v.size p.config) (p.buf.offset + 1) (v.stream.drop (p.buf.offset + 1)) ∧
      buf.offset = p.buf.offset ∧
      scan.toList = positions (v.opened.erase p.buf.offset) ∧
      closed = positions (v.ended.erase p.buf.offset) := by
  have held := tracks_head tracks filled
  have negative := (size_negative_iff tracks (Nat.le_refl _) filled).mpr member
  obtain ⟨buf, written, forced, still⟩ := write_at (r := p.buf) (i := 0) (by simp [held])
    ⟨v.stream[p.buf.offset], infiniteWidth⟩
  rw [held, List.set_cons_zero] at forced
  simp only [Int.natCast_zero, Int.add_zero] at written
  have ends : (positions v.ended).erase (p.buf.offset : Int) = positions (v.ended.erase p.buf.offset) :=
    (List.map_erase (fun _ _ same => Int.ofNat.inj same) v.ended).symm
  have apart := (List.nodup_append.mp tracks.shape.distinct).2.2
  have scanned := tracks.scan
  cases order : v.opened with
  | nil =>
    have count : p.scan.length = 0 := by simp [scan_length tracks, order]
    refine ⟨buf, p.scan, p.closed.erase p.buf.offset, ?_, forced, still, ?_, ?_⟩
    · simp [Printer.breakHead, front_cons held, queue, negative, count, Ring.frontPos, written]
    · rw [scanned, order]
      rfl
    · rw [tracks.closed, ends]
  | cons first rest =>
    have count : p.scan.length ≠ 0 := by simp [scan_length tracks, order]
    rw [order] at scanned
    have front := front_cons (r := p.scan) scanned
    by_cases same : first = p.buf.offset
    · obtain ⟨scan, popped, tail, _⟩ := popFront_cons (r := p.scan) scanned
      refine ⟨buf, scan, p.closed, ?_, forced, still, ?_, ?_⟩
      · simp [Printer.breakHead, front_cons held, queue, negative, count, Ring.frontPos, written, front,
          same, popped]
      · simp [tail, same, positions]
      · have free : p.buf.offset ∉ v.ended := fun ended =>
          apart _ (by simp [order, same]) _ ended rfl
        rw [tracks.closed, List.erase_of_not_mem free]
    · have free : p.buf.offset ∉ v.opened := fun opened =>
        same (opened_first tracks.shape order opened)
      have other : (first : Int) ≠ p.buf.offset := by omega
      refine ⟨buf, p.scan, p.closed.erase p.buf.offset, ?_, forced, still, ?_, ?_⟩
      · simp [Printer.breakHead, front_cons held, queue, negative, count, Ring.frontPos, written, front,
          other]
      · rw [← order, List.erase_of_not_mem free, order]
        exact scanned
      · rw [tracks.closed, ends]

/-- A decided head needs no forcing. -/
theorem breakHead_decided {ι : Type} [Columns ι] {p : Printer ι} {e : Entry ι} {es : List (Entry ι)}
    (held : p.buf.toList = e :: es) (decided : ¬ e.size < 0) : p.breakHead = .ok p := by
  simp only [Printer.breakHead, front_cons held, queue, ok_bind, decided, ↓reduceIte]
  rfl

/-- What does not fit within the totals does not fit with its exact size either. -/
theorem forced_write (tracks : Tracks stops v p)
    (forward : Forward p.config rest) (filled : p.buf.offset < v.stream.length) (member : p.buf.offset ∈ v.waiting)
    (wide : p.page.sink.space < p.rightTotal - p.leftTotal) :
    p.page.write v.stream[p.buf.offset] infiniteWidth = p.page.write v.stream[p.buf.offset]
      (exactSize p.config v.stream[p.buf.offset] (v.stream.drop (p.buf.offset + 1) ++ rest)) := by
  obtain ⟨r, runs⟩ := shaped_spot tracks.shape member
  simp only [spot, List.drop_eq_getElem_cons filled] at runs
  have opens : opening v.stream[p.buf.offset] ≠ none := by
    intro plain
    simp [reach, plain] at runs
  have split : columnsOf p.config v.stream = columnsOf p.config (v.stream.take p.buf.offset) +
      columnsOf p.config (v.stream[p.buf.offset] :: v.stream.drop (p.buf.offset + 1)) := by
    rw [← List.drop_eq_getElem_cons filled, ← columnsOf_append, List.take_append_drop]
  -- The extent of the head has not ended: it is at least as wide as all that is held back.
  have longer := extent_nonneg r forward
  have space := tracks.page.space
  have margin := tracks.margin
  rw [tracks.left, tracks.right] at wide
  apply write_size_congr opens
  rw [exactSize_append, runs, exactSize_of_reach runs]
  simp only [Option.map_some, Option.getD_some]
  omega

/-- A round of forcing heads for the same page. -/
theorem force_heads (tracks : Tracks (fun _ => False) v p)
    (forward : Forward p.config rest) (filled : p.buf.offset < v.stream.length)
    (wide : p.page.sink.space < p.rightTotal - p.leftTotal) :
    Heads rest (outlook p rest)
      (fun q => ∃ w, Tracks (fun _ => False) w q ∧ HeadWaits w q ∧ w.depth = v.depth ∧ LayoutKept p q)
      (p.breakHead >>= Printer.advance) := by
  by_cases member : p.buf.offset ∈ v.waiting
  · obtain ⟨buf, scan, closed, broken, held, still, opened, ended⟩ :=
      breakHead_pending tracks filled member
    obtain ⟨tail, left, moved, run⟩ := advance_decided
      (p := { p with buf := buf, scan := scan, closed := closed }) held
      (show (0 : Int) ≤ 65535 by decide)
    have opens : opening v.stream[p.buf.offset] = none →
        infiniteWidth = columns p.config v.stream[p.buf.offset] := by
      obtain ⟨r, runs⟩ := shaped_spot tracks.shape member
      simp only [spot, List.drop_eq_getElem_cons filled] at runs
      intro plain
      simp [reach, plain] at runs
    rw [broken, ok_bind, run, flatWidth_eq opens, outlook_head tracks filled,
      ← forced_write tracks forward filled member wide]
    simp only [still] at moved
    cases ran : p.page.write v.stream[p.buf.offset] infiniteWidth with
    | error f => exact rfl
    | ok page =>
      have popped := pop_tracks scan closed tracks filled left moved opened ended opens ran
      have headed := advance_heads rest popped (fun _ never => never.elim)
      rw [outlook_popped popped moved] at headed
      refine heads_mono headed ?_
      rintro q ⟨tracked, waits, kept⟩
      exact ⟨_, tracked, waits, rfl, ⟨kept.config, kept.scopes, kept.done⟩⟩
  · have held := tracks_head tracks filled
    have decided : ¬ v.size p.config p.buf.offset < 0 := fun negative =>
      member ((size_negative_iff tracks (Nat.le_refl _) filled).mp negative)
    rw [breakHead_decided held decided, ok_bind]
    refine heads_mono (advance_heads rest tracks fun _ never => never.elim) ?_
    rintro q ⟨tracked, waits, kept⟩
    exact ⟨v, tracked, waits, rfl, kept⟩

/-- Forcing, for as many rounds as it takes, heads for the same page. -/
theorem checkStreamUpTo_heads (fuel : Nat) (tracks : Tracks (fun _ => False) v p) (forward : Forward p.config rest) :
    Heads rest (outlook p rest)
      (fun q => ∃ w, Tracks (fun _ => False) w q ∧ (HeadWaits v p → HeadWaits w q) ∧ w.depth = v.depth ∧
        LayoutKept p q) (Printer.checkStreamUpTo fuel p) := by
  induction fuel generalizing v p with
  | zero => exact ⟨⟨v, tracks, id, rfl, .refl p⟩, rfl⟩
  | succ fuel ih =>
    unfold Printer.checkStreamUpTo
    split
    · rename_i wide
      have filled := tracks_filled tracks wide.2
      rw [← bind_assoc]
      refine heads_bind (force_heads tracks forward filled wide.1) ?_
      rintro q ⟨w, tracked, waits, depth, kept⟩
      refine heads_mono (ih tracked (kept.config ▸ forward)) ?_
      rintro r ⟨x, tracked, later, deeper, further⟩
      exact ⟨x, tracked, fun _ => later waits, deeper.trans depth, kept.trans further⟩
    · exact ⟨⟨v, tracks, id, rfl, .refl p⟩, rfl⟩

/-- A token joins the buffer with the size that its view stores for it. -/
theorem push_tracks {w : View} {q : Printer Int} {t : Token Int} (tracks : Tracks stops v p)
    (stream : w.stream = v.stream ++ [t]) (base : w.base = v.base)
    (same : ∀ i, i < v.stream.length → (i ∈ w.waiting ↔ i ∈ v.waiting))
    (depth : level v.depth t = some w.depth) (shape : StreamShaped (fun _ => False) p.buf.offset w)
    (ends : ∀ r, stops r → r.step t = none) (counted : 0 ≤ columns p.config t)
    (positive : 1 ≤ p.leftTotal) (config : q.config = p.config) (page : q.page = p.page)
    (buf : q.buf = p.buf.pushBack ⟨t, w.size p.config v.stream.length⟩)
    (scan : q.scan.toList = positions w.opened) (closed : q.closed = positions w.ended)
    (left : q.leftTotal = p.leftTotal) (right : q.rightTotal = p.rightTotal + columns p.config t) :
    Tracks (fun _ => False) w q := by
  have le := tracks.le
  have sizes : ∀ j, p.buf.offset ≤ j → j < p.buf.offset + (v.stream.drop p.buf.offset).length →
      v.size p.config j = w.size p.config j := by
    intro j low high
    have old : j < v.stream.length := by simp only [List.length_drop] at high; omega
    by_cases member : j ∈ v.waiting
    · rw [size_waiting member, size_waiting ((same j old).mpr member), base, stream,
        List.take_append_of_le_length (Nat.le_of_lt old)]
    · have free : j ∉ w.waiting := fun later => member ((same j old).mp later)
      rw [size_decided member, size_decided free, stream, sizeAt_concat old]
      exact fun r here => ends r (tracks.shape.settled j low old member r here)
  have offset : q.buf.offset = p.buf.offset := by rw [buf, offset_pushBack]
  refine ⟨?_, ?_, scan, closed, ?_, ?_, ?_, ?_, ?_, config ▸ page ▸ tracks.page, config ▸ tracks.margin,
    offset ▸ shape⟩
  · simp only [offset, stream, List.length_append, List.length_singleton]
    omega
  · rw [buf, toList_pushBack, tracks.buf, offset_pushBack, config, stream,
      List.drop_append_of_le_length le, entriesFrom_concat, entriesFrom_congr sizes]
    simp only [List.length_drop]
    congr
    omega
  · rw [left, offset, config, base, stream, List.take_append_of_le_length le, tracks.left]
  · rw [right, config, base, stream, columnsOf_append, tracks.right]
    simp only [columnsOf]
    omega
  · intro _
    omega
  · intro u member
    rw [stream, List.mem_append, List.mem_singleton] at member
    rw [config]
    rcases member with member | rfl
    · exact tracks.forward u member
    · exact counted
  · rw [page, offset, stream, List.drop_append_of_le_length le]
    exact levels_concat tracks.depth depth

/-- A stored position reads the token of its index. -/
theorem read_entry {size : Nat → Int} {stream : List (Token Int)} {t : Token Int}
    (held : p.buf.toList = entriesFrom size p.buf.offset (stream.drop p.buf.offset))
    (low : p.buf.offset ≤ i) (found : stream[i]? = some t) : p.buf.read i = .ok ⟨t, size i⟩ := by
  have place : (i : Int) = p.buf.offset + (i - p.buf.offset : Nat) := by omega
  have index : p.buf.offset + (i - p.buf.offset) = i := by omega
  rw [place]
  apply read_at
  rw [held, entriesFrom_getElem?, List.getElem?_drop, index, found]
  rfl

/-- Resolving a position stores the exact size of what ends here. -/
private theorem resolve_buf (shape : StreamShaped stops p.buf.offset v) (held : p.buf.toList =
      entriesFrom (v.size p.config) p.buf.offset (v.stream.drop p.buf.offset))
    (right : p.rightTotal = v.base + columnsOf p.config v.stream) (member : i ∈ v.waiting) :
    ∃ buf : Ring (Entry Int), p.resolve i = .ok { p with buf := buf } ∧
      buf.toList = entriesFrom ((v.release i).size p.config) p.buf.offset
        (v.stream.drop p.buf.offset) ∧
      buf.offset = p.buf.offset := by
  obtain ⟨low, high⟩ := shape.bounds i member
  obtain ⟨r, runs⟩ := shaped_spot shape member
  have place : (i : Int) = p.buf.offset + (i - p.buf.offset : Nat) := by omega
  have index : p.buf.offset + (i - p.buf.offset) = i := by omega
  have within : i - p.buf.offset < (v.stream.drop p.buf.offset).length := by
    simp only [List.length_drop]
    omega
  have token : (v.stream.drop p.buf.offset)[i - p.buf.offset] = v.stream[i] := by
    simp only [List.getElem_drop, index]
  have read := read_entry held low (List.getElem?_eq_getElem high)
  have resolved : v.size p.config i + p.rightTotal = (v.release i).size p.config i := by
    have free : i ∉ (v.release i).waiting := fun waits => ((mem_release shape i).mp waits).2 rfl
    have split := columnsOf_append p.config (v.stream.take i) (v.stream.drop i)
    rw [List.take_append_drop] at split
    rw [size_waiting member, size_decided free, right]
    show _ = sizeAt p.config v.stream i
    rw [sizeAt_of_spot runs]
    omega
  obtain ⟨buf, written, stored, still⟩ := write_at (r := p.buf) (i := i - p.buf.offset)
    (by simpa [held] using within) ⟨v.stream[i], (v.release i).size p.config i⟩
  refine ⟨buf, ?_, ?_, still⟩
  · rw [← place] at written
    simp [Printer.resolve, read, queue, resolved, written]
  · have set := entriesFrom_set (v.size p.config) ((v.release i).size p.config)
      (i := p.buf.offset) within fun j apart => size_release_ne p.config shape (by omega)
    rw [index, token] at set
    rw [stored, held, set]

/-- A printer tracks another view of the same stream once its buffer stores the sizes of that view. -/
private theorem rebuffered_tracks {wider : Reach → Prop} {w : View} {buf : Ring (Entry Int)}
    {scan : Ring Int} {closed : List Int} (tracks : Tracks stops v p) (stream : w.stream = v.stream)
    (base : w.base = v.base) (depth : w.depth = v.depth) (still : buf.offset = p.buf.offset)
    (held : buf.toList = entriesFrom (w.size p.config) p.buf.offset (v.stream.drop p.buf.offset))
    (opened : scan.toList = positions w.opened) (ended : closed = positions w.ended)
    (shape : StreamShaped wider p.buf.offset w) :
    Tracks wider w { p with buf := buf, scan := scan, closed := closed } := by
  obtain ⟨le, _, _, _, left, right, positive, forward, deep, page, margin, _⟩ := tracks
  rw [← stream] at le left right positive forward deep held
  rw [← base] at left right
  rw [← depth] at deep
  rw [← still] at le left positive deep held shape
  exact ⟨le, held, opened, ended, left, right, positive, forward, deep, page, margin, shape⟩

/-- The innermost undecided index of the open groups is resolved, if its extent ends here. -/
theorem resolve_tracks {outer : List Nat} {scan : Ring Int} (tracks : Tracks stops v p)
    (order : v.opened = outer ++ [i]) (stop : ∀ r, spot v.stream i = some r → stops r)
    (nested : IndicesNested v.stream 0 outer.reverse) (popped : scan.toList = positions outer) :
    ∃ buf : Ring (Entry Int), Printer.resolve { p with scan := scan } i =
        .ok { p with buf := buf, scan := scan } ∧ buf.offset = p.buf.offset ∧
      Tracks stops { v with opened := outer } { p with buf := buf, scan := scan } := by
  have distinct := List.nodup_append.mp tracks.shape.distinct
  have member : i ∈ v.opened := by simp [order]
  have fresh : i ∉ outer := by
    have own := distinct.1
    rw [order, List.nodup_append] at own
    exact fun inside => own.2.2 i inside i (by simp) rfl
  have free : i ∉ v.ended := fun ended => distinct.2.2 i member i ended rfl
  have erased : v.opened.erase i = outer := by
    rw [order, List.erase_append_right _ fresh]
    simp
  have released : v.release i = { v with opened := outer } := by
    simp only [View.release, erased, List.erase_of_not_mem free]
  obtain ⟨buf, run, stored, still⟩ := resolve_buf (p := { p with scan := scan }) tracks.shape tracks.buf
    tracks.right ((mem_waiting v i).mpr (.inl member))
  have shape := shaped_release tracks.shape stop (by rwa [erased])
  rw [released] at stored shape
  exact ⟨buf, run, still,
    rebuffered_tracks tracks rfl rfl rfl still stored popped tracks.closed shape⟩

private theorem resolve_fold {q : Printer Int} (ended : List Nat) (order : v.ended = ended)
    (shape : StreamShaped (· = .line) q.buf.offset v)
    (held : q.buf.toList =
      entriesFrom (v.size q.config) q.buf.offset (v.stream.drop q.buf.offset))
    (right : q.rightTotal = v.base + columnsOf q.config v.stream) :
    ∃ buf : Ring (Entry Int), (positions ended).foldlM Printer.resolve q = .ok { q with buf := buf } ∧
      buf.toList = entriesFrom (View.size q.config { v with ended := [] }) q.buf.offset
        (v.stream.drop q.buf.offset) ∧
      buf.offset = q.buf.offset ∧ StreamShaped (· = .line) q.buf.offset { v with ended := [] } := by
  induction ended generalizing v q with
  | nil =>
    have same : { v with ended := [] } = v := by rw [← order]
    exact ⟨q.buf, rfl, by rw [same]; exact held, rfl, by rwa [same]⟩
  | cons i rest ih =>
    have distinct := List.nodup_append.mp shape.distinct
    have member : i ∈ v.ended := by simp [order]
    have free : i ∉ v.opened := fun opened => distinct.2.2 i opened i member rfl
    obtain ⟨buf, run, stored, still⟩ := resolve_buf shape held right
      ((mem_waiting v i).mpr (.inr member))
    have stop : ∀ r, spot v.stream i = some r → r = .line := by
      intro r here
      rw [shape.line i member] at here
      exact (Option.some.inj here).symm
    have released := shaped_release shape stop (by rw [List.erase_of_not_mem free]; exact shape.nested)
    have left : (v.release i).ended = rest := by simp [View.release, order]
    obtain ⟨final, runs, done, fixed, shaped⟩ := ih (q := { q with buf := buf }) left (still ▸ released)
      (by rw [still]; exact stored) right
    have same : { v.release i with ended := [] } = { v with ended := [] } := by
      simp [View.release, List.erase_of_not_mem free]
    refine ⟨final, ?_, ?_, fixed.trans still, ?_⟩
    · show Printer.resolve q i >>= _ = _
      rw [run]
      exact runs
    · rw [same] at done
      simp only [still] at done
      exact done
    · rw [same] at shaped
      simpa only [still] using shaped

/-- Everything that waits for a break of any group is resolved at once. -/
theorem resolveClosed_tracks (tracks : Tracks (fun _ => False) v p) :
    ∃ buf : Ring (Entry Int), p.resolveClosed = .ok { p with buf := buf, closed := [] } ∧
      buf.offset = p.buf.offset ∧
      Tracks (· = .line) { v with ended := [] } { p with buf := buf, closed := [] } := by
  obtain ⟨buf, run, stored, still, shape⟩ := resolve_fold v.ended rfl
    (shaped_mono tracks.shape fun _ never => never.elim) tracks.buf tracks.right
  refine ⟨buf, ?_, still, rebuffered_tracks tracks rfl rfl rfl still stored tracks.scan rfl shape⟩
  simp only [Printer.resolveClosed, tracks.closed, run]
  rfl

end Views

end Galley.Layout.Tracking
