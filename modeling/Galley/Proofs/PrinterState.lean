import Mathlib.Data.List.Induction
import Galley.Proofs.Rendering

/-! The state of a printer between two calls, said without reference to what it has taken in. The
undecided entries, the totals, the order of the pending positions and the open groups are all read
off the buffer; every sequence of answered calls leads to a state in which they agree. -/
namespace Galley.Layout.PrinterState
open RingQueue Extent PageWriting Pending Tracking
open Lookahead Emission Rendering
open Discipline (CallTakes call_cases)

/-- An open group, with the positions of its start and of its latest own break where they are still
held back. -/
structure OpenGroup where
  start : Option Int
  last : Option Int
  deriving DecidableEq, Repr

/-- The open groups, innermost first, after the token at a position. -/
def regroup (pos : Int) (groups : List OpenGroup) : Token Int → List OpenGroup
  | .groupStart _ => ⟨some pos, none⟩ :: groups
  | .groupEnd => groups.tail
  | .lineBreak _ =>
    match groups with
    | [] => []
    | inner :: outer => { inner with last := some pos } :: outer
  | _ => groups

/-- The open groups, innermost first, after tokens from a position on. -/
def openGroups (pos : Int) (groups : List OpenGroup) : List (Token Int) → List OpenGroup
  | [] => groups
  | t :: ts => openGroups (pos + 1) (regroup pos groups t) ts

/-- The open groups of a printer, innermost first: those of the page, and on from there those of the
buffer. -/
def groupsOf (p : Printer Int) : List OpenGroup :=
  openGroups p.buf.offset (List.replicate p.page.frames.length ⟨none, none⟩)
    (p.buf.toList.map Entry.token)

/-- What open groups can leave undecided, outermost first: of each group its start and then its
latest own break. -/
def undecided (groups : List OpenGroup) : List Int :=
  groups.reverse.flatMap fun g => g.start.toList ++ g.last.toList

/-- What the parts of a printer say of each other between two calls. -/
structure StateSound (p : Printer Int) : Prop where
  /-- The pending entries of the buffer are those of open and of closed groups. -/
  pending : ∀ pos, pos ∈ p.scan.toList ++ p.closed ↔ ∃ e, p.buf.read pos = .ok e ∧ e.size < 0
  distinct : (p.scan.toList ++ p.closed).Nodup
  ascending : p.scan.toList.Pairwise (· < ·)
  /-- The head of the buffer is pending. -/
  head : ∀ e ∈ p.buf.toList.head?, e.size < 0
  empty : p.buf.toList = [] ↔ p.idle = true
  /-- The totals differ by the flat width of the buffer. -/
  totals : p.buf.toList ≠ [] →
    p.rightTotal - p.leftTotal = columnsOf p.config (p.buf.toList.map Entry.token)
  /-- A pending entry stores the negated total of everything before it. -/
  stored : ∀ before e after, p.buf.toList = before ++ e :: after → e.size < 0 →
    e.size = -(p.leftTotal + columnsOf p.config (before.map Entry.token)) ∧ e.size ≤ -1
  /-- Of an open group only its start and its latest own break are pending, in this order. -/
  order : p.scan.toList.Sublist (undecided (groupsOf p))
  /-- The frames of the page and the groups of the buffer make up the open groups. -/
  frames : p.page.frames.length + (p.buf.toList.map Entry.token).countP Printer.isGroupStart =
    p.scopes.length + (p.buf.toList.map Entry.token).count .groupEnd

/-- Nothing is held back and no group is open. -/
structure Drained (p : Printer Int) : Prop where
  buf : p.buf.toList = []
  scan : p.scan.toList = []
  closed : p.closed = []
  frames : ∃ indent, p.page.frames = [⟨indent, .inconsistent, false⟩]

section Groups

variable {pos : Int} {groups : List OpenGroup} {t : Token Int} {ts : List (Token Int)}

theorem openGroups_concat (pos : Int) (groups : List OpenGroup) (ts : List (Token Int))
    (t : Token Int) :
    openGroups pos groups (ts ++ [t]) = regroup (pos + ts.length) (openGroups pos groups ts) t := by
  induction ts generalizing pos groups with
  | nil => simp [openGroups]
  | cons u ts ih =>
    have next : pos + 1 + (ts.length : Int) = pos + ((u :: ts).length : Int) := by
      simp only [List.length_cons]
      omega
    rw [List.cons_append, openGroups, ih, openGroups, next]

theorem regroup_length {m : Nat} (here : level groups.length t = some m) :
    (regroup pos groups t).length = m := by
  cases t with
  | groupStart g => cases here; rfl
  | groupEnd =>
    simp only [level, Option.ite_none_right_eq_some, Option.some.injEq] at here
    simpa [regroup] using here.2
  | lineBreak b =>
    cases here
    cases groups <;> rfl
  | text | indent | missing => cases here; rfl

theorem openGroups_length {m : Nat} (pos : Int) (nested : levels groups.length ts = some m) :
    (openGroups pos groups ts).length = m := by
  induction ts generalizing pos groups with
  | nil => cases nested; rfl
  | cons t ts ih =>
    obtain ⟨k, here, deeper⟩ := Option.bind_eq_some_iff.mp nested
    exact ih (pos + 1) (regroup_length here ▸ deeper)

/-- The open groups tell where a group start or a break stands whose extent has not ended. -/
def GroupShows (groups : List OpenGroup) (pos : Int) : Reach → Prop
  | .group n => groups[n]?.bind OpenGroup.start = some pos
  | .chunk n => groups[n]?.bind OpenGroup.last = some pos
  | .line => True

theorem shows_step {r s : Reach} {here : Int} (shown : GroupShows groups pos r) (runs : r.step t = some s) :
    GroupShows (regroup here groups t) pos s := by
  cases t with
  | groupStart g =>
    cases runs
    cases r <;> exact shown
  | groupEnd =>
    cases runs
    cases r with
    | line => trivial
    | group n =>
      cases n with
      | zero => trivial
      | succ n => simpa [GroupShows, regroup, Reach.leave] using shown
    | chunk n =>
      cases n with
      | zero => trivial
      | succ n => simpa [GroupShows, regroup, Reach.leave] using shown
  | lineBreak b =>
    cases groups with
    | nil => cases r <;> simp_all [GroupShows, Reach.step, Reach.meet]
    | cons inner outer =>
      cases r with
      | line => cases runs
      | group n =>
        cases runs
        cases n with
        | zero | succ => exact shown
      | chunk n =>
        cases n with
        | zero => cases runs
        | succ n =>
          cases runs
          exact shown
  | text | indent | missing => cases runs; exact shown

theorem shows_opening {r : Reach} (inside : groups ≠ []) (opens : opening t = some r) :
    GroupShows (regroup pos groups t) pos r := by
  cases t with
  | groupStart g => cases opens; rfl
  | lineBreak b =>
    cases opens
    cases groups with
    | nil => exact absurd rfl inside
    | cons inner outer => rfl
  | text | groupEnd | indent | missing => cases opens

/-- The open groups show every token of the buffer whose extent has not ended. -/
theorem openGroups_shows {m i : Nat} {r : Reach} (inside : groups ≠ [])
    (nested : levels groups.length ts = some m) (here : spot ts i = some r) :
    GroupShows (openGroups pos groups ts) (pos + i) r := by
  induction ts using List.reverseRecOn generalizing m r with
  | nil => simp [spot] at here
  | append_singleton ts t ih =>
    rw [levels_append] at nested
    obtain ⟨k, before, last⟩ := Option.bind_eq_some_iff.mp nested
    rw [openGroups_concat]
    -- The newest token moves every extent on by a step, or is the one that the extent starts with.
    by_cases old : i < ts.length
    · rw [spot_concat old] at here
      obtain ⟨s, earlier, runs⟩ := Option.bind_eq_some_iff.mp here
      exact shows_step (ih before earlier) runs
    · have new : i = ts.length := by
        by_contra far
        have past : (ts ++ [t]).length ≤ i := by simp; omega
        simp [spot, List.drop_eq_nil_of_le past] at here
      subst new
      rw [spot_last] at here
      refine shows_opening ?_ here
      have positive := levels_pos (List.length_pos_iff.mpr inside) before
      intro none
      have count := openGroups_length pos before
      simp [none] at count
      omega

end Groups

section Order

variable {stops : Reach → Prop} {v : View} {p q : Printer Int}

private theorem drop_of_shown {groups : List OpenGroup} {part : OpenGroup → Option Int} {n : Nat}
    {pos : Int} (here : groups[n]?.bind part = some pos) :
    ∃ g, groups.drop n = g :: groups.drop (n + 1) ∧ part g = some pos := by
  obtain ⟨g, found, same⟩ := Option.bind_eq_some_iff.mp here
  obtain ⟨bound, rfl⟩ := List.getElem?_eq_some_iff.mp found
  exact ⟨_, List.drop_eq_getElem_cons bound, same⟩

/-- Undecided indices of open groups are among those that the groups show. -/
theorem nested_sublist {stream : List (Token Int)} {groups : List OpenGroup} {n : Nat} {l : List Nat}
    (nested : IndicesNested stream n l) (shown : ∀ i ∈ l, ∀ r, spot stream i = some r → GroupShows groups i r) :
    (positions l).Sublist
      ((groups.drop n).flatMap fun g => g.last.toList ++ g.start.toList) := by
  induction nested with
  | nil n => exact List.nil_sublist _
  | @group n i outer here rest ih =>
    obtain ⟨g, split, own⟩ := drop_of_shown (shown i (by simp) _ here)
    have deeper := ih fun j member => shown j (by simp [member])
    rw [split, List.flatMap_cons, own]
    simpa [positions] using List.sublist_append_of_sublist_right (deeper.cons_cons _)
  | @alone n i here =>
    obtain ⟨g, split, own⟩ := drop_of_shown (shown i (by simp) _ here)
    rw [split, List.flatMap_cons, own]
    simp [positions]
  | @chunk n i j outer here first rest ih =>
    obtain ⟨g, split, own⟩ := drop_of_shown (shown i (by simp) _ here)
    obtain ⟨g', split', own'⟩ := drop_of_shown (shown j (by simp) _ first)
    obtain rfl : g = g' := by
      rw [split] at split'
      cases split'
      rfl
    have deeper := ih fun k member => shown k (by simp [member])
    rw [split, List.flatMap_cons, own, own']
    exact (deeper.cons_cons (j : Int)).cons_cons (i : Int)

theorem undecided_eq_reverse (groups : List OpenGroup) :
    undecided groups = (groups.flatMap fun g => g.last.toList ++ g.start.toList).reverse := by
  have each (g : OpenGroup) :
      (g.last.toList ++ g.start.toList).reverse = g.start.toList ++ g.last.toList := by
    obtain ⟨start, last⟩ := g
    cases start <;> cases last <;> rfl
  simp only [undecided, List.reverse_flatMap, Function.comp_def, each]

variable (tracks : Tracks stops v p)
include tracks

theorem scan_order : p.scan.toList.Sublist (undecided (groupsOf p)) := by
  have framed : List.replicate p.page.frames.length (⟨none, none⟩ : OpenGroup) ≠ [] := by
    obtain ⟨above, indent, frames⟩ := tracks.page.bottom
    simp [frames]
  have shown : ∀ i ∈ v.opened.reverse, ∀ r, spot v.stream i = some r → GroupShows (groupsOf p) i r := by
    intro i member r here
    have low := (tracks.shape.bounds i (by simp_all)).1
    have held : spot (v.stream.drop p.buf.offset) (i - p.buf.offset) = some r := by
      rw [← here, spot, spot, List.drop_drop, Nat.add_sub_cancel' low]
    have place : (p.buf.offset : Int) + (i - p.buf.offset : Nat) = i := by omega
    rw [groupsOf, tracks_tokens tracks, ← place]
    exact openGroups_shows framed (by simpa using tracks.depth) held
  have below := nested_sublist tracks.shape.nested shown
  rw [undecided_eq_reverse, tracks.scan]
  simpa [positions] using below.reverse

theorem mem_pending (pos : Int) : pos ∈ p.scan.toList ++ p.closed ↔ ∃ e, p.buf.read pos = .ok e ∧ e.size < 0 := by
  have stored : pos ∈ p.scan.toList ++ p.closed ↔ ∃ i ∈ v.waiting, (i : Int) = pos := by
    simp [tracks.scan, tracks.closed, positions, View.waiting, or_and_right, exists_or]
  rw [stored]
  constructor
  · rintro ⟨i, member, rfl⟩
    obtain ⟨low, high⟩ := tracks.shape.bounds i member
    exact ⟨_, read_entry tracks.buf low (List.getElem?_eq_getElem high),
      (size_negative_iff tracks low high).mpr member⟩
  · rintro ⟨e, read, negative⟩
    obtain ⟨k, rfl, found⟩ := read_ok read
    rw [tracks.buf, entriesFrom_getElem?] at found
    obtain ⟨t, held, rfl⟩ := Option.map_eq_some_iff.mp found
    rw [List.getElem?_drop] at held
    obtain ⟨high, _⟩ := List.getElem?_eq_some_iff.mp held
    exact ⟨p.buf.offset + k, (size_negative_iff tracks (by omega) high).mp negative, by omega⟩

theorem pending_distinct : (p.scan.toList ++ p.closed).Nodup := by
  have same : p.scan.toList ++ p.closed = positions v.waiting := by
    simp [tracks.scan, tracks.closed, positions, View.waiting]
  rw [same]
  exact List.Pairwise.map _ (fun i j apart equal => apart (Int.ofNat_inj.mp equal)) tracks.shape.distinct

theorem scan_ascending : p.scan.toList.Pairwise (· < ·) := by
  rw [tracks.scan]
  exact tracks.shape.ascending.map _ fun i j less => Int.ofNat_lt.mpr less

theorem head_pending (waits : HeadWaits v p) : ∀ e ∈ p.buf.toList.head?, e.size < 0 := by
  intro e first
  by_cases filled : p.buf.offset < v.stream.length
  · rw [tracks_head tracks filled] at first
    cases first
    exact (size_negative_iff tracks (Nat.le_refl _) filled).mpr (waits filled)
  · simp [tracks_empty tracks filled] at first

theorem empty_iff_idle (waits : HeadWaits v p) : p.buf.toList = [] ↔ p.idle = true := by
  rw [idle_iff tracks]
  constructor
  · intro empty
    by_contra waiting
    simp [tracks_head tracks (some_held tracks waiting)] at empty
  · intro decided
    exact tracks_empty tracks (all_written waits decided)

theorem totals_differ : p.rightTotal - p.leftTotal = columnsOf p.config (p.buf.toList.map Entry.token) := by
  have all := columnsOf_append p.config (v.stream.take p.buf.offset) (v.stream.drop p.buf.offset)
  rw [List.take_append_drop] at all
  rw [tracks_tokens tracks, tracks.left, tracks.right, all]
  omega

theorem stored_size {before after : List (Entry Int)} {e : Entry Int}
    (held : p.buf.toList = before ++ e :: after) (negative : e.size < 0) :
    e.size = -(p.leftTotal + columnsOf p.config (before.map Entry.token)) := by
  have tokens := tracks_tokens tracks
  rw [held, List.map_append, List.map_cons] at tokens
  have found : p.buf.toList[before.length]? = some e := by simp [held]
  rw [tracks.buf, entriesFrom_getElem?] at found
  obtain ⟨t, here, rfl⟩ := Option.map_eq_some_iff.mp found
  rw [List.getElem?_drop] at here
  obtain ⟨high, _⟩ := List.getElem?_eq_some_iff.mp here
  have member := (size_negative_iff tracks (Nat.le_add_right _ _) high).mp negative
  have covered : v.stream.take (p.buf.offset + before.length) =
      v.stream.take p.buf.offset ++ before.map Entry.token := by
    rw [List.take_add, ← tokens, ← List.length_map Entry.token, List.take_left]
  show v.size p.config (p.buf.offset + before.length) = _
  rw [size_waiting member, covered, columnsOf_append, tracks.left]
  omega

omit tracks

theorem levels_count {n m : Nat} {ts : List (Token Int)} (nested : levels n ts = some m) :
    n + ts.countP Printer.isGroupStart = m + ts.count .groupEnd := by
  induction ts generalizing n with
  | nil =>
    cases nested
    rfl
  | cons t ts ih =>
    obtain ⟨k, here, deeper⟩ := Option.bind_eq_some_iff.mp nested
    have later := ih deeper
    cases t with
    | groupStart g =>
      cases here
      simp only [List.countP_cons, List.count_cons, Printer.isGroupStart]
      simp
      omega
    | groupEnd =>
      simp only [level, Option.ite_none_right_eq_some, Option.some.injEq] at here
      simp [Printer.isGroupStart]
      omega
    | text | lineBreak | indent | missing => cases here; simpa [Printer.isGroupStart] using later

theorem steady_sound (steady : PrinterSteady p.scopes.length p) : StateSound p := by
  obtain ⟨v, tracks, waits, depth⟩ := steady
  exact {
    pending := mem_pending tracks
    distinct := pending_distinct tracks
    ascending := scan_ascending tracks
    head := head_pending tracks waits
    empty := empty_iff_idle tracks waits
    totals := fun _ => totals_differ tracks
    stored := fun before e after held negative => ⟨stored_size tracks held negative, by omega⟩
    order := scan_order tracks
    frames := by
      rw [tracks_tokens tracks, ← depth]
      exact levels_count tracks.depth }

theorem idle_drained (steady : PrinterSteady 1 p) (idle : p.idle = true) : Drained p := by
  obtain ⟨v, tracks, waits, depth⟩ := steady
  have decided := (idle_iff tracks).mp idle
  have written := all_written waits decided
  obtain ⟨opened, ended⟩ := List.append_eq_nil_iff.mp decided
  refine ⟨tracks_empty tracks written, by rw [tracks.scan, opened]; rfl,
    by rw [tracks.closed, ended]; rfl, ?_⟩
  have count := tracks.depth
  rw [List.drop_eq_nil_of_le (by omega), depth, levels, Option.some.injEq] at count
  obtain ⟨above, indent, frames⟩ := tracks.page.bottom
  rw [frames] at count
  have bare : above = [] := by simpa using count
  exact ⟨indent, by simpa [bare] using frames⟩

end Order

/-- A state that calls lead to: ready for more, or at the end of the document. -/
structure Reached (p : Printer Int) : Prop where
  steady : PrinterSteady p.scopes.length p
  inside : p.scopes ≠ []

variable {p q : Printer Int}

theorem takes_reached (ready : PrinterReady p) (takes : CallTakes p q) : Reached q := by
  obtain ⟨t, after, admits, ran⟩ := takes
  obtain ⟨later, _⟩ := taken_ready ready admits ran
  exact ⟨later.steady, later.inside⟩

theorem finish_drained (ready : PrinterReady p) (ran : p.finish = .ok q) : Reached q ∧ Drained q := by
  have closed := finish_closed ready ran
  have heads := finish_heads ready closed
  rw [ran] at heads
  obtain ⟨⟨steady, idle, _, scopes, _⟩, _⟩ := heads
  refine ⟨⟨?_, scopes ▸ ready.inside⟩, idle_drained steady idle⟩
  rw [scopes, closed]
  exact steady

/-- A call that is answered leads from one reached state to another, and the end of the document to
one with nothing held back. -/
theorem call_reached {k : Call Int} (reached : Reached p) (ran : p.call k = .ok q) :
    Reached q ∧ (k = .eof → Drained q) := by
  obtain ⟨fresh, ends⟩ := call_cases reached.inside ran
  have ready : PrinterReady p := ⟨reached.steady, fresh, reached.inside⟩
  by_cases last : k = .eof
  · subst last
    obtain ⟨later, drained⟩ := finish_drained ready ran
    exact ⟨later, fun _ => drained⟩
  · rcases ends with ⟨eof, _⟩ | takes
    · exact absurd eof last
    · exact ⟨takes_reached ready takes, fun eof => absurd eof last⟩

theorem run_reached {calls : List (Call Int)} (reached : Reached p) (ran : p.run calls = .ok q) :
    Reached q := by
  induction calls generalizing p with
  | nil =>
    cases ran
    exact reached
  | cons k calls ih =>
    obtain ⟨next, first, rest⟩ := bind_ok ran
    exact ih (call_reached reached first).1 rest

/-- Whatever is asked of a printer of an accepted configuration, as long as every call is answered
its parts agree, and after the end of the document nothing is held back. -/
theorem reached_states_sound (c : Config Int) (calls : List (Call Int)) (start p : Printer Int)
    (accepted : Printer.ofConfig c = .ok start) (ran : start.run calls = .ok p) :
    StateSound p ∧ ∀ q, p.call .eof = .ok q → Drained q := by
  obtain ⟨ready, _⟩ := ofConfig_ready accepted
  have reached := run_reached ⟨ready.steady, ready.inside⟩ ran
  refine ⟨steady_sound reached.steady, ?_⟩
  intro q ended
  exact (call_reached reached ended).2 rfl

theorem ok_of_toOption {ε α β : Type} {x : Except ε α} {f : α → β} {b : β}
    (found : (x.map f).toOption = some b) : ∃ a, x = .ok a ∧ f a = b := by
  cases x with
  | error e => cases found
  | ok a => exact ⟨a, rfl, Option.some.inj found⟩

theorem reached_states_sound_nested :
    ∃ start p : Printer Int, Printer.ofConfig ⟨10, 4, false, false⟩ = .ok start ∧
      start.run [.groupStart .consistent 2, .text "aa", Call.space, .groupStart .inconsistent 0,
        .text "bb", .groupEnd, .text "c"] = .ok p ∧
      (p.scan.toList, p.closed, p.buf.length) = ([0, 2], [3], 7) ∧ StateSound p := by
  obtain ⟨p, run, state⟩ := ok_of_toOption (b := ([0, 2], [3], 7))
    (x := do
      (← Printer.ofConfig (⟨10, 4, false, false⟩ : Config Int)).run
        [.groupStart .consistent 2, .text "aa", Call.space, .groupStart .inconsistent 0,
          .text "bb", .groupEnd, .text "c"])
    (f := fun p => (p.scan.toList, p.closed, p.buf.length)) (by decide +kernel)
  obtain ⟨start, accepted, ran⟩ := bind_ok run
  exact ⟨start, p, accepted, ran, state, (reached_states_sound _ _ start p accepted ran).1⟩

end Galley.Layout.PrinterState
