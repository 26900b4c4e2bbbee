import Galley.Proofs.Boundedness
import Galley.Proofs.Words

/-! What keeps a printer's numbers within words. What is compared is bounded by the columns that a page can
get: those of texts, of breaks that fit on a line, and those by which lines are moved to the right. A break
that is wider than a line is the last token held back, and in no group that stays on one line; so it is
taken, and counts only while it is checked. -/
namespace Galley.Layout.Exactness
open RingQueue Extent PageWriting Pending Tracking
open Lookahead Words
open Boundedness (held TailHeld advance_sheds held_forward)

/-- The columns that tokens add to a page at most. -/
def costs (c : Config Int) : List (Token Int) → Int
  | [] => 0
  | t :: ts => cost c t + costs c ts

/-- A group ends among some tokens, given the number of groups that are open inside it. -/
def GroupCloses (n : Nat) (ts : List (Token Int)) : Prop := ∀ m, (Reach.group n).walk ts ≠ some (.group m)

/-- The groups of a page that stay on one line end among some tokens. -/
def GroupsContained (page : Page Int) (ts : List (Token Int)) : Prop :=
  ∀ n f, page.frames[n]? = some f → f.fits = true → GroupCloses n ts

/-- The columns that a printer has counted. Its totals mean nothing while it holds back nothing. -/
structure ColumnsSpent (spent : Int) (p : Printer Int) : Prop where
  least : 1 ≤ spent
  page : PageNarrow spent p.page
  left : held p ≠ [] → 1 ≤ p.leftTotal ∧ p.leftTotal ≤ spent

/-- What a printer counts stays within some columns, what the tokens that it holds back may add included.
All of these but the last would fit on an empty line. -/
structure CountsWithin (bound : Int) (p : Printer Int) : Prop where
  spent : ∃ spent, ColumnsSpent spent p ∧ spent + costs p.config (held p) ≤ bound
  before : columnsOf p.config (held p).dropLast ≤ p.config.margin
  ahead : Fits (columnsOf p.config (held p))
  moved : ∀ t ∈ held p, Fits (moves t)
  contained : GroupsContained p.page (held p)

/-- An entry with a size that has a word: its own columns if it has no extent, and else no less, once it is
decided and fits on a line. -/
structure EntrySized (c : Config Int) (e : Entry Int) : Prop where
  fits : Fits e.size
  counted : 0 ≤ columns c e.token
  plain : opening e.token = none → e.size = columns c e.token
  whole : 0 ≤ e.size → columns c e.token ≤ e.size ∨ c.margin < e.size

/-- A group start that is decided and fits on a line has its end after it. -/
def GroupEnded (c : Config Int) (es : List (Entry Int)) : Prop :=
  ∀ before e after, es = before ++ e :: after → Printer.isGroupStart e.token = true → 0 ≤ e.size →
    e.size ≤ c.margin → GroupCloses 0 (after.map Entry.token)

/-- A printer whose numbers all have words. -/
structure PrinterRoomy (bound : Int) (p : Printer Int) : Prop extends CountsWithin bound p where
  config : p.page.sink.config = p.config
  margin : p.config.margin < infiniteWidth
  totals : p.rightTotal - p.leftTotal = columnsOf p.config (held p)
  entries : ∀ e ∈ p.buf.toList, EntrySized p.config e
  ended : GroupEnded p.config p.buf.toList

/-- A token whose numbers have words, with room left for what it adds. -/
structure TokenFair (bound : Int) (c : Config Int) (t : Token Int) : Prop where
  room : bound + cost c t ≤ most
  moved : Fits (moves t)
  fits : Fits (columns c t)
  ahead : c.margin + columns c t ≤ most

variable {c : Config Int} {p q : Printer Int} {bound : Int} {t : Token Int} {ts : List (Token Int)}

section Costs

theorem costs_append (c : Config Int) (ts rest : List (Token Int)) :
    costs c (ts ++ rest) = costs c ts + costs c rest := by
  induction ts with
  | nil => simp [costs]
  | cons t ts ih =>
    simp only [List.cons_append, costs, ih]
    omega

theorem moves_le_cost (counted : 0 ≤ columns c t) : (moves t).toNat ≤ cost c t := by
  cases t with
  | lineBreak b =>
    simp only [columns] at counted
    simp only [moves, cost]
    split <;> omega
  | text s => exact counted
  | _ => exact Int.le_refl _

theorem cost_nonneg (counted : 0 ≤ columns c t) : 0 ≤ cost c t :=
  Int.le_trans (Int.natCast_nonneg _) (moves_le_cost counted)

/-- What fits on a line counts in full. -/
theorem columns_le_cost (slim : columns c t ≤ c.margin) : columns c t ≤ cost c t := by
  cases t with
  | lineBreak b =>
    simp only [columns] at slim ⊢
    simp only [cost, if_pos slim]
    omega
  | text s => exact Int.le_refl _
  | groupStart | indent => exact Int.natCast_nonneg _
  | _ => exact Int.le_refl _

theorem costs_nonneg (forward : Forward c ts) : 0 ≤ costs c ts := by
  induction ts with
  | nil => exact Int.le_refl 0
  | cons t ts ih =>
    have first := cost_nonneg (forward t (by simp))
    have later := ih fun u member => forward u (by simp [member])
    simp only [costs]
    omega

theorem columnsOf_le_costs (forward : Forward c ts) (slim : columnsOf c ts ≤ c.margin) :
    columnsOf c ts ≤ costs c ts := by
  induction ts with
  | nil => exact Int.le_refl 0
  | cons t ts ih =>
    have later : Forward c ts := fun u member => forward u (by simp [member])
    have counted := forward t (by simp)
    have rest := columnsOf_nonneg later
    simp only [columnsOf] at slim
    have first := columns_le_cost (c := c) (t := t) (by omega)
    have more := ih later (by omega)
    simp only [columnsOf, costs]
    omega

theorem extent_le {r : Reach} (forward : Forward c ts) : extent c r ts ≤ columnsOf c ts := by
  induction ts generalizing r with
  | nil => exact Int.le_refl 0
  | cons t ts ih =>
    have first := forward t (by simp)
    have later : Forward c ts := fun u member => forward u (by simp [member])
    cases next : r.step t with
    | none =>
      have rest := columnsOf_nonneg later
      simp only [extent, next, columnsOf]
      omega
    | some s =>
      have rest := ih (r := s) later
      simp only [extent, next, columnsOf]
      omega

theorem exactSize_le (forward : Forward c (t :: ts)) : exactSize c t ts ≤ columnsOf c (t :: ts) := by
  have later : Forward c ts := fun u member => forward u (by simp [member])
  have rest := columnsOf_nonneg later
  unfold exactSize
  simp only [columnsOf]
  cases opening t with
  | none =>
    dsimp only
    omega
  | some r =>
    have reached := extent_le (r := r) later
    dsimp only
    omega

end Costs

section Closing

variable {n : Nat} {page next : Page Int}

theorem closes_append (closes : GroupCloses n ts) (rest : List (Token Int)) : GroupCloses n (ts ++ rest) := by
  intro m runs
  rw [walk_append] at runs
  obtain ⟨r, first, later⟩ := Option.bind_eq_some_iff.mp runs
  cases walk_kindred first with
  | group k j => exact closes j first
  | line => cases walk_kindred later

theorem contained_append (contained : GroupsContained page ts) (rest : List (Token Int)) :
    GroupsContained page (ts ++ rest) :=
  fun n f found fits => closes_append (contained n f found fits) rest

/-- Before nothing but a break, no group of the page stays on one line. -/
theorem contained_break {b : Break Int} (contained : GroupsContained page [.lineBreak b]) :
    ∀ f ∈ page.frames.head?, f.fits = false := by
  intro f first
  refine Bool.eq_false_iff.mpr fun fits => ?_
  exact contained 0 f (by rw [← List.head?_eq_getElem?]; exact first) fits 0 rfl

/-- A group that is written onto one line ends among the tokens that follow. -/
theorem contained_wrote {size : Int} (contained : GroupsContained page (t :: ts))
    (starts : Printer.isGroupStart t = true → size ≤ page.sink.space → GroupCloses 0 ts)
    (wrote : Wrote page t size next) : GroupsContained next ts := by
  intro n f found fits
  cases wrote with
  | text | flat | taken => exact contained n f found fits
  | fit framed fitting =>
    cases n with
    | zero => exact starts rfl fitting
    | succ n => exact contained n f found fits
  | split =>
    cases n with
    | zero =>
      cases found
      cases fits
    | succ n => exact contained n f found fits
  | stop framed => exact contained (n + 1) f (by simpa [framed] using found) fits
  | @shift top rest delta _ framed =>
    cases n with
    | zero =>
      cases found
      exact contained 0 top (by simp [framed]) fits
    | succ n => exact contained (n + 1) f (by simpa [framed] using found) fits
  | missing => exact contained n f found fits

end Closing

section Rooms

variable {stops : Reach → Prop} {v : View}

theorem columnsOf_drop_le (forward : Forward c ts) {i j : Nat} (later : i ≤ j) :
    columnsOf c (ts.drop j) ≤ columnsOf c (ts.drop i) :=
  columnsOf_sublist (List.drop_sublist_drop_left ts later) fun t member => forward t (List.mem_of_mem_drop member)

theorem columns_le_exactSize (forward : Forward c ts) : columns c t ≤ exactSize c t ts := by
  unfold exactSize
  cases opening t with
  | none =>
    dsimp only
    omega
  | some r =>
    have reached := extent_nonneg r forward
    dsimp only
    omega

/-- What stands before the last token held back fits on a line, so it counts in full. -/
private theorem front_costs (within : CountsWithin bound p) (forward : Forward p.config (held p)) {k : Nat}
    (short : k < (held p).length) :
    columnsOf p.config ((held p).take k) ≤ costs p.config (held p) := by
  have slim : columnsOf p.config ((held p).take k) ≤ p.config.margin := by
    have before := within.before
    rw [List.dropLast_eq_take] at before
    refine Int.le_trans (columnsOf_sublist (List.take_sublist_take_left (by omega)) fun t member => ?_) before
    exact forward t (List.mem_of_mem_take member)
  have first : Forward p.config ((held p).take k) := fun t member => forward t (List.mem_of_mem_take member)
  have rest : Forward p.config ((held p).drop k) := fun t member => forward t (List.mem_of_mem_drop member)
  have covered := columnsOf_le_costs first slim
  have more := costs_nonneg rest
  have split := costs_append p.config ((held p).take k) ((held p).drop k)
  rw [List.take_append_drop] at split
  omega

/-- An entry held back has a size within the columns that its printer counts. -/
private theorem tracks_sized (tracks : Tracks stops v p) (within : CountsWithin bound p) (room : bound ≤ most)
    {i : Nat} (low : p.buf.offset ≤ i) (high : i < v.stream.length) :
    EntrySized p.config ⟨v.stream[i], v.size p.config i⟩ := by
  obtain ⟨spent, counts, paid⟩ := within.spent
  have tokens : held p = v.stream.drop p.buf.offset := tracks_tokens tracks
  have counted := tracks.forward _ (List.getElem_mem high)
  have sign := size_negative_iff tracks low high
  -- What waits stores a total that was counted before; what is decided, columns that are held back.
  by_cases member : i ∈ v.waiting
  · have negative := sign.mpr member
    have short : i - p.buf.offset < (held p).length := by
      rw [tokens, List.length_drop]
      omega
    have covered := front_costs within (held_forward tracks) short
    have stored : v.size p.config i =
        -(p.leftTotal + columnsOf p.config ((held p).take (i - p.buf.offset))) := by
      rw [size_waiting member, tracks.left, tokens, Int.add_assoc, ← columnsOf_append, ← List.take_add,
        Nat.add_sub_cancel' low]
    have left := counts.left (List.ne_nil_of_length_pos (by omega))
    have least : -bound ≤ v.size p.config i := by omega
    refine ⟨fits_within room least (by dsimp only; omega), counted, fun plain => ?_, fun decided => ?_⟩
    · obtain ⟨r, runs⟩ := shaped_spot tracks.shape member
      simp only [spot, List.drop_eq_getElem_cons high] at runs
      simp [reach, plain] at runs
    · exact absurd negative (Int.not_lt.mpr decided)
  · have decided := mt sign.mp member
    have ahead : Forward p.config (v.stream.drop (i + 1)) := fun t inside =>
      tracks.forward t (List.mem_of_mem_drop inside)
    have rest : Forward p.config (v.stream[i] :: v.stream.drop (i + 1)) := List.forall_mem_cons.mpr ⟨counted, ahead⟩
    have most := exactSize_le rest
    have least := columns_le_exactSize (t := v.stream[i]) ahead
    have behind := columnsOf_drop_le tracks.forward low
    have fits := within.ahead
    rw [← List.drop_eq_getElem_cons high] at most
    rw [tokens] at fits
    have size : v.size p.config i = exactSize p.config v.stream[i] (v.stream.drop (i + 1)) := by
      rw [size_decided member, sizeAt, List.drop_eq_getElem_cons high]
    refine ⟨⟨?_, ?_⟩, counted, sized_of_decided high member, fun _ => .inl ?_⟩
    · exact Int.le_trans (by decide) (Int.not_lt.mp decided)
    · exact Int.lt_of_le_of_lt (by dsimp only; omega) fits.2
    · dsimp only
      omega

theorem opening_of_start (starts : Printer.isGroupStart t = true) : opening t = some (.group 0) := by
  cases t with
  | groupStart g => rfl
  | _ => cases starts

/-- A decided group start has its end in the buffer, unless a group's extent may end anywhere. -/
private theorem tracks_ended (tracks : Tracks stops v p) (ends : ∀ n, ¬ stops (.group n)) :
    GroupEnded p.config p.buf.toList := by
  intro before e after parts starts decided _ m runs
  have tokens := tracks_tokens tracks
  rw [parts, List.map_append, List.map_cons] at tokens
  have rest : v.stream.drop (p.buf.offset + before.length) = e.token :: after.map Entry.token := by
    rw [← List.drop_drop, ← tokens, ← List.length_map Entry.token, List.drop_left]
  have high : p.buf.offset + before.length < v.stream.length := by
    have count := congrArg List.length rest
    simp only [List.length_drop, List.length_cons] at count
    omega
  have found : p.buf.toList[before.length]? = some e := by simp [parts]
  rw [tracks.buf, entriesFrom_getElem?, List.getElem?_drop, List.getElem?_eq_getElem high] at found
  cases found
  have free : p.buf.offset + before.length ∉ v.waiting := fun member => by
    have negative := (size_negative_iff tracks (Nat.le_add_right _ _) high).mpr member
    exact absurd negative (Int.not_lt.mpr decided)
  have opens := opening_of_start starts
  have here : spot v.stream (p.buf.offset + before.length) = some (.group m) := by
    simp only [spot, rest, reach, opens]
    exact runs
  exact ends m (tracks.shape.settled _ (Nat.le_add_right _ _) high free _ here)

theorem tracks_roomy (tracks : Tracks stops v p) (ends : ∀ n, ¬ stops (.group n)) (within : CountsWithin bound p)
    (room : bound ≤ most) : PrinterRoomy bound p := by
  refine ⟨within, tracks.page.config, tracks.margin, PrinterState.totals_differ tracks, fun e member => ?_,
    tracks_ended tracks ends⟩
  obtain ⟨k, found⟩ := List.getElem?_of_mem member
  rw [tracks.buf, entriesFrom_getElem?, List.getElem?_drop, Option.map_eq_some_iff] at found
  obtain ⟨t, here, rfl⟩ := found
  obtain ⟨high, rfl⟩ := List.getElem?_eq_some_iff.mp here
  exact tracks_sized tracks within room (Nat.le_add_right _ _) high

theorem roomy_forward (roomy : PrinterRoomy bound p) : Forward p.config (held p) := by
  intro t member
  obtain ⟨e, inside, rfl⟩ := List.mem_map.mp member
  exact (roomy.entries e inside).counted

theorem roomy_margin (roomy : PrinterRoomy bound p) : 0 ≤ p.config.margin ∧ p.config.margin ≤ bound := by
  obtain ⟨spent, counts, paid⟩ := roomy.spent
  have line := counts.page.margin
  have more := costs_nonneg (roomy_forward roomy)
  rw [roomy.config] at line
  omega

theorem roomy_mono {wider : Int} (roomy : PrinterRoomy bound p) (le : bound ≤ wider) : PrinterRoomy wider p := by
  obtain ⟨spent, counts, paid⟩ := roomy.spent
  exact { roomy with spent := ⟨spent, counts, Int.le_trans paid le⟩ }

section Head

variable {e : Entry Int} {es : List (Entry Int)}

/-- The head of the buffer is written in words as it is written. -/
theorem head_words (roomy : PrinterRoomy bound p) (room : bound ≤ most) (front : p.buf.toList = e :: es) :
    p.page.words.write e.token.words (word e.size) = Page.words <$> p.page.write e.token e.size := by
  have sized := roomy.entries e (by simp [front])
  have moved := roomy.moved e.token (by simp [held, front])
  obtain ⟨spent, counts, paid⟩ := roomy.spent
  have forward := roomy_forward roomy
  simp only [held, front, List.map_cons, costs] at paid forward
  have behind := costs_nonneg fun t member => forward t (List.mem_cons_of_mem _ member)
  have least := moves_le_cost sized.counted
  exact write_words counts.page (by omega) moved sized.fits

/-- The head of the buffer fits on a line, unless nothing stands behind it. -/
private theorem head_slim (roomy : PrinterRoomy bound p) (front : p.buf.toList = e :: es) :
    columns p.config e.token ≤ p.config.margin ∨ es = [] := by
  cases es with
  | nil => exact .inr rfl
  | cons f es =>
    refine .inl ?_
    have before := roomy.before
    have forward := roomy_forward roomy
    simp only [held, front, List.map_cons, List.dropLast_cons_cons, columnsOf] at before forward
    have rest : Forward p.config ((f.token :: es.map Entry.token).dropLast) := fun t member =>
      forward t (List.mem_cons_of_mem _ ((List.dropLast_sublist _).subset member))
    have later := columnsOf_nonneg rest
    omega

/-- A break at the head of the buffer that is wider than a line comes with a size that fits on none, and in
no group that stays on one line. -/
private theorem head_wide (roomy : PrinterRoomy bound p) (front : p.buf.toList = e :: es) (decided : 0 ≤ e.size) :
    ∀ b, e.token = .lineBreak b → p.config.margin < b.width →
      p.config.margin < e.size ∧ ∀ f ∈ p.page.frames.head?, f.fits = false := by
  intro b token wide
  have width : columns p.config e.token = b.width := by rw [token]; rfl
  have whole := (roomy.entries e (by simp [front])).whole decided
  refine ⟨by omega, ?_⟩
  have alone : es = [] := (head_slim roomy front).resolve_left (by omega)
  have contained := roomy.contained
  simp only [held, front, alone, List.map_cons, List.map_nil, token] at contained
  exact contained_break contained

/-- The first token leaves the buffer for the page. -/
theorem pop_roomy {buf : Ring (Entry Int)} {page : Page Int} (roomy : PrinterRoomy bound p)
    (front : p.buf.toList = e :: es) (tail : buf.toList = es) (decided : 0 ≤ e.size)
    (ran : p.page.write e.token e.size = .ok page) :
    PrinterRoomy bound { p with buf := buf, page := page, leftTotal := p.leftTotal + e.flatWidth } := by
  have sized := roomy.entries e (by simp [front])
  have wide := head_wide roomy front decided
  have slim := head_slim roomy front
  have forward := roomy_forward roomy
  have inside := roomy.contained
  have ahead := roomy.ahead
  have totals := roomy.totals
  obtain ⟨spent, counts, paid⟩ := roomy.spent
  have line := counts.page.margin
  have width : e.flatWidth = columns p.config e.token := flatWidth_eq sized.plain
  have parts : held p = e.token :: es.map Entry.token := by simp [held, front]
  rw [parts] at paid forward inside ahead totals
  simp only [costs, columnsOf] at paid ahead totals
  have later : Forward p.config (es.map Entry.token) := fun t member =>
    forward t (List.mem_cons_of_mem _ member)
  have rest := columnsOf_nonneg later
  have counted := sized.counted
  rw [roomy.config] at line
  have wrote := narrow_wrote counts.page (by rw [roomy.config]; exact counted)
    (by rw [roomy.config]; exact sized.plain) (by rw [roomy.config]; exact wide) (write_cases ran)
  rw [roomy.config] at wrote
  have least := counts.least
  have more := cost_nonneg counted
  have same : held { p with buf := buf, page := page, leftTotal := p.leftTotal + e.flatWidth } =
      es.map Entry.token := by
    simp only [held, tail]
  have spends : ColumnsSpent (spent + cost p.config e.token)
      { p with buf := buf, page := page, leftTotal := p.leftTotal + e.flatWidth } := by
    refine ⟨by omega, wrote, fun filled => ?_⟩
    have fits := slim.resolve_right fun alone => filled (by rw [same, alone]; rfl)
    have full := columns_le_cost fits
    have left := counts.left (by rw [parts]; exact List.cons_ne_nil _ _)
    dsimp only
    omega
  have before : columnsOf p.config (es.map Entry.token).dropLast ≤ p.config.margin := by
    cases es with
    | nil => exact line.1
    | cons f es =>
      have short := roomy.before
      simp only [parts, List.map_cons, List.dropLast_cons_cons, columnsOf] at short
      simp only [List.map_cons]
      omega
  refine ⟨⟨⟨_, spends, ?_⟩, ?_, ?_, ?_, ?_⟩, (Safety.write_keeps ran).trans roomy.config, roomy.margin, ?_,
    fun other member => ?_, ?_⟩
  · rw [same]
    dsimp only
    omega
  · rw [same]
    exact before
  · rw [same]
    exact ⟨Int.le_trans (by decide) rest, Int.lt_of_le_of_lt (by dsimp only; omega) ahead.2⟩
  · rw [same]
    exact fun t member => roomy.moved t (by rw [parts]; exact List.mem_cons_of_mem _ member)
  · rw [same]
    refine contained_wrote inside (fun starts fits => ?_) (write_cases ran)
    have reached := counts.page.space
    rw [roomy.config] at reached
    exact roomy.ended [] e es front starts decided (by omega)
  · rw [same]
    dsimp only
    omega
  · exact roomy.entries other (by rw [front]; exact List.mem_cons_of_mem _ (tail ▸ member))
  · intro before f after split
    exact roomy.ended (e :: before) f after (by rw [front, ← tail, split]; rfl)

end Head

end Rooms

/-- An action ends in words as it ends, in a printer whose numbers have words. -/
structure SeenInWords (bound : Int) (x : Except Fault (Printer Int)) (y : Except Fault (Printer Int64)) : Prop where
  same : y = Printer.words <$> x
  roomy : ∀ q, x = .ok q → PrinterRoomy bound q

section Actions

variable {wider : Int}

theorem seen_ok (roomy : PrinterRoomy bound q) : SeenInWords bound (.ok q) (.ok q.words) := by
  refine ⟨rfl, fun r ran => ?_⟩
  cases ran
  exact roomy

theorem seen_bind {x : Except Fault (Printer Int)} {y : Except Fault (Printer Int64)}
    {f : Printer Int → Except Fault (Printer Int)} {g : Printer Int64 → Except Fault (Printer Int64)}
    (first : SeenInWords bound x y)
    (rest : ∀ q, x = .ok q → PrinterRoomy bound q → SeenInWords wider (f q) (g q.words)) :
    SeenInWords wider (x >>= f) (y >>= g) := by
  constructor
  · exact bind_seen first.same fun q ran => (rest q ran (first.roomy q ran)).same
  · intro r ran
    obtain ⟨q, before, later⟩ := bind_ok ran
    exact (rest q before (first.roomy q before)).roomy r later

theorem seen_after {α β : Type} {x : Except Fault α} {y : Except Fault β} {seen : α → β}
    {f : α → Except Fault (Printer Int)} {g : β → Except Fault (Printer Int64)} (first : y = seen <$> x)
    (rest : ∀ a, x = .ok a → SeenInWords bound (f a) (g (seen a))) : SeenInWords bound (x >>= f) (y >>= g) := by
  constructor
  · exact bind_seen first fun a ran => (rest a ran).same
  · intro r ran
    obtain ⟨a, before, later⟩ := bind_ok ran
    exact (rest a before).roomy r later

theorem seen_mono {x : Except Fault (Printer Int)} {y : Except Fault (Printer Int64)} (seen : SeenInWords bound x y)
    (le : bound ≤ wider) : SeenInWords wider x y :=
  ⟨seen.same, fun q ran => roomy_mono (seen.roomy q ran) le⟩

theorem seen_fails {f : Fault} : SeenInWords bound (.error f) (.error f) := by
  refine ⟨rfl, fun q ran => ?_⟩
  cases ran

theorem advanceUpTo_seen (fuel : Nat) (roomy : PrinterRoomy bound p) (room : bound ≤ most) :
    SeenInWords bound (Printer.advanceUpTo fuel p) (Printer.advanceUpTo fuel p.words) := by
  induction fuel generalizing p with
  | zero => exact seen_ok roomy
  | succ fuel ih =>
    refine ite_related Iff.rfl (fun _ => seen_ok roomy) fun filled => ?_
    obtain ⟨e, es, front⟩ : ∃ e es, p.buf.toList = e :: es := by
      refine List.exists_cons_of_ne_nil fun empty => filled ?_
      rw [← length_toList, empty]
      rfl
    have sized := roomy.entries e (by simp [front])
    refine seen_after (queue_seen _ (front_seen Entry.words p.buf)) fun first found => ?_
    rw [front_cons front] at found
    cases found
    refine ite_related (word_neg sized.fits) (fun _ => seen_ok roomy) fun decided => ?_
    obtain ⟨buf, popped, tail, _⟩ := popFront_cons front
    refine seen_after (queue_seen _ (popFront_seen Entry.words p.buf)) fun last found => ?_
    rw [popped] at found
    cases found
    refine seen_after (head_words roomy room front) fun page ran => ?_
    have width : p.words.leftTotal + e.words.flatWidth = word (p.leftTotal + e.flatWidth) := by
      rw [flatWidth_words]
      exact (Int64.ofInt_add _ _).symm
    dsimp only
    rw [width]
    exact ih (pop_roomy roomy front tail (Int.not_lt.mp decided) ran)

theorem advance_seen (roomy : PrinterRoomy bound p) (room : bound ≤ most) :
    SeenInWords bound p.advance p.words.advance :=
  advanceUpTo_seen p.buf.length roomy room

/-- A head that is not decided has an extent, so any size will do for it. -/
theorem force_roomy {e : Entry Int} {es : List (Entry Int)} {buf : Ring (Entry Int)} (roomy : PrinterRoomy bound p)
    (front : p.buf.toList = e :: es) (pending : e.size < 0)
    (stored : buf.toList = ⟨e.token, infiniteWidth⟩ :: es) (scan : Ring Int) (closed : List Int) :
    PrinterRoomy bound { p with buf := buf, scan := scan, closed := closed } := by
  have sized := roomy.entries e (by simp [front])
  have same : held { p with buf := buf, scan := scan, closed := closed } = held p := by
    simp [held, stored, front]
  obtain ⟨spent, counts, paid⟩ := roomy.spent
  refine ⟨⟨⟨spent, ⟨counts.least, counts.page, ?_⟩, ?_⟩, ?_, ?_, ?_, ?_⟩, roomy.config, roomy.margin, ?_,
    fun other member => ?_, ?_⟩
  · rw [same]
    exact counts.left
  · rw [same]
    exact paid
  · rw [same]
    exact roomy.before
  · rw [same]
    exact roomy.ahead
  · rw [same]
    exact roomy.moved
  · rw [same]
    exact roomy.contained
  · rw [same]
    exact roomy.totals
  · simp only [stored, List.mem_cons] at member
    rcases member with rfl | later
    · refine ⟨show Fits 65535 by constructor <;> decide, sized.counted, fun plain => ?_, fun _ => .inr roomy.margin⟩
      have whole := sized.plain plain
      have counted := sized.counted
      omega
    · exact roomy.entries other (by simp [front, later])
  · intro before f after split starts decided fits
    rw [stored] at split
    cases before with
    | nil =>
      cases split
      exact absurd roomy.margin (Int.not_lt.mpr fits)
    | cons g before =>
      cases split
      exact roomy.ended (e :: before) f after front starts decided fits

/-- A head is forced in words as it is forced. -/
theorem breakHead_words {e : Entry Int} {es : List (Entry Int)} (front : p.buf.toList = e :: es)
    (fits : Fits e.size) : p.words.breakHead = Printer.words <$> p.breakHead := by
  refine bind_seen (queue_seen _ (front_seen Entry.words p.buf)) fun first found => ?_
  rw [front_cons front] at found
  cases found
  refine ite_seen (word_neg fits) (fun _ => ?_) fun _ => rfl
  -- Whichever list the head is taken from, storing its size is the last step.
  have stores (scan : Ring Int) (closed : List Int) :
      (queue (p.words.buf.write p.words.buf.frontPos { e.words with size := infiniteWidth }) >>= fun buf =>
        pure { p.words with buf := buf, scan := scan, closed := closed }) = Printer.words <$>
      (queue (p.buf.write p.buf.frontPos { e with size := infiniteWidth }) >>= fun buf =>
        pure { p with buf := buf, scan := scan, closed := closed }) :=
    bind_seen (queue_seen _ (write_seen Entry.words p.buf p.buf.frontPos { e with size := infiniteWidth }))
      fun _ _ => rfl
  refine ite_seen Iff.rfl (fun _ => bind_seen (same_seen _) fun first _ => ?_) fun _ =>
    bind_seen (same_seen _) fun first _ => ?_
  all_goals
    refine ite_seen Iff.rfl (fun _ => ?_) fun _ => ?_
    · exact bind_seen (same_seen (queue p.scan.popFront)) fun last _ => stores last.2 p.closed
    · exact stores p.scan (p.closed.erase p.buf.frontPos)

/-- A head that is not decided gets a size that fits on no line, and is no position of an open or closed group any
more. -/
theorem breakHead_forced {ι : Type} [Columns ι] {p q : Printer ι} {e : Entry ι} {es : List (Entry ι)}
    (front : p.buf.toList = e :: es) (pending : e.size < 0) (ran : p.breakHead = .ok q) :
    ∃ (buf : Ring (Entry ι)) (scan : Ring Int) (closed : List Int),
      q = { p with buf := buf, scan := scan, closed := closed } ∧
      buf.toList = ⟨e.token, infiniteWidth⟩ :: es ∧ buf.offset = p.buf.offset ∧
      (p.scan.toList = p.buf.frontPos :: scan.toList ∧ closed = p.closed ∨
        p.scan.toList.head? ≠ some p.buf.frontPos ∧ scan = p.scan ∧ closed = p.closed.erase p.buf.frontPos) := by
  obtain ⟨buf, written, replaced, still⟩ := write_at (r := p.buf) (i := 0) (by simp [front])
    { e with size := infiniteWidth }
  simp only [Int.natCast_zero, Int.add_zero] at written
  rw [front, List.set_cons_zero] at replaced
  simp only [Printer.breakHead, front_cons front, queue, ok_bind, pending, ↓reduceIte, Ring.frontPos, pure_bind,
    written, reduceCtorEq] at ran
  have count := length_toList p.scan
  cases scanned : p.scan.toList with
  | nil =>
    rw [scanned, List.length_nil] at count
    rw [if_pos count.symm] at ran
    cases ran
    exact ⟨buf, p.scan, _, rfl, replaced, still, .inr ⟨by simp, rfl, rfl⟩⟩
  | cons first rest =>
    obtain ⟨scan, popped, tail, _⟩ := popFront_cons scanned
    rw [scanned] at count
    rw [if_neg (by simp [← count]), front_cons scanned, popped] at ran
    simp only [Functor.map, Except.map, ok_bind, Option.some.injEq] at ran
    split at ran
    · rename_i same
      cases ran
      exact ⟨buf, scan, p.closed, rfl, replaced, still, .inl ⟨by rw [tail, same]; rfl, rfl⟩⟩
    · rename_i other
      cases ran
      exact ⟨buf, p.scan, _, rfl, replaced, still, .inr ⟨mt Option.some.inj other, rfl, rfl⟩⟩

theorem breakHead_seen {e : Entry Int} {es : List (Entry Int)} (roomy : PrinterRoomy bound p)
    (front : p.buf.toList = e :: es) : SeenInWords bound p.breakHead p.words.breakHead := by
  have sized := roomy.entries e (by simp [front])
  refine ⟨breakHead_words front sized.fits, fun q ran => ?_⟩
  by_cases pending : e.size < 0
  · obtain ⟨buf, scan, closed, rfl, stored, _⟩ := breakHead_forced front pending ran
    exact force_roomy roomy front pending stored scan closed
  · rw [breakHead_decided front pending] at ran
    cases ran
    exact roomy

theorem checkStreamUpTo_seen (fuel : Nat) (roomy : PrinterRoomy bound p) (room : bound ≤ most) :
    SeenInWords bound (Printer.checkStreamUpTo fuel p) (Printer.checkStreamUpTo fuel p.words) := by
  induction fuel generalizing p with
  | zero => exact seen_ok roomy
  | succ fuel ih =>
    obtain ⟨spent, counts, paid⟩ := roomy.spent
    have more := costs_nonneg (roomy_forward roomy)
    have space := (narrow_fits counts.page (Int.le_trans (by omega) room)).1
    -- What is compared is the difference of the totals: the columns that are held back.
    have ahead : Fits (p.rightTotal - p.leftTotal) := roomy.totals ▸ roomy.ahead
    have difference : p.words.rightTotal - p.words.leftTotal = word (p.rightTotal - p.leftTotal) :=
      (Int64.ofInt_sub _ _).symm
    unfold Printer.checkStreamUpTo
    rw [difference]
    refine ite_related (and_congr_left' (word_lt space ahead)) (fun wide => ?_) fun _ => seen_ok roomy
    obtain ⟨e, es, front⟩ : ∃ e es, p.buf.toList = e :: es := by
      refine List.exists_cons_of_ne_nil fun empty => ?_
      have none := congrArg List.length empty
      rw [length_toList] at none
      exact absurd wide.2 (by simp [none])
    refine seen_bind (breakHead_seen roomy front) fun q _ broken => ?_
    exact seen_bind (advance_seen broken room) fun r _ later => ih later

theorem checkStream_seen (roomy : PrinterRoomy bound p) (room : bound ≤ most) :
    SeenInWords bound p.checkStream p.words.checkStream :=
  checkStreamUpTo_seen p.buf.length roomy room

end Actions

section Resolving

/-- Two printers that hold back the same tokens before the same page. -/
structure TokensKept (p q : Printer Int) : Prop where
  config : q.config = p.config
  page : q.page = p.page
  held : held q = held p

theorem resized_within (resized : TokensKept p q) (within : CountsWithin bound p)
    (left : q.leftTotal = p.leftTotal ∨ q.leftTotal = 1) : CountsWithin bound q := by
  obtain ⟨spent, counts, paid⟩ := within.spent
  obtain ⟨config, page, same⟩ := resized
  refine ⟨⟨spent, ⟨counts.least, page ▸ counts.page, fun filled => ?_⟩, ?_⟩, ?_, ?_, ?_, ?_⟩
  · have least := counts.least
    have before := counts.left (same ▸ filled)
    omega
  · rw [config, same]
    exact paid
  · rw [config, same]
    exact within.before
  · rw [config, same]
    exact within.ahead
  · rw [same]
    exact within.moved
  · rw [page, same]
    exact within.contained

/-- Another size for an entry leaves the tokens as they are. -/
theorem tokens_set {ι : Type} {es : List (Entry ι)} {i : Nat} {e : Entry ι} (here : es[i]? = some e) (n : ι) :
    (es.set i { e with size := n }).map Entry.token = es.map Entry.token := by
  obtain ⟨bounded, rfl⟩ := List.getElem?_eq_some_iff.mp here
  calc
    _ = (es.set i es[i]).map Entry.token := by rw [List.map_set, List.map_set]
    _ = es.map Entry.token := by rw [List.set_getElem_self]

theorem resolve_ok {ι : Type} [Columns ι] {p q : Printer ι} {pos : Int} (ran : p.resolve pos = .ok q) :
    ∃ (i : Nat) (e : Entry ι) (buf : Ring (Entry ι)), pos = p.buf.offset + i ∧ p.buf.toList[i]? = some e ∧
      q = { p with buf := buf } ∧ buf.toList = p.buf.toList.set i { e with size := e.size + p.rightTotal } ∧
      buf.offset = p.buf.offset := by
  obtain ⟨e, read, later⟩ := bind_ok ran
  obtain ⟨buf, written, same⟩ := bind_ok later
  cases same
  obtain ⟨i, rfl, found⟩ := read_ok (queue_ok read)
  obtain ⟨bounded, _⟩ := List.getElem?_eq_some_iff.mp found
  obtain ⟨other, stored, replaced, still⟩ := write_at (r := p.buf) bounded { e with size := e.size + p.rightTotal }
  obtain rfl := Except.ok.inj (stored.symm.trans (queue_ok written))
  exact ⟨i, e, other, rfl, found, rfl, replaced, still⟩

theorem resolve_resized {pos : Int} (ran : p.resolve pos = .ok q) :
    TokensKept p q ∧ q.leftTotal = p.leftTotal := by
  obtain ⟨i, e, buf, -, found, rfl, replaced, -⟩ := resolve_ok ran
  exact ⟨⟨rfl, rfl, by rw [Boundedness.held, replaced, tokens_set found]; rfl⟩, rfl⟩

theorem resolveLast_resized (ran : p.resolveLast = .ok q) :
    TokensKept p q ∧ (q.leftTotal = p.leftTotal ∨ q.leftTotal = 1) := by
  unfold Printer.resolveLast at ran
  split at ran
  · cases ran
    exact ⟨⟨rfl, rfl, rfl⟩, .inr rfl⟩
  · obtain ⟨last, _, later⟩ := bind_ok ran
    split at later
    · obtain ⟨top, _, resolved⟩ := bind_ok later
      obtain ⟨resized, left⟩ := resolve_resized resolved
      exact ⟨⟨resized.config, resized.page, resized.held⟩, .inl left⟩
    · cases later
      exact ⟨⟨rfl, rfl, rfl⟩, .inl rfl⟩

theorem resolveScan_within (fuel : Nat) (ran : Printer.resolveScan fuel p = .ok q) (within : CountsWithin bound p) :
    CountsWithin bound q := by
  induction fuel generalizing p with
  | zero =>
    cases ran
    exact within
  | succ fuel ih =>
    unfold Printer.resolveScan at ran
    split at ran
    · cases ran
      exact within
    · obtain ⟨top, _, later⟩ := bind_ok ran
      obtain ⟨r, resolved, rest⟩ := bind_ok later
      obtain ⟨resized, left⟩ := resolve_resized resolved
      refine ih rest (resized_within (p := p) ?_ within (.inl left))
      exact ⟨resized.config, resized.page, resized.held⟩

variable {stops : Reach → Prop} {v : View}

variable (tracks : Tracks (fun _ => False) v p)
include tracks

theorem resolveClosed_resized (ran : p.resolveClosed = .ok q) : TokensKept p q ∧ q.leftTotal = p.leftTotal := by
  obtain ⟨buf, run, still, tracked⟩ := resolveClosed_tracks tracks
  rw [run] at ran
  cases ran
  refine ⟨⟨rfl, rfl, (tracks_tokens tracked).trans (Eq.trans ?_ (tracks_tokens tracks).symm)⟩, rfl⟩
  simp only [still]

theorem resolveClosed_seen (within : CountsWithin bound p)
    (room : bound ≤ most) : SeenInWords bound p.resolveClosed p.words.resolveClosed := by
  refine ⟨resolveClosed_words p, fun q ran => ?_⟩
  obtain ⟨resized, left⟩ := resolveClosed_resized tracks ran
  obtain ⟨buf, run, _, tracked⟩ := resolveClosed_tracks tracks
  rw [run] at ran
  cases ran
  exact tracks_roomy tracked (by simp) (resized_within resized within (.inl left)) room

theorem writeClosed_seen (within : CountsWithin bound p)
    (room : bound ≤ most) : SeenInWords bound p.writeClosed p.words.writeClosed := by
  refine ite_related Iff.rfl (fun _ => seen_ok (tracks_roomy tracks (by simp) within room)) fun _ => ?_
  exact seen_bind (resolveClosed_seen tracks within room) fun q _ resolved => advance_seen resolved room

theorem writeClosed_sheds (ran : p.writeClosed = .ok q) : TailHeld p q := by
  unfold Printer.writeClosed at ran
  split at ran
  · cases ran
    exact .refl _
  · obtain ⟨r, resolved, advanced⟩ := bind_ok ran
    obtain ⟨resized, _⟩ := resolveClosed_resized tracks resolved
    have sheds := advance_sheds advanced
    exact ⟨resized.held ▸ sheds.tail, sheds.config.trans resized.config⟩

end Resolving

end Galley.Layout.Exactness
