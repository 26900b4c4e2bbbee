import Galley.Layout.Doc
import Galley.Proofs.Bracketing
import Galley.Proofs.Coverage
import Galley.Proofs.Safety

/-! What documents mean. A document is written into the group around it from what that group looks like,
from how far extents reach into what follows, and from what the sink has and owes; nothing else of its
surroundings has a part in it. So its meaning is defined by recursion on the document, and a render is
the meaning of the whole document on a blank page. -/
namespace Galley.Layout.Documents
open Extent PageWriting Lookahead Emission
open Rendering Indentation Discipline Contract Bracketing Coverage

/-- A document that has a layout: nothing in it is of a foreign kind or has an unknown policy, and
nothing is nested by a negative amount. -/
def Sound : Doc Int → Prop
  | .nest amount _ d => 0 ≤ amount ∧ Sound d
  | .group breaks _ d => (∀ code, breaks ≠ .unknown code) ∧ Sound d
  | .concat a b => Sound a ∧ Sound b
  | .foreign _ => False
  | _ => True

/-- The columns that a document is nested by. -/
def shift (unit amount : Int) (levels : Bool) : Int := if levels then amount * unit else amount

/-- The call that opens the group of a document. -/
def groupCall (breaks : Breaks) (align : Bool) : Call Int :=
  if align then .alignStart breaks else .groupStart breaks 0

/-- The calls that emit a document. -/
def calls (unit : Int) : Doc Int → List (Call Int)
  | .nil | .foreign _ => []
  | .text s => [.text s]
  | .line => [.space]
  | .softBreak => [.softBreak]
  | .hardLine => [.hardBreak]
  | .trailingComma => [.trailingComma]
  | .nest amount levels d => .indent (shift unit amount levels) :: calls unit d ++ [.outdent]
  | .group breaks align d => groupCall breaks align :: calls unit d ++ [.groupEnd]
  | .concat a b => calls unit a ++ calls unit b

/-- The tokens that a document is made of. -/
def tokens (unit : Int) : Doc Int → List (Token Int)
  | .nil | .foreign _ => []
  | .text s => [.text s]
  | .line => [.lineBreak ⟨.space, 1, 0, []⟩]
  | .softBreak => [.lineBreak ⟨.zero, 0, 0, []⟩]
  | .hardLine => [.lineBreak ⟨.hard, 0, 0, []⟩]
  | .trailingComma => [.lineBreak ⟨.zero, 0, 0, ","⟩]
  | .nest amount levels d =>
    .indent (shift unit amount levels) :: tokens unit d ++ [.indent (-shift unit amount levels)]
  | .group breaks align d => .groupStart ⟨breaks, 0, align⟩ :: tokens unit d ++ [.groupEnd]
  | .concat a b => tokens unit a ++ tokens unit b

variable {c : Config Int} {unit : Int} {d : Doc Int} {start p q : Printer Int}

section Emission

theorem shift_nonneg {amount : Int} (level : 0 ≤ unit) (more : 0 ≤ amount) (levels : Bool) :
    0 ≤ shift unit amount levels := by
  unfold shift
  split
  · exact Int.mul_nonneg more level
  · exact more

theorem groupCall_opens {breaks : Breaks} (known : ∀ code, breaks ≠ .unknown code) (align : Bool) :
    CallOpens (groupCall breaks align) := by
  cases align with
  | false => exact .plain known (Int.le_refl 0)
  | true => exact .aligned known

theorem tokenAt_groupCall (s : Standing) (breaks : Breaks) (align : Bool) :
    tokenAt s (groupCall breaks align) = .groupStart ⟨breaks, 0, align⟩ := by
  cases align <;> rfl

theorem calls_balanced (level : 0 ≤ unit) (sound : Sound d) : Balanced (calls unit d) := by
  induction d with
  | nil => exact .nil
  | text s => exact .text s
  | line | softBreak => exact .lineBreak (by decide)
  | hardLine => exact .hardBreak
  | trailingComma => exact .trailingComma
  | nest amount levels d ih => exact .indented (shift_nonneg level sound.1 levels) (ih sound.2)
  | group breaks align d ih => exact .group (groupCall_opens sound.1 align) (ih sound.2)
  | concat a b left right => exact .append (left sound.1) (right sound.2)
  | foreign kind => exact sound.elim

/-- Calls stand for the tokens of the document wherever they stand. -/
theorem transcript_calls (level : 0 ≤ unit) (sound : Sound d) (s : Standing) (inside : s.scopes ≠ []) :
    transcript s (calls unit d) = tokens unit d := by
  induction d generalizing s with
  | nest amount levels d ih =>
    obtain ⟨scope, rest, scopes⟩ := List.exists_cons_of_ne_nil inside
    have pushed : (s.after (.indent (shift unit amount levels))).scopes =
        (shift unit amount levels :: scope) :: rest := by
      simp [Standing.after, Standing.push, scopes]
    have last : (s.after (.indent (shift unit amount levels))).active = some (shift unit amount levels) := by
      simp [Standing.active, pushed]
    have inner := ih sound.2 (s.after (.indent (shift unit amount levels))) (by simp [pushed])
    simp only [calls, List.cons_append, transcript, transcript_append, inner,
      balanced_after (calls_balanced level sound.2), tokenAt, last, tokens]
    rfl
  | group breaks align d ih =>
    have inner := ih sound.2 { s with scopes := [] :: s.scopes } (by simp)
    simp only [calls, List.cons_append, transcript, transcript_append, inner,
      opens_after (groupCall_opens sound.1 align), tokenAt_groupCall, tokens]
    rfl
  | concat a b left right =>
    rw [calls, transcript_append, balanced_after (calls_balanced level sound.1), left sound.1 s inside,
      right sound.2 s inside, tokens]
  | foreign kind => exact sound.elim
  | _ => rfl

theorem run_one {ι : Type} [Columns ι] (p : Printer ι) (k : Call ι) : p.run [k] = p.call k := by
  simp only [Printer.run, List.foldlM_cons, List.foldlM_nil, bind_pure]

theorem run_append {ι : Type} [Columns ι] (p : Printer ι) (calls more : List (Call ι)) :
    p.run (calls ++ more) = p.run calls >>= fun q => q.run more := by
  simp only [Printer.run, List.foldlM_append]

/-- A printer that has answered some calls of a document that has not ended. -/
structure PrinterFollows (c : Config Int) (start : Printer Int) (before : List (Call Int)) (p : Printer Int) :
    Prop where
  accepted : Printer.ofConfig c = .ok start
  ran : start.run before = .ok p
  unended : (standing before).ended = false

variable {before : List (Call Int)}

theorem follows_unit (follows : PrinterFollows c start before p) : p.unit = c.withDefaults.unit := by
  have past := run_past follows.accepted follows.ran
  have fresh : p.done = false := (congrArg Standing.ended past.stands).trans follows.unended
  obtain ⟨ts, told⟩ := past.told fresh
  exact congrArg Config.unit told.config

theorem follows_call {k : Call Int} (follows : PrinterFollows c start before p)
    (more : k ≠ .eof) (ran : p.call k = .ok q) : PrinterFollows c start (before ++ [k]) q := by
  refine ⟨follows.accepted, ?_, ?_⟩
  · rw [run_concat, follows.ran, ok_bind, ran]
  · rw [standing_concat, after_ended more]
    exact follows.unended

theorem follows_run {before more : List (Call Int)} (follows : PrinterFollows c start before p)
    (balanced : Balanced more) (ran : p.run more = .ok q) : PrinterFollows c start (before ++ more) q := by
  refine ⟨follows.accepted, ?_, ?_⟩
  · rw [run_append, follows.ran, ok_bind, ran]
  · rw [standing, List.foldl_append, balanced_after balanced]
    exact follows.unended

private theorem bind_congr_ok {α β : Type} {x : Except Fault α} {f g : α → Except Fault β}
    (same : ∀ a, x = .ok a → f a = g a) : x >>= f = x >>= g := by
  cases x with
  | error e => rfl
  | ok a => exact same a rfl

/-- What is emitted between two calls is emitted by a printer that has answered the first. -/
private theorem enclosed_run {opens closes : Call Int} (follows : PrinterFollows c start before p) (more : opens ≠ .eof)
    (inner : ∀ before q, PrinterFollows c start before q → d.emit q = q.run (calls unit d)) :
    (do (← d.emit (← p.call opens)).call closes) = p.run (opens :: calls unit d ++ [closes]) := by
  rw [List.cons_append, ← List.singleton_append, run_append, run_one]
  apply bind_congr_ok
  intro q called
  rw [inner _ q (follows_call follows more called), run_append]
  simp only [run_one]

/-- Emitting a document is asking for its calls. -/
theorem emit_eq_run (follows : PrinterFollows c start before p) (sound : Sound d) :
    d.emit p = p.run (calls c.withDefaults.unit d) := by
  have level : 0 ≤ c.withDefaults.unit := Int.le_of_lt (Safety.accepted_unit follows.accepted)
  induction d generalizing before p with
  | nil => rfl
  | text | line | softBreak | hardLine | trailingComma => exact (run_one p _).symm
  | nest amount levels d ih =>
    rw [Doc.emit, follows_unit follows]
    exact enclosed_run follows (by simp) fun _ _ later => ih later sound.2
  | group breaks align d ih =>
    have more : groupCall breaks align ≠ .eof := by cases align <;> simp [groupCall]
    exact enclosed_run follows more fun _ _ later => ih later sound.2
  | concat a b left right =>
    rw [Doc.emit, calls, run_append, left follows sound.1]
    apply bind_congr_ok
    intro q ran
    exact right (follows_run follows (calls_balanced level sound.1) ran) sound.2
  | foreign kind => exact sound.elim

/-- A document that has a layout is rendered as its tokens are laid out. -/
theorem render_lays (accepted : Printer.ofConfig c = .ok start) (sound : Sound d) :
    ∃ page, TokensLaid c.withDefaults (Page.ofConfig c.withDefaults) (tokens c.withDefaults.unit d) page ∧
      d.render c = .ok page.sink.text := by
  have level : 0 ≤ c.withDefaults.unit := Int.le_of_lt (Safety.accepted_unit accepted)
  obtain ⟨p, q, ran, ended, lays⟩ := balanced_printed accepted (calls_balanced level sound)
  rw [transcript_calls level sound .initial (by simp [Standing.initial])] at lays
  refine ⟨q.page, lays, ?_⟩
  have begins : PrinterFollows c start [] start := ⟨accepted, rfl, rfl⟩
  rw [Doc.render, accepted, ok_bind, emit_eq_run begins sound, ran, ok_bind, ended]
  rfl

end Emission

section Meaning

/-- The columns of a document on a line that nothing breaks. -/
def flat (c : Config Int) : Doc Int → Int
  | .nil | .softBreak | .trailingComma | .foreign _ => 0
  | .text s => c.width s
  | .line => 1
  | .hardLine => infiniteWidth
  | .nest _ _ d | .group _ _ d => flat c d
  | .concat a b => flat c a + flat c b

/-- How far extents reach into what follows a document. -/
structure Ahead where
  /-- The extent of the last break of the group around it. -/
  chunk : Int
  /-- The extent of a group that has ended. -/
  line : Int

/-- What follows the end of a group, from inside it. -/
def Ahead.closed (ahead : Ahead) : Ahead := ⟨ahead.line, ahead.line⟩

/-- How far extents reach into a document and past it. -/
def reachInto (c : Config Int) : Doc Int → Ahead → Ahead
  | .nil, ahead | .foreign _, ahead => ahead
  | .text s, ahead => ⟨c.width s + ahead.chunk, c.width s + ahead.line⟩
  | .line, _ | .softBreak, _ | .hardLine, _ | .trailingComma, _ => ⟨0, 0⟩
  | .nest _ _ d, ahead => reachInto c d ahead
  | .group _ _ d, ahead => ⟨flat c d + ahead.chunk, (reachInto c d ahead.closed).line⟩
  | .concat a b, ahead => reachInto c a (reachInto c b ahead)

/-- Writes a break in a group. -/
def paintBreak (b : Break Int) (top : Frame Int) (ahead : Ahead) (sink : Sink Int) : Sink Int :=
  if b.kind ≠ .hard ∧ (top.fits ∨ top.breaks = .inconsistent ∧ b.width + ahead.chunk ≤ sink.space) then
    sink.owe b.blank
  else
    { sink.mark (.taken (sink.lead b.preBreak) b.preBreak (top.indent + b.offset)) with
      indent := top.indent + b.offset
      blank := 0
      space := sink.config.margin - (top.indent + b.offset) }

/-- A group of some size as it is written inside another: all of it on one line, if that fits. -/
def paintFrame (breaks : Breaks) (align : Bool) (top : Frame Int) (size : Int) (sink : Sink Int) : Frame Int :=
  if size ≤ sink.space then ⟨top.indent, breaks, true⟩
  else ⟨if align then sink.column else top.indent, breaks, false⟩

/-- Writes a document in a group, given what follows it. Only what shows is marked. -/
def paint (c : Config Int) : Doc Int → Frame Int → Ahead → Sink Int → Sink Int
  | .nil, _, _, sink | .foreign _, _, _, sink => sink
  | .text s, _, _, sink => sink.write s (c.width s)
  | .line, top, ahead, sink => paintBreak ⟨.space, 1, 0, []⟩ top ahead sink
  | .softBreak, top, ahead, sink => paintBreak ⟨.zero, 0, 0, []⟩ top ahead sink
  | .hardLine, top, ahead, sink => paintBreak ⟨.hard, 0, 0, []⟩ top ahead sink
  | .trailingComma, top, ahead, sink => paintBreak ⟨.zero, 0, 0, ","⟩ top ahead sink
  | .nest amount levels d, top, ahead, sink =>
    paint c d { top with indent := top.indent + shift c.unit amount levels } ahead sink
  | .group breaks align d, top, ahead, sink =>
    paint c d (paintFrame breaks align top (flat c d + ahead.line) sink) ahead.closed sink
  | .concat a b, top, ahead, sink => paint c b top ahead (paint c a top (reachInto c b ahead) sink)

end Meaning

section Extents

theorem columnsOf_tokens (d : Doc Int) : columnsOf c (tokens unit d) = flat c d := by
  induction d with
  | nest _ _ _ ih | group _ _ _ ih => simp [tokens, columnsOf, columns, columnsOf_append, flat, ih]
  | concat a b left right => rw [tokens, columnsOf_append, left, right, flat]
  | _ => simp [tokens, columnsOf, columns, Break.width, flat]

theorem enclosed_tokens (d : Doc Int) {rest : List (Token Int)} (enclosed : Enclosed true rest) :
    Enclosed true (tokens unit d ++ rest) := by
  induction d generalizing rest with
  | nil | foreign => exact enclosed
  | text s => exact .plain rfl (by simp) enclosed
  | nest amount levels d ih =>
    simp only [tokens, List.cons_append, List.append_assoc]
    exact .plain rfl (by simp) (ih (.plain rfl (by simp) enclosed))
  | group breaks align d ih =>
    simp only [tokens, List.cons_append, List.append_assoc]
    have inner := ih (.nil true)
    rw [List.append_nil] at inner
    exact .group _ inner enclosed
  | concat a b left right =>
    rw [tokens, List.append_assoc]
    exact left (right enclosed)
  | _ => exact .lineBreak _ enclosed

/-- An extent that runs past the breaks of a document covers all of it. -/
theorem extent_tokens {r : Reach} (inside : r ≠ .line) (passes : r.meet = some r)
    (rest : List (Token Int)) : extent c r (tokens unit d ++ rest) = flat c d + extent c r rest := by
  have enclosed : Enclosed true (tokens unit d ++ []) := enclosed_tokens d (.nil true)
  rw [List.append_nil] at enclosed
  rw [extent_enclosed enclosed inside fun _ => passes, columnsOf_tokens]

/-- How far extents reach into some tokens. -/
def aheadOf (c : Config Int) (rest : List (Token Int)) : Ahead := ⟨extent c (.chunk 0) rest, extent c .line rest⟩

theorem aheadOf_indent (c : Config Int) (delta : Int) (rest : List (Token Int)) :
    aheadOf c (.indent delta :: rest) = aheadOf c rest := by
  simp [aheadOf, extent, Reach.step, columns]

theorem aheadOf_groupEnd (c : Config Int) (rest : List (Token Int)) :
    aheadOf c (.groupEnd :: rest) = (aheadOf c rest).closed := by
  simp [aheadOf, Ahead.closed, extent, Reach.step, Reach.leave, columns]

theorem aheadOf_tokens (d : Doc Int) (rest : List (Token Int)) :
    aheadOf c (tokens unit d ++ rest) = reachInto c d (aheadOf c rest) := by
  induction d generalizing rest with
  | nest amount levels d ih =>
    simp only [tokens, List.cons_append, List.append_assoc, aheadOf_indent, ih, List.nil_append, reachInto]
  | group breaks align d ih =>
    have line := congrArg Ahead.line (ih (.groupEnd :: rest))
    have chunk : extent c (.chunk 1) (tokens unit d ++ .groupEnd :: rest) = _ := extent_tokens (by simp) rfl _
    rw [aheadOf_groupEnd] at line
    simp only [tokens, List.cons_append, List.append_assoc, List.nil_append, reachInto, ← line]
    simp only [aheadOf, extent, Reach.step, Reach.enter, columns, chunk, Reach.leave, Int.zero_add]
  | concat a b left right => rw [tokens, List.append_assoc, left, right, reachInto]
  | _ => simp [tokens, aheadOf, extent, Reach.step, Reach.meet, columns, reachInto]

end Extents

section Pages

/-- Whether anything of a mark shows. -/
def shows : Mark Int → Bool
  | .start _ | .stop | .shift _ => false
  | _ => true

/-- A sink without the marks of which nothing shows. -/
def shown (sink : Sink Int) : Sink Int := { sink with marks := sink.marks.filter shows }

theorem text_shown (sink : Sink Int) : (shown sink).text = sink.text := by
  have spelled (marks : List (Mark Int)) :
      (marks.filter shows).reverse.flatMap Mark.spelling = marks.reverse.flatMap Mark.spelling := by
    induction marks with
    | nil => rfl
    | cons m marks ih => cases m <;> simp [List.filter, shows, ih, Mark.spelling]
  exact spelled sink.marks

theorem shown_write (sink : Sink Int) (s : Text) (size : Int) :
    shown (sink.write s size) = (shown sink).write s size := by
  cases s <;> rfl

/-- A page on which a document can be written into the innermost group. -/
structure PageOpen (c : Config Int) (sink : Sink Int) (top : Frame Int) : Prop where
  config : sink.config = c
  space : sink.space ≤ c.margin
  indent : 0 ≤ top.indent

/-- What tokens leave of a page when they have been written before others. -/
structure TokensLeave (c : Config Int) (page : Page Int) (ts rest : List (Token Int)) (next : Sink Int) : Prop where
  laid : layout c page (ts ++ rest) = layout c ⟨next, page.frames⟩ rest
  config : next.config = c
  space : next.space ≤ c.margin

variable {sink : Sink Int} {top : Frame Int} {frames : List (Frame Int)} {rest : List (Token Int)}

private theorem leaves_text (ready : PageOpen c sink top) (s : Text) :
    TokensLeave c ⟨sink, top :: frames⟩ [.text s] rest (sink.write s (c.width s)) := by
  have size : exactSize c (.text s) rest = c.width s := by simp [exactSize, columns, opening]
  have wide := width_nonneg c s
  refine ⟨?_, ?_, ?_⟩
  · rw [List.singleton_append, layout, size]
    rfl
  · cases s <;> exact ready.config
  · have space := ready.space
    by_cases void : s.isEmpty = true
    · simpa [Sink.write, void] using space
    · simp only [Sink.write, void, Bool.false_eq_true, ↓reduceIte]
      omega

private theorem leaves_break (ready : PageOpen c sink top) {b : Break Int} (still : b.offset = 0)
    (counted : 0 ≤ b.blank) :
    TokensLeave c ⟨sink, top :: frames⟩ [.lineBreak b] rest (paintBreak b top (aheadOf c rest) sink) := by
  obtain ⟨config, space, indent⟩ := ready
  have size : exactSize c (.lineBreak b) rest = b.width + (aheadOf c rest).chunk := rfl
  unfold paintBreak
  by_cases flat : b.kind ≠ .hard ∧ (top.fits ∨ top.breaks = .inconsistent ∧
      b.width + (aheadOf c rest).chunk ≤ sink.space)
  · rw [if_pos flat]
    refine ⟨?_, config, by simp only [Sink.owe]; omega⟩
    rw [List.singleton_append, layout, size, write_of_wrote (.flat rfl flat.1 flat.2), ok_bind]
  · rw [if_neg flat]
    refine ⟨?_, config, by simp only [config]; omega⟩
    have broken (soft : b.kind ≠ .hard) : top.fits = false ∧
        (top.breaks = .inconsistent → sink.space < b.width + (aheadOf c rest).chunk) := by grind
    rw [List.singleton_append, layout, size, write_of_wrote (.taken rfl broken (by omega)), ok_bind]

theorem shown_paintBreak (b : Break Int) (top : Frame Int) (ahead : Ahead) (sink : Sink Int) :
    shown (paintBreak b top ahead sink) = paintBreak b top ahead (shown sink) := by
  have same : (shown sink).space = sink.space := rfl
  simp only [paintBreak, same]
  split <;> rfl

private theorem size_group (g : Group Int) :
    exactSize c (.groupStart g) (tokens unit d ++ .groupEnd :: rest) = flat c d + (aheadOf c rest).line := by
  have inside : extent c (.group 0) (tokens unit d ++ .groupEnd :: rest) = _ := extent_tokens (by simp) rfl _
  simp only [exactSize, columns, opening, inside, extent, Reach.step, Reach.leave, aheadOf, Int.zero_add]

/-- The start of a group opens the frame that its document is written in. -/
private theorem wrote_group (ready : PageOpen c sink top) (breaks : Breaks) (align : Bool) (size : Int)
    (frames : List (Frame Int)) :
    ∃ fits, Wrote ⟨sink, top :: frames⟩ (.groupStart ⟨breaks, 0, align⟩) size
        ⟨sink.mark (.start fits), paintFrame breaks align top size sink :: top :: frames⟩ ∧
      0 ≤ (paintFrame breaks align top size sink).indent := by
  obtain ⟨config, space, indent⟩ := ready
  unfold paintFrame
  split
  · rename_i fits
    exact ⟨true, .fit rfl fits, indent⟩
  · rename_i wide
    have base : 0 ≤ if align then sink.column else top.indent := by
      split
      · simp only [Sink.column, config]
        omega
      · exact indent
    exact ⟨false, .split rfl (Int.not_le.mp wide) (by simp) base, base⟩

/-- Writing the tokens of a document leaves what the document means. -/
theorem layout_tokens (level : 0 ≤ c.unit) (sound : Sound d) (ready : PageOpen c sink top)
    (frames : List (Frame Int)) (rest : List (Token Int)) :
    ∃ next, TokensLeave c ⟨sink, top :: frames⟩ (tokens c.unit d) rest next ∧
      shown next = paint c d top (aheadOf c rest) (shown sink) := by
  induction d generalizing sink top frames rest with
  | nil => exact ⟨sink, ⟨rfl, ready.config, ready.space⟩, rfl⟩
  | text s => exact ⟨_, leaves_text ready s, shown_write sink s _⟩
  | line | softBreak | hardLine | trailingComma =>
    exact ⟨_, leaves_break ready rfl (by decide), shown_paintBreak _ _ _ _⟩
  | nest amount levels d ih =>
    obtain ⟨config, space, indent⟩ := ready
    have more := shift_nonneg level sound.1 levels
    have deeper : 0 ≤ top.indent + shift c.unit amount levels := by omega
    have inside : PageOpen c (sink.mark (.shift (shift c.unit amount levels)))
        { top with indent := top.indent + shift c.unit amount levels } := ⟨config, space, deeper⟩
    obtain ⟨next, ⟨laid, config', space'⟩, same⟩ :=
      ih sound.2 inside frames (.indent (-shift c.unit amount levels) :: rest)
    refine ⟨next.mark (.shift (-shift c.unit amount levels)), ⟨?_, config', space'⟩, ?_⟩
    · have back : top.indent + shift c.unit amount levels + -shift c.unit amount levels = top.indent := by omega
      rw [tokens, List.append_assoc, List.cons_append, layout, write_of_wrote (.shift rfl deeper), ok_bind,
        List.singleton_append, laid, layout, write_of_wrote (.shift rfl (by rw [back]; exact indent)), ok_bind, back]
    · rw [aheadOf_indent] at same
      exact same
  | group breaks align d ih =>
    obtain ⟨fits, wrote, right⟩ := wrote_group ready breaks align (flat c d + (aheadOf c rest).line) frames
    have inside : PageOpen c (sink.mark (.start fits))
        (paintFrame breaks align top (flat c d + (aheadOf c rest).line) sink) :=
      ⟨ready.config, ready.space, right⟩
    obtain ⟨next, ⟨laid, config, space⟩, same⟩ := ih sound.2 inside (top :: frames) (.groupEnd :: rest)
    refine ⟨next.mark .stop, ⟨?_, config, space⟩, ?_⟩
    · rw [tokens, List.append_assoc, List.cons_append, layout, List.singleton_append, size_group,
        write_of_wrote wrote, ok_bind, laid, layout, write_of_wrote (.stop rfl), ok_bind]
    · rw [aheadOf_groupEnd] at same
      exact same
  | concat a b left right =>
    obtain ⟨middle, first, half⟩ := left sound.1 ready frames (tokens c.unit b ++ rest)
    obtain ⟨next, second, whole⟩ := right sound.2 ⟨first.config, first.space, ready.indent⟩ frames rest
    refine ⟨next, ⟨?_, second.config, second.space⟩, ?_⟩
    · rw [tokens, List.append_assoc, first.laid, second.laid]
    · rw [whole, half, aheadOf_tokens, paint]
  | foreign kind => exact sound.elim

end Pages

/-- The text that a document means on a blank page. -/
def meaning (c : Config Int) (d : Doc Int) : Text :=
  (paint c d ⟨0, .inconsistent, false⟩ ⟨0, 0⟩ (Sink.ofConfig c)).text

/-- A document that has a layout is rendered to what it means. -/
theorem render_eq_meaning (accepted : Printer.ofConfig c = .ok start) (sound : Sound d) :
    d.render c = .ok (meaning c.withDefaults d) := by
  have level : 0 ≤ c.withDefaults.unit := Int.le_of_lt (Safety.accepted_unit accepted)
  obtain ⟨page, lays, rendered⟩ := render_lays accepted sound
  have blank : PageOpen c.withDefaults (Sink.ofConfig c.withDefaults) ⟨0, .inconsistent, false⟩ :=
    ⟨rfl, Int.le_refl _, Int.le_refl _⟩
  obtain ⟨next, leaves, same⟩ := layout_tokens level sound blank [] []
  have laid := leaves.laid
  rw [List.append_nil] at laid
  have last : layout c.withDefaults (Page.ofConfig c.withDefaults) (tokens c.withDefaults.unit d) =
      .ok ⟨next, [⟨0, .inconsistent, false⟩]⟩ := laid
  rw [lays.laid] at last
  cases last
  rw [rendered, meaning, ← text_shown next, same]
  rfl

end Galley.Layout.Documents
