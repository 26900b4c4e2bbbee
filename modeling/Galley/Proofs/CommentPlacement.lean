import Galley.Proofs.Annotation
import Galley.Proofs.LineEnds
import Galley.Proofs.Margin

/-! Where comments of formatted YAML streams stand. A break of a group that is followed by a comment and a
newline is taken: the newline is as wide as no line, so the group does not fit, and a consistent group that
does not fit takes all its breaks. So a comment on a line of its own has nothing but indentation before it,
whatever the margin, and no comment has anything after it on its line. -/
namespace Galley.Layout.CommentPlacement
open Extent PageWriting Bracketing Twinning TextOrder Annotation
open Discipline (Standing)
open Margin (GroupsFitted fitted_cons ofConfig_fitted)
open FrontEnds Reformatting Wraparound
open Yaml (Document)

/-- The text of a part. -/
def wordOf : Part → Text
  | .word s => s
  | .own t => t
  | .note t => t
  | _ => []

/-- The comment that a part is. -/
def commentOf : Part → Option Text
  | .own t => some t
  | .note t => some t
  | _ => none

/-- A text after which a line starts. -/
def LineBegins (t : Text) : Prop := t = [] ∨ t.getLast? = some 0x0a

/-- A text with nothing but indentation on its last line. -/
def LineIndented (t : Text) : Prop :=
  ∃ above lead, t = above ++ lead ∧ LineBegins above ∧ ∀ byte ∈ lead, byte = 0x20 ∨ byte = 0x09

/-- A text of parts in which every comment, at its place among the others, is followed by a newline or by
nothing, and a comment on a line of its own has nothing but indentation before it there. -/
def CommentsPlaced (parts : List Part) (text : Text) : Prop :=
  ∀ before part t after, parts = before ++ part :: after → commentOf part = some t →
    ∃ head tail, text = head ++ t ++ tail ∧ solid head = solid (before.flatMap wordOf) ∧
      (tail = [] ∨ tail.head? = some 0x0a) ∧ (part = .own t → LineIndented head)

/-- An output of parts, without the white space at its end, in which every comment, at its place among the others, is
followed by a newline or by the end, where it is cut off if it ends in white space. -/
def CommentsClosed (parts : List Part) (out : Text) : Prop :=
  ∀ before part t after, parts = before ++ part :: after → commentOf part = some t →
    ∃ head, solid head = solid (before.flatMap wordOf) ∧
      ((∃ rest, out = head ++ t ++ 0x0a :: rest) ∨ out = (head ++ t).trimRight)

/-- An output of parts, without the white space at its end. Every comment, at its place among the others, is followed
by a newline or by the end, where it is cut off if it ends in white space; and a comment on a line of its own has
nothing but indentation before it there. -/
def CommentsShown (parts : List Part) (out : Text) : Prop :=
  ∀ before part t after, parts = before ++ part :: after → commentOf part = some t →
    ∃ head, solid head = solid (before.flatMap wordOf) ∧ (part = .own t → LineIndented head) ∧
      ((∃ rest, out = head ++ t ++ 0x0a :: rest) ∨ out = (head ++ t).trimRight)

/-- A number of consistent groups are open in the document. -/
def GroupsConsistent (n : Nat) (frames : List (Frame Int)) : Prop :=
  ∃ above ground, frames = above ++ [ground] ∧ above.length = n ∧ ∀ f ∈ above, f.breaks = .consistent

/-- What is written at a spot: the groups that are open there are consistent, and a line starts there if the
spot says so. After a break it starts if a comment follows. -/
structure PageAtSpot (s : Spot) (rest : List Part) (page : Page Int) : Prop where
  boxed : GroupsConsistent s.depth page.frames
  fresh : s.line = .fresh → LineBegins page.sink.text
  soft : s.line = .soft → (∃ t later, rest = .own t :: later) → LineBegins page.sink.text

section Parts

variable {o : Options Int} {parts rest : List Part} {s last : Spot}

theorem wording_parts (st : Standing) (parts : List Part) :
    wording (transcript st (parts.map (Part.call o))) = parts.flatMap wordOf := by
  induction parts generalizing st with
  | nil => rfl
  | cons part parts ih =>
    have first : wording [tokenAt st (part.call o)] = wordOf part := by
      cases part <;> simp [wording, wordOf, tokenAt, Part.call, Call.space, Call.softBreak, Call.consistentBox]
    rw [List.map_cons, transcript, ← List.singleton_append, wording_append, first, ih]
    rfl

theorem unmarked_parts (st : Standing) (parts : List Part) :
    BreaksUnmarked (transcript st (parts.map (Part.call o))) := by
  induction parts generalizing st with
  | nil => simp [transcript, BreaksUnmarked]
  | cons part parts ih =>
    have first : BreaksUnmarked [tokenAt st (part.call o)] := by
      cases part <;> simp [BreaksUnmarked, tokenAt, Part.call, Call.space, Call.softBreak, Call.consistentBox]
    exact unmarked_append first (ih _)

/-- A newline comes after a comment that comes right after a break. -/
theorem newline_after {n : Nat} {t : Text} (run : Run ⟨n, .soft⟩ (.own t :: rest) last)
    (ends : last.line ≠ .head) : ∃ later, rest = .newline :: later := by
  cases run with
  | cons step run =>
    cases step
    cases run with
    | nil => exact absurd rfl ends
    | @cons _ _ _ part rest step _ =>
      cases step with
      | newline => exact ⟨rest, rfl⟩
      | word free | space free | softBreak free | start free | note free => exact absurd rfl free.1
      | indent known | outdent known => exact absurd rfl known.2

end Parts

section Step

variable {o : Options Int} {c : Config Int} {page after final : Page Int} {part : Part} {rest : List Part}
  {s next last : Spot} {st : Standing} {size : Int} {b : Break Int} {t : Text} {ts : List (Token Int)}

theorem begins_newline (t : Text) : LineBegins (t ++ [0x0a]) := .inr List.getLast?_concat

/-- A break without a text of its own starts a line where it is taken. -/
theorem taken_text (bare : b.preBreak = []) (sink : Sink Int) (indent : Int) :
    (sink.mark (.taken (sink.lead b.preBreak) b.preBreak indent)).text = sink.text ++ [0x0a] := by
  rw [text_mark, bare]
  rfl

theorem hard_text (hard : b.kind = .hard) (bare : b.preBreak = []) (wrote : Wrote page (.lineBreak b) size after) :
    after.sink.text = page.sink.text ++ [0x0a] ∧ after.frames = page.frames := by
  cases wrote with
  | flat _ soft => exact absurd hard soft
  | taken => exact ⟨taken_text bare page.sink _, rfl⟩

/-- A break of a consistent group is taken if a newline comes after the next text. -/
theorem soft_taken {f : Frame Int} {below : List (Frame Int)} {hard : Break Int} (margin : c.margin < infiniteWidth)
    (grounded : PageGrounded c page) (newline : hard.kind = .hard)
    (forward : Forward c (.lineBreak b :: .text t :: .lineBreak hard :: ts))
    (fitted : GroupsFitted c page (.lineBreak b :: .text t :: .lineBreak hard :: ts))
    (frames : page.frames = f :: below) (consistent : f.breaks = .consistent) (bare : b.preBreak = [])
    (wrote : Wrote page (.lineBreak b) size after) : after.sink.text = page.sink.text ++ [0x0a] := by
  cases wrote with
  | taken => exact taken_text bare page.sink _
  | flat same soft fitting =>
    rw [frames] at same
    cases same
    have whole : f.fits = true := by simpa [consistent] using fitting
    -- A group that fits has space for the newline in it, and no margin is that wide.
    have ahead := fitted.ahead 0 f (by simp [frames]) whole
    have space := grounded.space
    have first := forward (.lineBreak b) (by simp)
    have second := forward (.text t) (by simp)
    have later : 0 ≤ extent c (.group 0) ts := extent_nonneg _ fun u member => forward u (by simp [member])
    have wide : Extent.columns c (.lineBreak hard) = infiniteWidth := by simp [Extent.columns, Break.width, newline]
    simp only [extent, Reach.step, Reach.meet, wide] at ahead
    omega

theorem boxed_top {n : Nat} {frames : List (Frame Int)} (boxed : GroupsConsistent (n + 1) frames) :
    ∃ f below, frames = f :: below ∧ f.breaks = .consistent ∧ GroupsConsistent n below := by
  obtain ⟨above, ground, rfl, count, consistent⟩ := boxed
  cases above with
  | nil => cases count
  | cons f above =>
    obtain ⟨here, below⟩ := List.forall_mem_cons.mp consistent
    exact ⟨f, above ++ [ground], rfl, here, above, ground, rfl, Nat.succ.inj count, below⟩

theorem boxed_push {n : Nat} {frames : List (Frame Int)} {f : Frame Int} (consistent : f.breaks = .consistent)
    (boxed : GroupsConsistent n frames) : GroupsConsistent (n + 1) (f :: frames) := by
  obtain ⟨above, ground, rfl, rfl, all⟩ := boxed
  exact ⟨f :: above, ground, rfl, rfl, List.forall_mem_cons.mpr ⟨consistent, all⟩⟩

theorem boxed_shift {n : Nat} {f : Frame Int} {below : List (Frame Int)} (boxed : GroupsConsistent n (f :: below))
    (indent : Int) : GroupsConsistent n ({ f with indent := indent } :: below) := by
  cases n with
  | zero =>
    obtain ⟨above, ground, same, count, _⟩ := boxed
    cases List.length_eq_zero_iff.mp count
    cases same
    exact ⟨[], _, rfl, rfl, by simp⟩
  | succ n =>
    obtain ⟨g, rest, same, consistent, inner⟩ := boxed_top boxed
    cases same
    exact boxed_push consistent inner

/-- On a line that has something on it, only the open groups count. -/
theorem sits_within {n : Nat} {line : Line} (boxed : GroupsConsistent n page.frames) (within : ¬ line.Starts) :
    PageAtSpot ⟨n, line⟩ rest page :=
  ⟨boxed, fun fresh => absurd (.inr fresh) within, fun soft => absurd (.inl soft) within⟩

/-- A line starts after a break if a comment follows. -/
theorem break_sits {n : Nat} (margin : c.margin < infiniteWidth)
    (lays : TokensLaid c page (.lineBreak b :: transcript st (rest.map (Part.call o))) final)
    (fitted : GroupsFitted c page (.lineBreak b :: transcript st (rest.map (Part.call o)))) (bare : b.preBreak = [])
    (boxed : GroupsConsistent (n + 1) page.frames) (run : Run ⟨n + 1, .soft⟩ rest last) (ends : last.line ≠ .head)
    (wrote : Wrote page (.lineBreak b) size after) : PageAtSpot ⟨n + 1, .soft⟩ rest after := by
  have kept : after.frames = page.frames := by cases wrote <;> rfl
  refine ⟨kept ▸ boxed, ?_, ?_⟩
  · intro other
    cases other
  · rintro - ⟨t, later, rfl⟩
    obtain ⟨more, rfl⟩ := newline_after run ends
    obtain ⟨f, below, frames, consistent, _⟩ := boxed_top boxed
    rw [soft_taken margin lays.grounded rfl lays.forward fitted frames consistent bare wrote]
    exact begins_newline _

theorem shift_sits {n : Nat} {line : Line} {delta : Int} {others : List Part} (known : line.Decided)
    (sits : PageAtSpot ⟨n, line⟩ others page) (wrote : Wrote page (.indent delta) size after) :
    PageAtSpot ⟨n, line⟩ rest after := by
  obtain ⟨boxed, fresh, _⟩ := sits
  cases wrote with
  | shift frames =>
    rw [frames] at boxed
    refine ⟨boxed_shift boxed _, fun begins => ?_, fun soft => absurd soft known.1⟩
    rw [text_mark]
    simpa [Mark.spelling] using fresh begins

/-- What is written for a part sits where the part leads to. -/
theorem sits_step (margin : c.margin < infiniteWidth)
    (lays : TokensLaid c page (transcript st ((part :: rest).map (Part.call o))) final)
    (fitted : GroupsFitted c page (transcript st ((part :: rest).map (Part.call o)))) (step : Step s part next)
    (run : Run next rest last) (ends : last.line ≠ .head) (sits : PageAtSpot s (part :: rest) page)
    (wrote : Wrote page (tokenAt st (part.call o)) size after) : PageAtSpot next rest after := by
  have boxed := sits.boxed
  cases step with
  | word | own | head | note =>
    cases wrote
    exact sits_within boxed (by simp [Line.Starts])
  | newline =>
    obtain ⟨text, frames⟩ := hard_text rfl rfl wrote
    refine ⟨frames ▸ boxed, fun _ => text ▸ begins_newline _, ?_⟩
    intro other
    cases other
  | space | softBreak => exact break_sits margin lays fitted rfl boxed run ends wrote
  | start =>
    cases wrote with
    | fit | split => exact sits_within (boxed_push rfl boxed) (by simp [Line.Starts])
  | stop =>
    obtain ⟨f, below, top, _, inner⟩ := boxed_top boxed
    cases wrote with
    | stop frames =>
      rw [top] at frames
      cases frames
      exact sits_within inner (by simp [Line.Starts])
  | indent known | outdent known => exact shift_sits known sits wrote

end Step

section Runs

variable {o : Options Int} {c : Config Int} {page mid next final : Page Int} {before rest parts : List Part}
  {part : Part} {s place last : Spot} {st standing : Standing} {t : Text} {size : Int}

/-- Parts are still to be written at a spot of a page. -/
structure PartsPending (o : Options Int) (c : Config Int) (s : Spot) (st : Standing) (page : Page Int)
    (parts : List Part) (final : Page Int) : Prop where
  lays : TokensLaid c page (transcript st (parts.map (Part.call o))) final
  fitted : GroupsFitted c page (transcript st (parts.map (Part.call o)))
  run : ∃ last, Run s parts last ∧ last.line ≠ .head
  sits : PageAtSpot s parts page

theorem stands_cons (margin : c.margin < infiniteWidth)
    (stands : PartsPending o c s st page (part :: rest) final) :
    ∃ size after next, Wrote page (tokenAt st (part.call o)) size after ∧ Step s part next ∧
      PartsPending o c next (st.after (part.call o)) after rest final := by
  obtain ⟨lays, fitted, ⟨last, run, ends⟩, sits⟩ := stands
  obtain ⟨after, wrote, later, still⟩ := fitted_cons margin lays fitted
  cases run with
  | @cons _ next _ _ _ step run =>
    exact ⟨_, after, next, wrote, step, later, still, ⟨last, run, ends⟩,
      sits_step margin lays fitted step run ends sits wrote⟩

theorem stands_append (margin : c.margin < infiniteWidth) (stands : PartsPending o c s st page (before ++ rest) final) :
    ∃ mid next place, TokensWritten c page (transcript st (before.map (Part.call o))) mid ∧
      PartsPending o c next place mid rest final := by
  induction before generalizing page s st with
  | nil => exact ⟨page, s, st, .nil stands.lays.grounded, stands⟩
  | cons part before ih =>
    obtain ⟨size, after, next, wrote, _, later⟩ := stands_cons margin stands
    obtain ⟨mid, spot, standing, written, further⟩ := ih later
    exact ⟨mid, spot, standing, .cons stands.lays.grounded wrote written, further⟩

/-- Nothing is written on the line of a comment after it. -/
theorem closed_tail (closed : ¬ s.line.Open) (run : Run s rest last)
    (written : TokensWritten c page (transcript st (rest.map (Part.call o))) final) :
    ∃ tail, final.sink.text = page.sink.text ++ tail ∧ (tail = [] ∨ tail.head? = some 0x0a) := by
  induction run generalizing page st with
  | nil =>
    cases written
    exact ⟨[], (List.append_nil _).symm, .inl rfl⟩
  | cons step run ih =>
    obtain _ | ⟨_, wrote, later⟩ := written
    have shifted {delta size : Int} {after : Page Int} (wrote : Wrote page (.indent delta) size after) :
        after.sink.text = page.sink.text := by
      cases wrote
      exact (text_mark page.sink _).trans (List.append_nil _)
    cases step with
    | newline =>
      obtain ⟨text, _⟩ := hard_text rfl rfl wrote
      obtain ⟨more, grown⟩ := LineEnds.written_text later
      exact ⟨0x0a :: more, by rw [grown, text, List.append_assoc]; rfl, .inr rfl⟩
    | indent | outdent =>
      rw [← shifted wrote]
      exact ih closed later
    | word free | space free | softBreak free | start free | note free => exact absurd free closed
    | stop => exact absurd open_busy closed
    | own => exact absurd (starts_open (.inr rfl)) closed
    | head => exact absurd (starts_open (.inl rfl)) closed

/-- A comment is written after the texts before it, and ends its line. -/
theorem comment_ends (blank : page.sink.text = []) (comment : commentOf part = some t)
    (written : TokensWritten c page (transcript st (before.map (Part.call o))) mid)
    (wrote : Wrote mid (tokenAt standing (part.call o)) size next) (step : Step s part place)
    (run : Run place rest last)
    (later : TokensWritten c next (transcript (standing.after (part.call o)) (rest.map (Part.call o))) final) :
    ∃ tail, final.sink.text = mid.sink.text ++ mid.sink.lead t ++ t ++ tail ∧
      solid (mid.sink.text ++ mid.sink.lead t) = solid (before.flatMap wordOf) ∧
      (tail = [] ∨ tail.head? = some 0x0a) := by
  have token : tokenAt standing (part.call o) = .text t := by cases part <;> cases comment <;> rfl
  rw [token] at wrote
  have text : next.sink.text = mid.sink.text ++ mid.sink.lead t ++ t := by
    cases wrote
    exact text_write mid.sink t size
  have closed : ¬ place.line.Open := by cases step <;> cases comment <;> simp [Line.Open]
  obtain ⟨tail, whole, ends⟩ := closed_tail closed run later
  refine ⟨tail, by rw [whole, text], ?_, ends⟩
  have solids := written_solid written (unmarked_parts st before)
  have lead : solid (mid.sink.lead t) = [] := solid_blank fun byte member => (lead_blank member).imp_right .inl
  rw [solid_append, lead, solids, wording_parts, blank]
  exact List.append_nil _

/-- Parts that come in order are placed. -/
theorem stands_placed (margin : c.margin < infiniteWidth) (blank : page.sink.text = [])
    (stands : PartsPending o c s st page parts final) : CommentsPlaced parts final.sink.text := by
  rintro before part t after rfl comment
  obtain ⟨mid, spot, standing, written, here⟩ := stands_append margin stands
  obtain ⟨size, next, place, wrote, step, later⟩ := stands_cons margin here
  obtain ⟨last, run, _⟩ := later.run
  obtain ⟨tail, whole, words, ends⟩ := comment_ends blank comment written wrote step run (lays_written later.lays)
  refine ⟨_, tail, whole, words, ends, ?_⟩
  rintro rfl
  refine ⟨mid.sink.text, mid.sink.lead t, rfl, ?_, fun byte member => lead_blank member⟩
  cases step with
  | own => exact here.sits.fresh rfl
  | head => exact here.sits.soft rfl ⟨t, after, rfl⟩

theorem trimRight_ends {tail : Text} (head : Text) (ends : tail = [] ∨ tail.head? = some 0x0a) :
    (∃ rest, (head ++ tail).trimRight = head ++ 0x0a :: rest) ∨ (head ++ tail).trimRight = head.trimRight := by
  cases tail with
  | nil => exact .inr (by rw [List.append_nil])
  | cons b rest =>
    obtain rfl : b = 0x0a := by simpa using ends
    rw [Text.Glyphs.trimRight_split (by decide)]
    split
    · exact .inr rfl
    · exact .inl ⟨Text.trimRight rest, rfl⟩

/-- However lines are broken, comments that come in order end them. -/
theorem stream_closed {lines : List Text} {docs : List Document} {out : Text}
    (decoded : ∀ d ∈ docs, d.decoded = true) (written : WrittenAs o (streamCalls lines docs o) out) :
    CommentsClosed (streamParts o.comments lines docs true .empty) out := by
  obtain ⟨final, rfl, laid⟩ := written
  obtain ⟨last, _, run⟩ := stream_run o.comments lines docs true .empty decoded decided_fresh fun _ => rfl
  rw [streamCalls, ← streamParts_calls] at laid
  intro before part t after same comment
  rw [same] at run laid
  rw [List.map_append, List.map_cons, transcript_append] at laid
  obtain ⟨mid, first, _ | ⟨_, wrote, later⟩⟩ := written_append laid
  obtain ⟨_, _, step, ahead⟩ := run_split run
  obtain ⟨tail, whole, words, ends⟩ := comment_ends rfl comment first wrote step ahead later
  exact ⟨_, words, whole ▸ trimRight_ends _ ends⟩

/-- The parts of a stream are written so that its comments are placed. -/
theorem stream_placed {start : Printer Int} (accepted : Printer.ofConfig o.config = .ok start) (lines : List Text)
    {docs : List Document} (decoded : ∀ d ∈ docs, d.decoded = true) :
    ∃ p, Printer.print o.config (Document.allCalls o lines docs true .empty) = .ok p ∧
      CommentsPlaced (streamParts o.comments lines docs true .empty) p.output := by
  have kin : OptionsAlike BothRise o o := kin_apart accepted accepted rfl rfl rfl
  have balanced := twins_balanced (sealed_twins (documents_sealed kin lines docs true .empty))
  obtain ⟨p, q, ran, ended, lays⟩ := balanced_printed accepted balanced
  obtain ⟨last, known, run⟩ := stream_run o.comments lines docs true .empty decoded decided_fresh fun _ => rfl
  refine ⟨q, by simp only [Printer.print, accepted, ok_bind, ran, ended], ?_⟩
  rw [← streamParts_calls] at lays
  have blank : PageAtSpot ⟨0, .fresh⟩ (streamParts o.comments lines docs true .empty)
      (Page.ofConfig o.config.withDefaults) := by
    refine ⟨⟨[], _, rfl, rfl, by simp⟩, fun _ => .inl rfl, ?_⟩
    intro other
    cases other
  exact stands_placed (Rendering.accepted_margin accepted) rfl
    ⟨lays, ofConfig_fitted _ _, ⟨_, run, known.2⟩, blank⟩

end Runs

section Formats

variable {ι : Type} [Columns ι]

/-- Comments that are placed are shown when the white space at the end is cut off. -/
theorem placed_shown {parts : List Part} {text : Text} (placed : CommentsPlaced parts text) :
    CommentsShown parts text.trimRight := by
  intro before part t after same comment
  obtain ⟨head, tail, rfl, words, ends, own⟩ := placed before part t after same comment
  exact ⟨head, words, own, trimRight_ends _ ends⟩

/-- The comments of documents stand where they cannot change them: what is asked for are the parts, and they are
formatted to an output that shows the comments. -/
structure StreamKeepsComments (o : Options ι) (lines : List Text) (docs : List Document) : Prop where
  asked : (streamParts o.comments lines docs true .empty).map (Part.call o) =
    Document.allCalls o lines docs true .empty
  shown : ∃ out, Yaml.formatRead o lines docs none = .ok out ∧
    CommentsShown (streamParts o.comments lines docs true .empty) out

/-- What is printed is formatted, without the white space at its end. -/
theorem format_printed {o : Options ι} {lines : List Text} {docs : List Document} {q : Printer ι}
    (printed : Printer.print o.config (Document.allCalls o lines docs true .empty) = .ok q) :
    Yaml.formatRead o lines docs none = .ok q.output.trimRight := by
  rw [stream_eq_print, printed]
  rfl

variable {lines : List Text} {docs : List Document} (decoded : ∀ d ∈ docs, d.decoded = true)
include decoded

theorem stream_keeps {o : Options Int} {start : Printer Int} (accepted : Printer.ofConfig o.layout = .ok start) :
    StreamKeepsComments o lines docs := by
  obtain ⟨p, begins⟩ := accepted_config accepted
  obtain ⟨q, printed, placed⟩ := stream_placed begins lines decoded
  exact ⟨streamParts_calls o lines docs true .empty, _, format_printed printed, placed_shown placed⟩

variable {o : Options Int64} {start : Printer Int64} (accepted : Printer.ofConfig o.layout = .ok start)
include accepted

theorem stream_keeps_words (room : ColumnsCount o (streamCalls lines docs)) : StreamKeepsComments o lines docs := by
  obtain ⟨p, begins⟩ := accepted_words accepted
  obtain ⟨q, printed, placed⟩ := stream_placed begins lines decoded
  have kin : OptionsAlike BothRise o.numbers o.numbers := kin_apart begins begins rfl rfl rfl
  have reprinted := printed_words begins (sealed_twins (documents_sealed (kin_words o) lines docs true .empty))
    (twins_balanced (sealed_twins (documents_sealed kin lines docs true .empty))) room printed
  refine ⟨streamParts_calls o lines docs true .empty, _, format_printed reprinted, placed_shown ?_⟩
  rw [Exactness.output_words]
  exact placed

theorem stream_closes_words {out : Text} (light : TextsCount o (streamCalls lines docs))
    (formatted : Yaml.formatRead o lines docs none = .ok out) :
    CommentsClosed (streamParts o.comments lines docs true .empty) out := by
  obtain ⟨p, begins⟩ := accepted_words accepted
  exact stream_closed (o := o.numbers) decoded (stream_in_order begins light formatted)

end Formats

/-- In every stream that is formatted, comments stand where they cannot change it, for all options with an
accepted layout: a comment is followed by a newline or by nothing, and one before or after an entry has nothing
but indentation before it on its line. With machine words the columns that are asked for must add up to no more
than these can count. Where the indentation does not, the space that is left on a line can run over, and with it
what fits there; but as long as the texts can be counted, nothing follows a comment on its line, however far it is
indented. -/
theorem comments_keep_to_their_lines :
    (∀ (o : Options Int) (start : Printer Int) (lines : List Text) (docs : List Document),
      Printer.ofConfig o.layout = .ok start → (∀ d ∈ docs, d.decoded = true) → StreamKeepsComments o lines docs) ∧
    (∀ (o : Options Int64) (start : Printer Int64) (lines : List Text) (docs : List Document),
      Printer.ofConfig o.layout = .ok start → (∀ d ∈ docs, d.decoded = true) →
      (ColumnsCount o (streamCalls lines docs) → StreamKeepsComments o lines docs) ∧
      (TextsCount o (streamCalls lines docs) → ∀ out, Yaml.formatRead o lines docs none = .ok out →
        CommentsClosed (streamParts o.comments lines docs true .empty) out)) :=
  ⟨fun _ _ _ _ accepted decoded => stream_keeps decoded accepted,
    fun _ _ _ _ accepted decoded => ⟨stream_keeps_words decoded accepted,
      fun light _ formatted => stream_closes_words decoded accepted light formatted⟩⟩

/-- Comments on the line of an entry, before one and after one; and on the lines of entries where a second level of
indentation runs over a word. -/
theorem comments_keep_to_their_lines_nested :
    let src : Text := "a: b # n\nc:\n  # h\n  - d\n  # f\n"
    let o : Options Int64 := Options.standard
    let flat : Text := "a: b # n\nc: d\n"
    let wide : Options Int64 := { Options.standard with layout.unit := 0x6000000000000000, layout.tabs := true }
    StreamKeepsComments o src.lines (Document.read src).1 ∧
      Yaml.format o src = .ok "\x7b\n    a: b, # n\n    c: [\n        # h\n        d\n        # f\n    ]\n\x7d" ∧
      CommentsClosed (streamParts wide.comments flat.lines (Document.read flat).1 true .empty)
        "\x7b\n\ta: b, # n\n\tc: d\n\x7d" := by
  intro src o flat wide
  have room : ColumnsCount o (streamCalls src.lines (Document.read src).1) := by decide +kernel
  have light : TextsCount wide (streamCalls flat.lines (Document.read flat).1) := by decide +kernel
  exact ⟨(comments_keep_to_their_lines.2 o _ _ _ rfl (Yaml.Decoding.read_decoded src)).1 room, by decide +kernel,
    (comments_keep_to_their_lines.2 wide _ _ _ rfl (Yaml.Decoding.read_decoded flat)).2 light _ (by decide +kernel)⟩

end Galley.Layout.CommentPlacement
