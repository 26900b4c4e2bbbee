import Galley.Proofs.Bracketing
import Galley.Proofs.Composition
import Galley.Proofs.TextOrder
import Galley.Text.Space

/-! Calls that differ only in layout: with other policies and other indentation, and printed under
another configuration, they are written with other blanks and nothing else. Outside any group the blanks
differ only before a visible character, so that what is trimmed from the end is the same as well. -/
namespace Galley.Layout.Twinning
open Extent PageWriting Emission TextOrder Galley.Layout.Composition
open Rendering Indentation Discipline Contract Bracketing

/-- Balanced calls with the same texts and breaks, whose groups and indentation are related by `R`, each
to its counterpart. -/
inductive CallsTwinned {ι κ : Type} [Columns ι] [Columns κ] (R : Call ι → Call κ → Prop) :
    List (Call ι) → List (Call κ) → Prop where
  | nil : CallsTwinned R [] []
  | text (s : Text) : CallsTwinned R [.text s] [.text s]
  | space : CallsTwinned R [.space] [.space]
  | softBreak : CallsTwinned R [.softBreak] [.softBreak]
  | hardBreak : CallsTwinned R [.hardBreak] [.hardBreak]
  | append {xs us : List (Call ι)} {ys vs : List (Call κ)} (first : CallsTwinned R xs ys)
      (second : CallsTwinned R us vs) :
      CallsTwinned R (xs ++ us) (ys ++ vs)
  | group {breaks policy : Breaks} {offset : ι} {other : κ} {xs : List (Call ι)} {ys : List (Call κ)}
      (kin : R (.groupStart breaks offset) (.groupStart policy other)) (inner : CallsTwinned R xs ys) :
      CallsTwinned R (.groupStart breaks offset :: xs ++ [.groupEnd]) (.groupStart policy other :: ys ++ [.groupEnd])
  | indented {delta : ι} {other : κ} {xs : List (Call ι)} {ys : List (Call κ)}
      (kin : R (.indent delta) (.indent other)) (inner : CallsTwinned R xs ys) :
      CallsTwinned R (.indent delta :: xs ++ [.outdent]) (.indent other :: ys ++ [.outdent])

/-- A byte that shows: ASCII, and no white space. -/
def ByteVisible (b : UInt8) : Prop := b < 0x80 ∧ Text.isSpace b.toNat = false

instance (b : UInt8) : Decidable (ByteVisible b) := inferInstanceAs (Decidable (_ ∧ _))

/-- Twins outside any group that differ only before a visible character: texts and hard breaks are the
same, and what may break in other places ends in such a character, with nothing but the ends of groups
after it. -/
inductive CallsSealed {ι κ : Type} [Columns ι] [Columns κ] (R : Call ι → Call κ → Prop) :
    List (Call ι) → List (Call κ) → Prop where
  | nil : CallsSealed R [] []
  | text (s : Text) : CallsSealed R [.text s] [.text s]
  | hardBreak : CallsSealed R [.hardBreak] [.hardBreak]
  | append {xs us : List (Call ι)} {ys vs : List (Call κ)} (first : CallsSealed R xs ys)
      (second : CallsSealed R us vs) :
      CallsSealed R (xs ++ us) (ys ++ vs)
  | block {xs : List (Call ι)} {ys : List (Call κ)} {b : UInt8} (n : Nat) (visible : ByteVisible b)
      (twins : CallsTwinned R (xs ++ .text [b] :: .replicate n .groupEnd) (ys ++ .text [b] :: .replicate n .groupEnd)) :
      CallsSealed R (xs ++ .text [b] :: .replicate n .groupEnd) (ys ++ .text [b] :: .replicate n .groupEnd)

/-- A call that opens a group of a known policy, or adds indentation, and not to the left. -/
inductive CallRises : Call Int → Prop where
  | group {breaks : Breaks} {offset : Int} (known : ∀ code, breaks ≠ .unknown code) (level : 0 ≤ offset) :
      CallRises (.groupStart breaks offset)
  | indent {delta : Int} (more : 0 ≤ delta) : CallRises (.indent delta)

/-- Two calls that rise, each in its own way. -/
def BothRise (k j : Call Int) : Prop := CallRises k ∧ CallRises j

/-- The text without its spaces, tabs and newlines. -/
def solid (t : Text) : Text := t.filter fun b => b ≠ 0x20 ∧ b ≠ 0x09 ∧ b ≠ 0x0a

/-- The texts of tokens, one after the other. -/
def wording (ts : List (Token Int)) : Text :=
  ts.flatMap fun
    | .text s => s
    | _ => []

/-- Breaks that write no text of their own. -/
def BreaksUnmarked (ts : List (Token Int)) : Prop := ∀ b, .lineBreak b ∈ ts → b.preBreak = []

variable {c : Config Int} {page last : Page Int} {ts rest : List (Token Int)} {xs ys : List (Call Int)}

section Calls

theorem twins_symm (twins : CallsTwinned BothRise xs ys) : CallsTwinned BothRise ys xs := by
  induction twins with
  | nil => exact .nil
  | text s => exact .text s
  | space => exact .space
  | softBreak => exact .softBreak
  | hardBreak => exact .hardBreak
  | append _ _ first second => exact .append first second
  | group kin _ inner => exact .group kin.symm inner
  | indented kin _ inner => exact .indented kin.symm inner

private theorem rises_opens {breaks : Breaks} {offset : Int} (rises : CallRises (.groupStart breaks offset)) :
    CallOpens (.groupStart breaks offset) := by
  cases rises with
  | group known level => exact .plain known level

theorem balanced_of_twins {ι : Type} [Columns ι] {R : Call ι → Call Int → Prop} {xs : List (Call ι)}
    (rises : ∀ k j, R k j → CallRises j) (twins : CallsTwinned R xs ys) : Balanced ys := by
  induction twins with
  | nil => exact .nil
  | text s => exact .text s
  | space | softBreak => exact .lineBreak (by decide)
  | hardBreak => exact .hardBreak
  | append _ _ first second => exact .append first second
  | group kin _ inner => exact .group (rises_opens (rises _ _ kin)) inner
  | indented kin _ inner =>
    cases rises _ _ kin with
    | indent more => exact .indented more inner

theorem twins_balanced (twins : CallsTwinned BothRise xs ys) : Balanced xs :=
  balanced_of_twins (fun _ _ kin => kin.2) (twins_symm twins)

theorem sealed_twins {ι κ : Type} [Columns ι] [Columns κ] {R : Call ι → Call κ → Prop} {xs : List (Call ι)}
    {ys : List (Call κ)} (sealed : CallsSealed R xs ys) : CallsTwinned R xs ys := by
  induction sealed with
  | nil => exact .nil
  | text s => exact .text s
  | hardBreak => exact .hardBreak
  | append _ _ first second => exact .append first second
  | block _ _ twins => exact twins

theorem wording_append (ts us : List (Token Int)) : wording (ts ++ us) = wording ts ++ wording us :=
  List.flatMap_append

/-- Twins have the same texts, wherever they stand. -/
theorem twins_wording (twins : CallsTwinned BothRise xs ys) (s t : Standing) :
    wording (transcript s xs) = wording (transcript t ys) := by
  induction twins generalizing s t with
  | nil | text | space | softBreak | hardBreak => rfl
  | append _ _ first second =>
    simp only [transcript_append, wording_append]
    rw [first s t, second]
  | @group breaks policy offset other _ _ _ _ inner =>
    have same := inner (s.after (.groupStart breaks offset)) (t.after (.groupStart policy other))
    simp only [List.cons_append, transcript, transcript_append]
    show wording (transcript _ _ ++ [_]) = wording (transcript _ _ ++ [_])
    rw [wording_append, wording_append, same]
    rfl
  | @indented delta other _ _ _ _ inner =>
    have same := inner (s.after (.indent delta)) (t.after (.indent other))
    simp only [List.cons_append, transcript, transcript_append]
    show wording (transcript _ _ ++ [_]) = wording (transcript _ _ ++ [_])
    rw [wording_append, wording_append, same]
    rfl

theorem unmarked_append (first : BreaksUnmarked ts) (second : BreaksUnmarked rest) : BreaksUnmarked (ts ++ rest) := by
  intro b member
  rcases List.mem_append.mp member with early | late
  · exact first b early
  · exact second b late

/-- The breaks of twins write nothing but blanks. -/
theorem twins_unmarked (twins : CallsTwinned BothRise xs ys) (s : Standing) : BreaksUnmarked (transcript s xs) := by
  have quiet {t : Token Int} (none : ∀ b, t ≠ .lineBreak b) : BreaksUnmarked [t] := by
    intro b member
    exact absurd (List.mem_singleton.mp member).symm (none b)
  induction twins generalizing s with
  | nil => simp [transcript, BreaksUnmarked]
  | text u => exact quiet (by simp [tokenAt])
  | space => simp [transcript, Call.space, tokenAt, BreaksUnmarked]
  | softBreak => simp [transcript, Call.softBreak, tokenAt, BreaksUnmarked]
  | hardBreak => simp [transcript, tokenAt, BreaksUnmarked]
  | append _ _ first second =>
    rw [transcript_append]
    exact unmarked_append (first s) (second _)
  | group _ _ inner =>
    rw [List.cons_append, transcript, transcript_append, ← List.singleton_append]
    exact unmarked_append (quiet (by simp [tokenAt])) (unmarked_append (inner _) (quiet (by simp [tokenAt])))
  | indented _ _ inner =>
    rw [List.cons_append, transcript, transcript_append, ← List.singleton_append]
    exact unmarked_append (quiet (by simp [tokenAt])) (unmarked_append (inner _) (quiet (by simp [tokenAt])))

end Calls

section Solids

theorem solid_append (s t : Text) : solid (s ++ t) = solid s ++ solid t := List.filter_append ..

theorem solid_blank {t : Text} (blank : ∀ byte ∈ t, byte = 0x20 ∨ byte = 0x09 ∨ byte = 0x0a) :
    solid t = [] := by
  refine List.filter_eq_nil_iff.mpr fun byte member => ?_
  rcases blank byte member with rfl | rfl | rfl <;> decide

private theorem solid_lead (sink : Sink Int) (s : Text) : solid (sink.lead s) = [] :=
  solid_blank fun _ member => (lead_blank member).imp_right .inl

/-- A token adds its text and blanks. -/
theorem wrote_solid {t : Token Int} {size : Int} {next : Page Int} (unmarked : BreaksUnmarked [t])
    (wrote : Wrote page t size next) :
    solid next.sink.text = solid page.sink.text ++ solid (wording [t]) := by
  have quiet (m : Mark Int) (silent : solid m.spelling = []) :
      solid (page.sink.mark m).text = solid page.sink.text ++ solid [] := by
    rw [text_mark, solid_append, silent]
    rfl
  cases wrote with
  | text s => simp [text_write, solid_append, solid_lead, wording]
  | @flat _ _ b => exact quiet (.flat b.blank) rfl
  | @taken top _ b =>
    refine quiet (.taken (page.sink.lead b.preBreak) b.preBreak (top.indent + b.offset)) ?_
    rw [Mark.spelling, unmarked b (by simp), solid_append, solid_append, solid_lead]
    rfl
  | fit => exact quiet (.start true) rfl
  | split => exact quiet (.start false) rfl
  | stop => exact quiet .stop rfl
  | @shift _ _ delta => exact quiet (.shift delta) rfl
  | missing => simp [wording, solid]

end Solids

/-- Tokens written one after the other, each with some size. -/
inductive TokensWritten (c : Config Int) : Page Int → List (Token Int) → Page Int → Prop where
  | nil {page : Page Int} (grounded : PageGrounded c page) : TokensWritten c page [] page
  | cons {page next last : Page Int} {t : Token Int} {ts : List (Token Int)} {size : Int}
      (grounded : PageGrounded c page) (wrote : Wrote page t size next) (rest : TokensWritten c next ts last) :
      TokensWritten c page (t :: ts) last

section Writing

theorem lays_written (lays : TokensLaid c page ts last) : TokensWritten c page ts last := by
  induction ts generalizing page with
  | nil =>
    have grounded := lays.grounded
    cases lays.laid
    exact .nil grounded
  | cons t ts ih =>
    obtain ⟨next, wrote, later⟩ := lays_cons lays
    exact .cons lays.grounded wrote (ih later)

theorem written_grounded (written : TokensWritten c page ts last) : PageGrounded c page := by
  cases written with
  | nil grounded | cons grounded _ _ => exact grounded

theorem written_append (written : TokensWritten c page (ts ++ rest) last) :
    ∃ mid, TokensWritten c page ts mid ∧ TokensWritten c mid rest last := by
  induction ts generalizing page with
  | nil => exact ⟨page, .nil (written_grounded written), written⟩
  | cons t ts ih =>
    cases written with
    | cons grounded wrote later =>
      obtain ⟨mid, first, second⟩ := ih later
      exact ⟨mid, .cons grounded wrote first, second⟩

variable (written : TokensWritten c page ts last)
include written

theorem written_concat {size : Int} (wrote : Wrote last t size next)
    (grounded : PageGrounded c next) : TokensWritten c page (ts ++ [t]) next := by
  induction written with
  | nil before => exact .cons before wrote (.nil grounded)
  | cons before first _ ih => exact .cons before first (ih wrote)

theorem written_solid (unmarked : BreaksUnmarked ts) :
    solid last.sink.text = solid page.sink.text ++ solid (wording ts) := by
  induction written with
  | nil => simp [wording, solid]
  | @cons page next last t ts size _ wrote rest ih =>
    have first := wrote_solid (fun b member => unmarked b (by simp_all)) wrote
    rw [ih fun b member => unmarked b (by simp [member]), first, List.append_assoc, ← solid_append,
      ← wording_append]
    rfl

theorem written_carries {scopes after : List (List Int)}
    (admitted : TokensAdmitted scopes ts after) (carries : FramesCarry scopes page.frames) :
    FramesCarry after last.frames := by
  induction written generalizing scopes with
  | nil =>
    cases admitted
    exact carries
  | cons _ wrote _ ih =>
    cases admitted with
    | cons first later => exact ih later (wrote_carries carries first wrote)

theorem written_last : PageGrounded c last := by
  induction written with
  | nil grounded => exact grounded
  | cons _ _ _ ih => exact ih

omit written

/-- The ends of groups write nothing. -/
theorem written_ends {n : Nat} (written : TokensWritten c page (.replicate n .groupEnd) last) :
    last.sink.text = page.sink.text ∧ (NothingOwed page.sink → NothingOwed last.sink) := by
  induction n generalizing page with
  | zero =>
    cases written
    exact ⟨rfl, id⟩
  | succ n ih =>
    cases written with
    | cons _ wrote rest =>
      cases wrote
      obtain ⟨same, settled⟩ := ih rest
      rw [same, text_mark]
      exact ⟨List.append_nil _, settled⟩

end Writing

/-- A page outside any group, with nothing owed. -/
structure PageAtRest (c : Config Int) (page : Page Int) : Prop where
  grounded : PageGrounded c page
  settled : NothingOwed page.sink
  carries : FramesCarry [[]] page.frames

/-- A text that is empty or ends in a visible character: nothing of it is trimmed at its end. -/
def EndsVisibly (t : Text) : Prop := t = [] ∨ ∃ before b, ByteVisible b ∧ t = before ++ [b]

/-- Pages of two runs that rest, with the same text after parts that differ in blanks alone and are not
trimmed. -/
structure PagesAbreast (c d : Config Int) (page other : Page Int) : Prop where
  left : PageAtRest c page
  right : PageAtRest d other
  same : ∃ before also shared, EndsVisibly before ∧ EndsVisibly also ∧ solid before = solid also ∧
    page.sink.text = before ++ shared ∧ other.sink.text = also ++ shared

section Runs

variable {d : Config Int} {other final : Page Int}

theorem trimRight_anchored {before : Text} (anchored : EndsVisibly before) (t : Text) :
    (before ++ t).trimRight = before ++ t.trimRight := by
  rcases anchored with rfl | ⟨start, b, ⟨ascii, shows⟩, rfl⟩
  · rfl
  · simpa using Text.trimRight_ascii ascii shows start t

theorem ofConfig_rests (c : Config Int) : PageAtRest c (Page.ofConfig c) :=
  ⟨ofConfig_grounded c, ⟨rfl, rfl⟩, ofConfig_carries c⟩

theorem rests_text {s : Text} (rests : PageAtRest c page) (written : TokensWritten c page [.text s] last) :
    PageAtRest c last ∧ last.sink.text = page.sink.text ++ s := by
  have grounded := written_last written
  obtain ⟨_, settled, carries⟩ := rests
  cases written with
  | @cons _ next _ _ _ size ground wrote rest =>
    cases rest
    cases wrote
    refine ⟨⟨grounded, ?_, carries⟩, ?_⟩
    · cases void : s.isEmpty with
      | true =>
        simp only [Sink.write, void]
        exact settled
      | false => exact write_settled size ground.indent ground.blank void
    · rw [text_write, lead_settled settled, List.append_nil]

theorem rests_break (rests : PageAtRest c page)
    (written : TokensWritten c page [.lineBreak ⟨.hard, 0, 0, []⟩] last) :
    PageAtRest c last ∧ last.sink.text = page.sink.text ++ [0x0a] := by
  cases written with
  | @cons _ _ _ _ _ size grounded wrote rest =>
    cases rest
    have ran := write_of_wrote wrote
    rw [write_hard_break grounded rests.carries rfl rfl rfl] at ran
    cases ran
    have blank := ofConfig_rests c
    refine ⟨⟨?_, blank.settled, blank.carries⟩, ?_⟩
    · exact ⟨rfl, blank.grounded.space, blank.grounded.indent, blank.grounded.blank, blank.grounded.bottom⟩
    · rw [text_onto]
      simp [Sink.text, Mark.spelling, Page.ofConfig, Sink.ofConfig]

theorem transcript_ends (n : Nat) (s : Standing) :
    transcript s (.replicate n .groupEnd) = .replicate n .groupEnd := by
  induction n generalizing s with
  | zero => rfl
  | succ n ih => simp only [List.replicate_succ, transcript, ih, tokenAt]

/-- What closes with a visible character and the ends of groups leaves a page at rest, right after that
character. -/
theorem rests_block {n : Nat} {b : UInt8} (rests : PageAtRest c page)
    (balanced : Balanced (xs ++ .text [b] :: .replicate n .groupEnd))
    (written : TokensWritten c page (transcript .initial (xs ++ .text [b] :: .replicate n .groupEnd)) last) :
    PageAtRest c last ∧ ∃ before, last.sink.text = before ++ [b] := by
  have carries := written_carries written (balanced_admitted balanced .initial (by simp [Standing.initial]))
    rests.carries
  have grounded := written_last written
  rw [transcript_append] at written
  obtain ⟨mid, _, closed⟩ := written_append written
  cases closed with
  | @cons _ shown _ _ _ size ground wrote ended =>
    rw [transcript_ends] at ended
    obtain ⟨same, settled⟩ := written_ends ended
    cases wrote
    refine ⟨⟨grounded, settled (write_settled size ground.indent ground.blank rfl), carries⟩, ?_⟩
    exact ⟨mid.sink.text ++ mid.sink.lead [b], by rw [same, text_write]⟩

/-- Two pages go on with the same text. -/
private theorem abreast_same {s : Text} (abreast : PagesAbreast c d page other)
    (left : PageAtRest c last ∧ last.sink.text = page.sink.text ++ s)
    (right : PageAtRest d final ∧ final.sink.text = other.sink.text ++ s) : PagesAbreast c d last final := by
  obtain ⟨before, also, shared, anchored, anchor, solids, text, same⟩ := abreast.same
  refine ⟨left.1, right.1, before, also, shared ++ s, anchored, anchor, solids, ?_, ?_⟩
  · rw [left.2, text, List.append_assoc]
  · rw [right.2, same, List.append_assoc]

theorem abreast_solid (abreast : PagesAbreast c d page other) : solid page.sink.text = solid other.sink.text := by
  obtain ⟨before, also, shared, _, _, solids, text, same⟩ := abreast.same
  rw [text, same, solid_append, solid_append, solids]

/-- Two pages that are abreast stay so while calls are written that differ only before visible
characters. -/
theorem written_abreast (sealed : CallsSealed BothRise xs ys) (abreast : PagesAbreast c d page other)
    (left : TokensWritten c page (transcript .initial xs) last)
    (right : TokensWritten d other (transcript .initial ys) final) : PagesAbreast c d last final := by
  induction sealed generalizing page other last final with
  | nil =>
    cases left
    cases right
    exact abreast
  | text s => exact abreast_same abreast (rests_text abreast.left left) (rests_text abreast.right right)
  | hardBreak => exact abreast_same abreast (rests_break abreast.left left) (rests_break abreast.right right)
  | append one _ first second =>
    rw [transcript_append, balanced_after (twins_balanced (sealed_twins one))] at left
    rw [transcript_append, balanced_after (twins_balanced (twins_symm (sealed_twins one)))] at right
    obtain ⟨mid, here, later⟩ := written_append left
    obtain ⟨between, there, after⟩ := written_append right
    exact second (first abreast here there) later after
  | @block xs ys b n visible twins =>
    have solids := calc solid last.sink.text
      _ = solid page.sink.text ++ solid (wording _) := written_solid left (twins_unmarked twins _)
      _ = solid other.sink.text ++ solid (wording _) := by
        rw [abreast_solid abreast, twins_wording twins .initial .initial]
      _ = solid final.sink.text := (written_solid right (twins_unmarked (twins_symm twins) _)).symm
    obtain ⟨rests, before, text⟩ := rests_block abreast.left (twins_balanced twins) left
    obtain ⟨also, start, same⟩ := rests_block abreast.right (twins_balanced (twins_symm twins)) right
    exact ⟨rests, also, last.sink.text, final.sink.text, [], .inr ⟨before, b, visible, text⟩,
      .inr ⟨start, b, visible, same⟩, solids, by simp, by simp⟩

end Runs

section Printing

variable {d : Config Int} {start begun : Printer Int}

theorem balanced_print (accepted : Printer.ofConfig c = .ok start) (balanced : Balanced xs) :
    ∃ p, Printer.print c xs = .ok p ∧
      TokensWritten c.withDefaults (Page.ofConfig c.withDefaults) (transcript .initial xs) p.page := by
  obtain ⟨p, last, ran, ended, lays⟩ := balanced_printed accepted balanced
  refine ⟨last, ?_, lays_written lays⟩
  rw [Printer.print, accepted, ok_bind, ran, ok_bind, ended]

/-- Twins are printed with other blanks. -/
theorem twins_printed (accepted : Printer.ofConfig c = .ok start) (also : Printer.ofConfig d = .ok begun)
    (twins : CallsTwinned BothRise xs ys) :
    ∃ p q, Printer.print c xs = .ok p ∧ Printer.print d ys = .ok q ∧ solid p.output = solid q.output := by
  obtain ⟨p, printed, written⟩ := balanced_print accepted (twins_balanced twins)
  obtain ⟨q, reprinted, rewritten⟩ := balanced_print also (twins_balanced (twins_symm twins))
  refine ⟨p, q, printed, reprinted, ?_⟩
  have one := written_solid written (twins_unmarked twins _)
  have two := written_solid rewritten (twins_unmarked (twins_symm twins) _)
  rw [twins_wording twins .initial .initial] at one
  exact one.trans two.symm

/-- Twins that differ only before visible characters are printed with other blanks, and not with others
at the end. -/
theorem sealed_printed (accepted : Printer.ofConfig c = .ok start) (also : Printer.ofConfig d = .ok begun)
    (sealed : CallsSealed BothRise xs ys) :
    ∃ p q, Printer.print c xs = .ok p ∧ Printer.print d ys = .ok q ∧
      solid p.output.trimRight = solid q.output.trimRight := by
  have twins := sealed_twins sealed
  obtain ⟨p, printed, written⟩ := balanced_print accepted (twins_balanced twins)
  obtain ⟨q, reprinted, rewritten⟩ := balanced_print also (twins_balanced (twins_symm twins))
  refine ⟨p, q, printed, reprinted, ?_⟩
  have blank : PagesAbreast c.withDefaults d.withDefaults (Page.ofConfig c.withDefaults)
      (Page.ofConfig d.withDefaults) :=
    ⟨ofConfig_rests _, ofConfig_rests _, [], [], [], .inl rfl, .inl rfl, rfl, rfl, rfl⟩
  obtain ⟨before, other, shared, anchored, anchor, solids, text, same⟩ :=
    (written_abreast sealed blank written rewritten).same
  show solid (Text.trimRight p.page.sink.text) = solid (Text.trimRight q.page.sink.text)
  rw [text, same, trimRight_anchored anchored, trimRight_anchored anchor, solid_append, solid_append, solids]

end Printing

end Galley.Layout.Twinning
