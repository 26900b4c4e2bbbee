import Galley.Proofs.Blanks
import Galley.Proofs.CommentPlacement

/-! Room for line breaks. Something has to be shown again after so many breaks: a text makes room for them, a break
takes some of it, whether it is taken or not. Main statement: calls that find room are printed with no more newlines
after each other than there was room for, and where the end of a text is trimmed, with no more empty lines. -/
namespace Galley.Layout.LineRoom
open Bracketing Lockstep PageWriting Twinning
open Comment (Policy)
open Comment.Wrapping (lines_newline splitOn_ne_nil)
open Discipline (Standing)

variable {ι : Type}

/-- The number of empty lines that may follow each other. -/
def allowed (pol : Policy) : Nat := (max 0 pol.maxBlankLines).toNat

/-- A break takes room for one line. -/
def spend : Nat → Option Nat
  | 0 => none
  | r + 1 => some r

/-- The line breaks for which there is room after a call, if there is room for the call. -/
def roomAfter (most r : Nat) : Call ι → Option Nat
  | .text s => some (if s.isEmpty then r else most + 1)
  | .lineBreak .. | .hardBreak => spend r
  | .groupStart .. | .alignStart _ | .groupEnd | .indent _ | .outdent => some r
  | .trailingComma | .emit _ | .eof => none

/-- The line breaks for which there is room after some calls. -/
def room (most r : Nat) (calls : List (Call ι)) : Option Nat := calls.foldlM (roomAfter most) r

/-- The newlines for which there is room after some bytes. -/
def spare (most r : Nat) (t : Text) : Option Nat :=
  t.foldlM (fun r b => if b = 0x0a then spend r else some (most + 1)) r

/-- No more than `most` empty lines of a text follow each other. The empty text has no lines. -/
def BlanksBounded (most : Int) (t : Text) : Prop :=
  t ≠ [] → ∀ n : Nat, List.replicate n [] <:+: t.lines → (n : Int) ≤ most

/-- No text that is handed to the printer contains a newline. -/
def TextsSingle (calls : List (Call ι)) : Prop := ∀ k ∈ calls, CallVoices (0x0a ∉ ·) k

instance (calls : List (Call ι)) : Decidable (TextsSingle calls) := List.decidableBAll (CallVoices (0x0a ∉ ·)) calls

section Texts

variable {most r : Nat} {s t : Text}

theorem spare_append : spare most r (s ++ t) = (spare most r s).bind fun r => spare most r t :=
  List.foldlM_append

/-- Only newlines take room. -/
theorem spare_plain (plain : 0x0a ∉ t) : spare most r t = some (if t.isEmpty then r else most + 1) := by
  induction t generalizing r with
  | nil => rfl
  | cons b t ih =>
    have other : b ≠ 0x0a := fun same => plain (same ▸ List.mem_cons_self)
    have later := ih (r := most + 1) fun inside => plain (List.mem_cons_of_mem b inside)
    simp only [spare, List.foldlM_cons, if_neg other] at later ⊢
    rw [Option.bind_eq_bind, Option.bind_some, later]
    simp

/-- Empty lines at the start of a text take up its room, and those after its first line the room that a text
makes. -/
theorem lines_spare (within : r ≤ most + 1) (filled : t ≠ []) (ended : t.getLast? ≠ some 0x0a)
    (enough : (spare most r t).isSome) :
    (∀ n, List.replicate n [] <+: t.lines → n ≤ r) ∧ ∀ n, List.replicate n [] <:+: t.lines.tail → n ≤ most := by
  induction t generalizing r with
  | nil => exact absurd rfl filled
  | cons b t ih =>
    by_cases newline : b = 0x0a
    · -- A newline ends an empty line, so the run at the start is one longer than that of the rest.
      subst newline
      have more : t ≠ [] := by
        rintro rfl
        exact ended rfl
      have last : t.getLast? ≠ some 0x0a := by
        rwa [List.getLast?_cons_of_ne_nil more] at ended
      cases r with
      | zero => cases enough
      | succ r =>
        obtain ⟨first, later⟩ := ih (r := r) (by omega) more last enough
        rw [lines_newline]
        constructor
        · intro n run
          cases n with
          | zero => exact Nat.zero_le _
          | succ n => exact Nat.succ_le_succ (first n (List.cons_prefix_cons.mp run).2)
        · intro n run
          obtain ⟨line, rest, split⟩ := List.exists_cons_of_ne_nil (splitOn_ne_nil 0x0a t)
          have lines : Text.lines t = line :: rest := split
          rw [List.tail_cons, lines] at run
          rcases List.infix_cons_iff.mp run with front | back
          · exact Nat.le_trans (first n (lines ▸ front)) (by omega)
          · exact later n (lines ▸ back)
    · -- Any other byte is on the first line: runs are in the lines after it, and those start with all the room.
      obtain ⟨line, rest, split⟩ := List.exists_cons_of_ne_nil (splitOn_ne_nil 0x0a t)
      have lines : Text.lines t = line :: rest := split
      rw [Blanks.lines_cons newline, lines]
      constructor
      · intro n run
        cases n with
        | zero => exact Nat.zero_le _
        | succ n => cases (List.cons_prefix_cons.mp run).1
      · intro n run
        by_cases more : t = []
        · subst more
          cases lines
          have none := List.infix_nil.mp run
          rw [List.replicate_eq_nil_iff] at none
          exact none ▸ Nat.zero_le _
        · rw [List.getLast?_cons_of_ne_nil more] at ended
          have kept : (spare most (most + 1) t).isSome := by
            simpa [spare, newline] using enough
          exact (ih (Nat.le_refl _) more ended kept).2 n (lines ▸ run)

theorem trimRight_ended (t : Text) : t.trimRight.getLast? ≠ some 0x0a := by
  intro ended
  obtain ⟨before, split⟩ := List.getLast?_eq_some_iff.mp ended
  have whole : t.glyphs = (t.glyphs.reverse.dropWhile Text.Glyph.isSpace).reverse ++
      (t.glyphs.reverse.takeWhile Text.Glyph.isSpace).reverse := by
    rw [← List.reverse_append, List.takeWhile_append_dropWhile, List.reverse_reverse]
  have kept : t.trimRight.glyphs = (t.glyphs.reverse.dropWhile Text.Glyph.isSpace).reverse :=
    (Text.Glyphs.glyphs_append whole).1
  rw [split, Text.glyphs_ascii (by decide)] at kept
  have last := congrArg (fun gs => gs.reverse.head?) kept
  rw [List.reverse_reverse, show Text.glyphs [] = [] from rfl, List.reverse_append, List.reverse_singleton] at last
  have shows := List.head?_dropWhile_not Text.Glyph.isSpace t.glyphs.reverse
  rw [← last] at shows
  have newline : Text.Glyph.isSpace ⟨0x0a, [0x0a]⟩ = false := shows
  exact absurd newline (by decide)

/-- What is trimmed has empty lines for which there was room. -/
theorem trimmed_bounded {pol : Policy} (enough : (spare (allowed pol) (allowed pol) t).isSome) :
    BlanksBounded (max 0 pol.maxBlankLines) t.trimRight := by
  intro filled n run
  obtain ⟨after, whole⟩ := Text.Glyphs.trimRight_start t
  have kept : (spare (allowed pol) (allowed pol) t.trimRight).isSome := by
    rw [whole, spare_append] at enough
    cases start : spare (allowed pol) (allowed pol) t.trimRight with
    | none =>
      rw [start] at enough
      cases enough
    | some r => rfl
  obtain ⟨first, later⟩ := lines_spare (Nat.le_succ _) filled (trimRight_ended t) kept
  obtain ⟨line, rest, split⟩ := List.exists_cons_of_ne_nil (splitOn_ne_nil 0x0a t.trimRight)
  have lines : t.trimRight.lines = line :: rest := split
  have few : n ≤ allowed pol := by
    rw [lines] at run first later
    rcases List.infix_cons_iff.mp run with front | back
    · exact first n front
    · exact later n back
  unfold allowed at few
  omega

end Texts

section Pages

variable {most r k : Nat} {c : Config Int} {page last : Page Int}

/-- The text of a page has at least the room that is counted. -/
def PageHasRoom (most r : Nat) (page : Page Int) : Prop :=
  r ≤ most + 1 ∧ ∃ k, r ≤ k ∧ spare most most page.sink.text = some k

variable {next : Page Int}

theorem holds_plain {r' : Nat} {t : Text} (holds : PageHasRoom most r page) (plain : 0x0a ∉ t)
    (text : next.sink.text = page.sink.text ++ t) (less : r' ≤ if t.isEmpty then r else most + 1) :
    PageHasRoom most r' next := by
  obtain ⟨within, k, enough, spared⟩ := holds
  have room : spare most most next.sink.text = some (if t.isEmpty then k else most + 1) := by
    rw [text, spare_append, spared, Option.bind_some, spare_plain plain]
  refine ⟨?_, _, ?_, room⟩
  · split at less <;> omega
  · split at less <;> rename_i void <;> simp only [void] <;> grind

theorem holds_quiet (holds : PageHasRoom most r page) (same : next.sink.text = page.sink.text)
    (less : k ≤ r) : PageHasRoom most k next :=
  holds_plain holds List.not_mem_nil (by rw [same, List.append_nil]) less

theorem holds_text {t : Text} {size : Int} (holds : PageHasRoom most r page) (plain : 0x0a ∉ t)
    (wrote : Wrote page (.text t) size next) : PageHasRoom most (if t.isEmpty then r else most + 1) next := by
  have blank : 0x0a ∉ page.sink.lead t := by
    intro inside
    rcases TextOrder.lead_blank inside with space | tab
    · cases space
    · cases tab
  have within := holds.1
  cases wrote
  refine holds_plain (t := page.sink.lead t ++ t) holds (by simp [blank, plain]) ?_ ?_
  · rw [TextOrder.text_write, List.append_assoc]
  · cases t with
    | nil => exact Nat.le_refl r
    | cons b t => simp

/-- A break takes room for one line, if it is taken. -/
theorem holds_break {b : Break Int} {size : Int} (bare : b.preBreak = [])
    (holds : PageHasRoom most (r + 1) page) (wrote : Wrote page (.lineBreak b) size next) :
    PageHasRoom most r next := by
  cases wrote with
  | flat => exact holds_quiet holds ((TextOrder.text_mark ..).trans (List.append_nil _)) (Nat.le_succ r)
  | taken =>
    obtain ⟨within, k, enough, spared⟩ := holds
    obtain ⟨k, rfl⟩ := Nat.exists_eq_add_of_le' (Nat.lt_of_lt_of_le (Nat.succ_pos r) enough)
    refine ⟨by omega, k, by omega, ?_⟩
    refine (congrArg (spare most most) (CommentPlacement.taken_text bare page.sink _)).trans ?_
    rw [spare_append, spared]
    rfl

/-- One call. -/
theorem holds_step {call : Call Int} {s : Standing} {size : Int} (holds : PageHasRoom most r page)
    (plain : CallVoices (0x0a ∉ ·) call) (wrote : Wrote page (tokenAt s call) size next)
    (after : roomAfter most r call = some k) : PageHasRoom most k next := by
  have quiet (m : Mark Int) (silent : m.spelling = []) (marked : next.sink = page.sink.mark m)
      (same : some r = some k) : PageHasRoom most k next := by
    refine holds_quiet holds ?_ (Nat.le_of_eq (Option.some.inj same).symm)
    rw [marked, TextOrder.text_mark, silent, List.append_nil]
  have broken {b : Break Int} (bare : b.preBreak = []) (spent : spend r = some k)
      (wrote : Wrote page (.lineBreak b) size next) : PageHasRoom most k next := by
    cases r with
    | zero => cases spent
    | succ r =>
      obtain rfl := Option.some.inj spent
      exact holds_break bare holds wrote
  cases call with
  | text t =>
    obtain rfl := Option.some.inj after
    exact holds_text holds plain wrote
  | lineBreak | hardBreak => exact broken rfl after wrote
  | trailingComma => cases after
  | groupStart breaks offset =>
    cases wrote with
    | fit => exact quiet (.start true) rfl rfl after
    | split => exact quiet (.start false) rfl rfl after
  | alignStart breaks =>
    cases wrote with
    | fit => exact quiet (.start true) rfl rfl after
    | split => exact quiet (.start false) rfl rfl after
  | groupEnd =>
    cases wrote
    exact quiet .stop rfl rfl after
  | indent delta =>
    cases wrote
    exact quiet (.shift delta) rfl rfl after
  | outdent =>
    cases wrote
    exact quiet _ rfl rfl after
  | emit | eof => cases after

/-- Calls one after the other. -/
theorem holds_run {calls : List (Call Int)} {s : Standing} (holds : PageHasRoom most r page)
    (single : TextsSingle calls) (written : TokensWritten c page (transcript s calls) last)
    (after : room most r calls = some k) : PageHasRoom most k last := by
  induction calls generalizing r s page with
  | nil =>
    cases written
    obtain rfl := Option.some.inj after
    exact holds
  | cons call calls ih =>
    cases written with
    | cons _ wrote rest =>
      simp only [room, List.foldlM_cons] at after
      cases step : roomAfter most r call with
      | none =>
        rw [step] at after
        cases after
      | some r' =>
        rw [step] at after
        have first := holds_step holds (single call List.mem_cons_self) wrote step
        exact ih first (fun call inside => single call (List.mem_cons_of_mem _ inside)) rest after

/-- Calls that find room are printed with no more empty lines than are allowed, whatever the margin. -/
theorem written_bounded {o : Options Int} {calls : List (Call Int)} {pol : Policy} {k : Nat} {out : Text}
    (single : TextsSingle calls) (found : room (allowed pol) (allowed pol) calls = some k)
    (written : Wraparound.WrittenAs o calls out) : BlanksBounded (max 0 pol.maxBlankLines) out := by
  have blank : PageHasRoom (allowed pol) (allowed pol) (Page.ofConfig o.config.withDefaults) :=
    ⟨Nat.le_succ _, _, Nat.le_refl _, rfl⟩
  obtain ⟨last, rfl, laid⟩ := written
  obtain ⟨-, m, -, spared⟩ := holds_run blank single laid found
  exact trimmed_bounded (by rw [spared]; rfl)

end Pages

/-- Calls that find room wherever they are asked for, and end in something that shows. -/
def CallsFindRoom (most : Nat) (calls : List (Call ι)) : Prop := ∀ r, room most r calls = some (most + 1)

/-- Calls that find room after something that shows, and end in it. -/
def CallsKeepRoom (most : Nat) (calls : List (Call ι)) : Prop := room most (most + 1) calls = some (most + 1)

section Calls

variable {most r : Nat} {xs ys : List (Call ι)} {o : Options ι}

theorem room_append : room most r (xs ++ ys) = (room most r xs).bind fun r => room most r ys :=
  List.foldlM_append

theorem room_cons (k : Call ι) : room most r (k :: xs) = (roomAfter most r k).bind fun r => room most r xs :=
  List.foldlM_cons

theorem firm_stays (firm : CallsFindRoom most xs) : CallsKeepRoom most xs := firm (most + 1)

theorem stays_append (first : CallsKeepRoom most xs) (later : CallsKeepRoom most ys) :
    CallsKeepRoom most (xs ++ ys) := by
  rw [CallsKeepRoom, room_append, first]
  exact later

theorem firm_append (first : CallsFindRoom most xs) (later : CallsKeepRoom most ys) :
    CallsFindRoom most (xs ++ ys) := by
  intro r
  rw [room_append, first r]
  exact later

theorem firm_cons {s : Text} (filled : s ≠ []) (later : CallsKeepRoom most xs) :
    CallsFindRoom most (.text s :: xs) := by
  intro r
  rw [room_cons, roomAfter, if_neg (by simpa using filled)]
  exact later

theorem firm_text {s : Text} (filled : s ≠ []) : CallsFindRoom most [(.text s : Call ι)] := firm_cons filled rfl

theorem stays_text (s : Text) : CallsKeepRoom most [(.text s : Call ι)] := by
  rw [CallsKeepRoom, room_cons, roomAfter, ite_self]
  rfl

/-- A break before something that shows. -/
theorem stays_break {width offset : ι} (later : CallsFindRoom most xs) :
    CallsKeepRoom most (.lineBreak width offset :: xs) :=
  later most

theorem firm_group {breaks : Breaks} {offset : ι} (inner : CallsFindRoom most xs) :
    CallsFindRoom most (.groupStart breaks offset :: xs ++ [.groupEnd]) :=
  firm_append inner rfl

end Calls

end Galley.Layout.LineRoom
