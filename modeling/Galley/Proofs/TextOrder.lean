import Galley.Proofs.Rendering

/-! What a render does with the texts of a document: all of them are written, in order and whole. What
stands between two of them is made of blanks and of the breaks that lie between them. -/
namespace Galley.Layout.TextOrder
open Extent PageWriting Rendering

/-- The texts of a document that are not empty, in order. -/
def texts : List (Token Int) → List Text
  | [] => []
  | .text s :: ts => if s.isEmpty then texts ts else s :: texts ts
  | _ :: ts => texts ts

/-- The breaks before, between and after the texts that are not empty. -/
def gaps : List (Token Int) → List (List (Break Int))
  | [] => [[]]
  | .text s :: ts => if s.isEmpty then gaps ts else [] :: gaps ts
  | .lineBreak b :: ts => (gaps ts).modifyHead (b :: ·)
  | _ :: ts => gaps ts

/-- Texts with separators before, between and after them. -/
def interleave : List Text → List Text → Text
  | [], _ => []
  | sep :: _, [] => sep
  | sep :: seps, s :: ts => sep ++ s ++ interleave seps ts

/-- A separator that breaks can leave: spaces and tabs anywhere, and each break in its turn either
nothing or its own text with a newline right after it. -/
inductive Separates : List (Break Int) → Text → Prop where
  | nil : Separates [] []
  | blank {gap : List (Break Int)} {sep : Text} {byte : UInt8} (blank : byte = 0x20 ∨ byte = 0x09)
      (rest : Separates gap sep) : Separates gap (byte :: sep)
  | flat {gap : List (Break Int)} {sep : Text} (b : Break Int) (rest : Separates gap sep) :
      Separates (b :: gap) sep
  | taken {gap : List (Break Int)} {sep : Text} (b : Break Int) (rest : Separates gap sep) :
      Separates (b :: gap) (b.preBreak ++ 0x0a :: sep)

/-- Nothing is owed before the next text. -/
def NothingOwed (sink : Sink Int) : Prop := sink.indent = 0 ∧ sink.blank = 0

section Leads

variable {sink : Sink Int} {s : Text}

theorem text_mark {ι : Type} [Columns ι] (sink : Sink ι) (m : Mark ι) :
    (sink.mark m).text = sink.text ++ m.spelling := by
  simp [Sink.text]

private theorem mem_spaces {n : Nat} {byte : UInt8} (member : byte ∈ Text.spaces n) : byte = 0x20 :=
  List.eq_of_mem_replicate member

/-- What is owed is spaces and tabs. -/
theorem lead_blank {ι : Type} [Columns ι] {sink : Sink ι} {byte : UInt8} (member : byte ∈ sink.lead s) :
    byte = 0x20 ∨ byte = 0x09 := by
  unfold Sink.lead Sink.indentation at member
  split at member
  · cases member
  · split at member
    · exact .inl (mem_spaces member)
    · split at member
      · simp only [List.mem_append] at member
        rcases member with (tab | space) | space
        · exact .inr (List.eq_of_mem_replicate tab)
        · exact .inl (mem_spaces space)
        · exact .inl (mem_spaces space)
      · rcases List.mem_append.mp member with space | space
        · exact .inl (mem_spaces space)
        · exact .inl (mem_spaces space)

theorem lead_settled (settled : NothingOwed sink) : sink.lead s = [] := by
  obtain ⟨indent, blank⟩ := settled
  have zero : Columns.toNat (0 : Int) = 0 := rfl
  simp [Sink.lead, Sink.indentation, indent, blank, zero, Text.spaces]

/-- Text settles what was owed. -/
theorem write_settled (size : Int) (indent : 0 ≤ sink.indent) (blank : 0 ≤ sink.blank)
    (filled : s.isEmpty = false) : NothingOwed (sink.write s size) := by
  constructor
  · simp only [Sink.write, filled]
    simp
    omega
  · simp only [Sink.write, filled]
    simp
    omega

theorem text_write {ι : Type} [Columns ι] (sink : Sink ι) (s : Text) (size : ι) :
    (sink.write s size).text = sink.text ++ sink.lead s ++ s := by
  cases s with
  | nil | cons => simp [Sink.write, Sink.text, Mark.spelling]

theorem separates_blanks {lead sep : Text} {gap : List (Break Int)}
    (blank : ∀ byte ∈ lead, byte = 0x20 ∨ byte = 0x09) (rest : Separates gap sep) :
    Separates gap (lead ++ sep) := by
  induction lead with
  | nil => exact rest
  | cons byte lead ih =>
    exact .blank (blank byte (by simp)) (ih fun other member => blank other (by simp [member]))

end Leads

/-- A separator as its breaks leave it. Without a break it is empty. -/
def GapParts (gap : List (Break Int)) (sep : Text) : Prop := Separates gap sep ∧ (gap = [] → sep = [])

/-- The output goes on from a sink with the texts of the tokens, each gap between them spelled out. What
the sink owes belongs to the first separator. -/
def SinkSpells (sink : Sink Int) (ts : List (Token Int)) (out : Text) : Prop :=
  ∃ gap later first rest, gaps ts = gap :: later ∧
    out = sink.text ++ interleave (first :: rest) (texts ts) ∧
    Separates gap first ∧ (gap = [] → NothingOwed sink → first = []) ∧ List.Forall₂ GapParts later rest

section Step

variable {page after : Page Int} {t : Token Int} {ts : List (Token Int)} {size : Int} {out : Text}

private theorem interleave_append (lead first : Text) (rest ts : List Text) :
    interleave ((lead ++ first) :: rest) ts = lead ++ interleave (first :: rest) ts := by
  cases ts <;> simp [interleave]

/-- A token without text that writes nothing leaves the output as it is. -/
private theorem spells_quiet {m : Mark Int} (silent : m.spelling = []) (same : texts (t :: ts) = texts ts)
    (still : gaps (t :: ts) = gaps ts) (spells : SinkSpells (page.sink.mark m) ts out) :
    SinkSpells page.sink (t :: ts) out := by
  obtain ⟨gap, later, first, rest, split, spelled, separates, settled, parts⟩ := spells
  rw [text_mark, silent, List.append_nil] at spelled
  exact ⟨gap, later, first, rest, still ▸ split, same ▸ spelled, separates, settled, parts⟩

private theorem spells_text {s : Text} (indent : 0 ≤ page.sink.indent) (blank : 0 ≤ page.sink.blank)
    (spells : SinkSpells (page.sink.write s size) ts out) : SinkSpells page.sink (.text s :: ts) out := by
  obtain ⟨gap, later, first, rest, split, spelled, separates, settled, parts⟩ := spells
  rw [text_write] at spelled
  cases void : s.isEmpty with
  | true =>
    obtain rfl := List.isEmpty_iff.mp void
    refine ⟨gap, later, first, rest, split, ?_, separates, settled, parts⟩
    simpa [Sink.lead, texts] using spelled
  | false =>
    -- The text ends the first gap. What follows it starts a separator with nothing owed.
    have owed := write_settled size indent blank void
    refine ⟨[], gap :: later, page.sink.lead s, first :: rest, ?_, ?_, ?_, ?_, .cons ?_ parts⟩
    · simp [gaps, void, split]
    · simp [texts, void, interleave, spelled]
    · simpa using separates_blanks (fun _ => lead_blank) Separates.nil
    · intro _ owes
      exact lead_settled owes
    · exact ⟨separates, fun none => settled none owed⟩

private theorem spells_flat {b : Break Int} (spells : SinkSpells (page.sink.owe b.blank) ts out) :
    SinkSpells page.sink (.lineBreak b :: ts) out := by
  obtain ⟨gap, later, first, rest, split, spelled, separates, _, parts⟩ := spells
  refine ⟨b :: gap, later, first, rest, by simp [gaps, split], ?_, .flat b separates, by simp, parts⟩
  simpa [Sink.owe, Sink.text, Mark.spelling, texts] using spelled

private theorem spells_taken {b : Break Int} {lead : Text} {sink : Sink Int} {indent : Int}
    (blank : ∀ byte ∈ lead, byte = 0x20 ∨ byte = 0x09)
    (marks : sink.marks = .taken lead b.preBreak indent :: page.sink.marks) (spells : SinkSpells sink ts out) :
    SinkSpells page.sink (.lineBreak b :: ts) out := by
  obtain ⟨gap, later, first, rest, split, spelled, separates, _, parts⟩ := spells
  refine ⟨b :: gap, later, lead ++ (b.preBreak ++ 0x0a :: first), rest, by simp [gaps, split], ?_,
    separates_blanks blank (.taken b separates), by simp, parts⟩
  have cut : lead ++ (b.preBreak ++ 0x0a :: first) = (lead ++ b.preBreak ++ [0x0a]) ++ first := by simp
  have written : sink.text = page.sink.text ++ (lead ++ b.preBreak ++ [0x0a]) := by
    simp [Sink.text, marks, Mark.spelling]
  rw [cut, interleave_append, spelled, written, List.append_assoc]
  rfl

/-- A token puts its part in front of what the tokens after it spell. -/
theorem spells_step {c : Config Int} (grounded : PageGrounded c page) (wrote : Wrote page t size after)
    (spells : SinkSpells after.sink ts out) : SinkSpells page.sink (t :: ts) out := by
  cases wrote with
  | text s => exact spells_text grounded.indent grounded.blank spells
  | flat => exact spells_flat spells
  | taken => exact spells_taken (fun _ => lead_blank) rfl spells
  | fit | split | stop | shift => exact spells_quiet rfl rfl rfl spells
  | missing => exact spells

end Step

theorem lays_spells {c : Config Int} {page final : Page Int} {ts : List (Token Int)}
    (lays : TokensLaid c page ts final) : SinkSpells page.sink ts final.sink.text := by
  induction ts generalizing page with
  | nil =>
    cases lays.laid
    exact ⟨[], [], [], [], rfl, by simp [interleave, texts], .nil, fun _ _ => rfl, .nil⟩
  | cons t ts ih =>
    obtain ⟨after, wrote, later⟩ := lays_cons lays
    exact spells_step lays.grounded wrote (ih later)

theorem gaps_length (ts : List (Token Int)) : (gaps ts).length = (texts ts).length + 1 := by
  induction ts with
  | nil => rfl
  | cons t ts ih =>
    cases t with
    | text s => cases void : s.isEmpty <;> simp [gaps, texts, void, ih]
    | lineBreak b => simpa [gaps, texts] using ih
    | groupStart | groupEnd | indent | missing => exact ih

/-- The output of a render is the texts of its document, whole and in order, with separators that
hold only spaces, tabs and the taken breaks that lie there; where no break lies there is nothing. -/
theorem rendered_texts_in_order (c : Config Int) (ts : List (Token Int)) (out : Text)
    (rendered : render c ts = .ok out) :
    ∃ seps, seps.length = (texts ts).length + 1 ∧ out = interleave seps (texts ts) ∧
      List.Forall₂ (fun gap sep => Separates gap sep ∧ (gap = [] → sep = [])) (gaps ts) seps := by
  obtain ⟨p, printed, rfl⟩ := render_ok rendered
  obtain ⟨gap, later, first, rest, split, spelled, separates, settled, parts⟩ :=
    lays_spells (print_lays printed)
  have all : List.Forall₂ GapParts (gaps ts) (first :: rest) := by
    rw [split]
    exact .cons ⟨separates, fun none => settled none ⟨rfl, rfl⟩⟩ parts
  refine ⟨first :: rest, ?_, spelled, all⟩
  rw [← all.length_eq, gaps_length]

theorem rendered_texts_in_order_comma :
    ∃ seps : List Text, seps.length = 4 ∧ ("[\n  a,\n]" : Text) = interleave seps ["[", "a", "]"] ∧
      List.Forall₂ (fun gap sep => Separates gap sep ∧ (gap = [] → sep = []))
        [[], [⟨.zero, 0, 0, []⟩], [⟨.zero, 0, 0, ","⟩], []] seps :=
  rendered_texts_in_order ⟨1, 4, false, false⟩
    [.groupStart ⟨.consistent, 0, false⟩, .text "[", .indent 2, .lineBreak ⟨.zero, 0, 0, []⟩, .text "a",
      .indent (-2), .lineBreak ⟨.zero, 0, 0, ","⟩, .text "]", .groupEnd] _ (by decide +kernel)

end Galley.Layout.TextOrder
