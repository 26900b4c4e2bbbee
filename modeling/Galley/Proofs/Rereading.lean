import Galley.Comment.Policy
import Galley.Comment.Scan
import Galley.Proofs.PlainLines
import Galley.Proofs.Wrapping

/-! Comments that are read from a source, printed and read again. What is read is legible: it is trimmed,
and begins with its marker. Wrapping keeps comments legible, and legible items that are written each on
its own line are read back as they are. -/
namespace Galley.Comment.Rereading
open Galley.Text Galley.Layout
open Galley.Text.Glyphs
open Wrapping

/-- An item as it is read: a blank line, or a marked line without white space around it. -/
inductive Legible (marker : Text) : Comment → Prop where
  | blank : Legible marker blankLine
  | line {text : Text} (trimmed : trim (marker ++ text) = marker ++ text) (single : 0x0a ∉ marker ++ text) :
      Legible marker (.line marker text)

/-- The comments at the start of a source are printed, and read again as the policy has them. -/
def Survive {ι : Type} [Columns ι] (c : Config ι) (pol : Policy) (marker src : Text) : Prop :=
  ∃ out, printCalls c (pol.calls (scan marker src).1) = .ok out ∧
    scan marker out = (pol.normalize (scan marker src).1, [])

variable {marker : Text} {c d : Comment}

section Reading

theorem legible_single (legible : Legible marker c) : 0x0a ∉ c.toText := by
  cases legible with
  | blank => exact List.not_mem_nil
  | line trimmed single => exact single

theorem ofLine?_legible {l : Text} (single : 0x0a ∉ l) (found : ofLine? marker l = some c) :
    Legible marker c ∧ c.toText = trim l := by
  unfold ofLine? at found
  dsimp only at found
  split at found
  · next starts =>
    obtain rfl := Option.some.inj found
    obtain ⟨text, split⟩ := List.isPrefixOf_iff_prefix.mp starts
    have rest : (trim l).drop marker.length = text := by rw [← split, List.drop_left]
    rw [rest]
    refine ⟨.line ?_ ?_, split⟩
    · rw [split, trim_trim]
    · rw [split]
      exact fun newline => single (mem_trim newline)
  · cases found

/-- What is read is legible, and no longer than its line. -/
theorem scanLines_legible {ls : List Text} (single : ∀ l ∈ ls, 0x0a ∉ l) (member : c ∈ (scanLines marker ls).1) :
    Legible marker c ∧ (c.toText = [] ∨ ∃ l ∈ ls, c.toText = trim l) := by
  induction ls with
  | nil => cases member
  | cons l ls ih =>
    have later := ih fun k inside => single k (List.mem_cons_of_mem l inside)
    have grown (found : c ∈ (scanLines marker ls).1) :
        Legible marker c ∧ (c.toText = [] ∨ ∃ k ∈ l :: ls, c.toText = trim k) := by
      obtain ⟨legible, origin⟩ := later found
      refine ⟨legible, origin.imp_right ?_⟩
      rintro ⟨k, inside, same⟩
      exact ⟨k, List.mem_cons_of_mem l inside, same⟩
    unfold scanLines at member
    split at member
    · split at member
      · cases member
      · rcases List.mem_cons.mp member with rfl | found
        · exact ⟨.blank, .inl rfl⟩
        · exact grown found
    · split at member
      · next item found =>
        rcases List.mem_cons.mp member with rfl | found'
        · obtain ⟨legible, same⟩ := ofLine?_legible (single l List.mem_cons_self) found
          exact ⟨legible, .inr ⟨l, List.mem_cons_self, same⟩⟩
        · exact grown found'
      · cases member

theorem scan_legible {src : Text} (member : c ∈ (scan marker src).1) :
    Legible marker c ∧ c.toText.length ≤ src.length := by
  have single : ∀ l ∈ src.lines, 0x0a ∉ l := fun l inside => (mem_lines inside).1
  obtain ⟨legible, origin⟩ := scanLines_legible single member
  refine ⟨legible, ?_⟩
  rcases origin with empty | ⟨l, inside, same⟩
  · rw [empty]
    exact Nat.zero_le _
  · have cut := length_trim l
    have short := (mem_lines inside).2
    rw [same]
    omega

/-- Legible items, each on its own line, are read as they are. -/
theorem scanLines_items (marked : marker ≠ []) {items : List Comment} (legible : ∀ c ∈ items, Legible marker c) :
    scanLines marker (items.map toText ++ [[]]) = (items, []) := by
  induction items with
  | nil => rfl
  | cons c items ih =>
    have later := ih fun d member => legible d (List.mem_cons_of_mem c member)
    cases legible c List.mem_cons_self with
    | blank =>
      have trimmed : trim (toText blankLine) = [] := rfl
      simp [scanLines, later, trimmed]
    | @line text trimmed single =>
      have filled : marker ++ text ≠ [] := by simp [marked]
      have shown : trim (toText (line marker text)) = marker ++ text := trimmed
      have found : ofLine? marker (toText (line marker text)) = some (line marker text) := by
        simp [ofLine?, shown, Text.startsWith]
      simp [scanLines, later, shown, found, filled]

theorem scan_items (marked : marker ≠ []) {items : List Comment} (legible : ∀ c ∈ items, Legible marker c) :
    scan marker (items.flatMap (·.toText ++ [0x0a])) = (items, []) := by
  have single : ∀ l ∈ items.map toText, 0x0a ∉ l := by
    intro l member
    obtain ⟨c, inside, rfl⟩ := List.mem_map.mp member
    exact legible_single (legible c inside)
  have split : lines (items.flatMap (·.toText ++ [0x0a])) = items.map toText ++ [[]] := by
    have ended := lines_ended single []
    rwa [List.append_nil, List.flatMap_map] at ended
  rw [scan, split, scanLines_items marked legible]
  rfl

end Reading

section Keeping

/-- The comments that a comment is wrapped into are legible, and hardly wider than it is long. -/
theorem wrap_legible (marked : marker ≠ []) (pol : Policy) (legible : Legible marker c) (shown : c.blank = false)
    (member : d ∈ pol.wrap c) : Legible marker d ∧ columns d.toText.codes ≤ c.toText.length + 1 := by
  cases legible with
  | blank => cases shown
  | @line text trimmed single =>
    unfold Policy.wrap at member
    dsimp only at member
    split at member
    · obtain rfl := List.mem_singleton.mp member
      refine ⟨.line trimmed single, ?_⟩
      have narrow := columns_codes (toText (line marker text))
      omega
    · next wrapped =>
      obtain ⟨l, inside, rfl⟩ := List.mem_map.mp member
      have filled : trim text ≠ [] := by
        intro empty
        apply wrapped
        simp [line, empty]
      have plain : 0x0a ∉ trim text := fun newline =>
        single (List.mem_append_right marker (mem_trim newline))
      obtain ⟨⟨code, read, visible⟩, unbroken, light⟩ := wrapText_lines _ plain filled (firm_trim text) inside
      have some : trim l ≠ [] := by
        intro empty
        have kept := mem_codes_trim read visible
        rw [empty] at kept
        cases kept
      have first := head_start (firm_of_trim trimmed).1
      refine ⟨.line ?_ ?_, ?_⟩
      · exact trim_of_firm (firm_spaced first marked (firm_trim l).2 some)
      · intro newline
        rcases List.mem_append.mp newline with early | late
        · exact single (List.mem_append_left text early)
        · rcases List.mem_cons.mp late with blank | inner
          · cases blank
          · exact unbroken (mem_trim inner)
      · have spelt : codes (marker ++ 0x20 :: trim l) = marker.codes ++ 0x20 :: (trim l).codes := by
          rw [codes, glyphs_ascii (by decide), List.map_append, List.map_cons]
          rfl
        have wide := calc
          columns (trim l).codes ≤ columns l.codes := columns_trim l
          _ ≤ columns (trim text).codes := light
          _ ≤ (trim text).length := columns_codes _
          _ ≤ text.length := length_trim text
        have front := columns_codes marker
        have blank : codeWidth 0x20 = 1 := by decide
        show columns (codes (marker ++ 0x20 :: trim l)) ≤ (marker ++ text).length + 1
        rw [spelt, columns_append, columns, blank, List.length_append]
        omega

/-- What a policy keeps are blank lines, and what comments are wrapped into. -/
theorem mem_normalizeAfter {pol : Policy} {run : Nat} {items : List Comment}
    (member : d ∈ pol.normalizeAfter run items) :
    ∃ c ∈ items, c.blank = true ∧ d = c ∨ c.blank = false ∧ d ∈ pol.wrap c := by
  induction items generalizing run with
  | nil => cases member
  | cons c items ih =>
    have later {n : Nat} (found : d ∈ pol.normalizeAfter n items) :
        ∃ e ∈ c :: items, e.blank = true ∧ d = e ∨ e.blank = false ∧ d ∈ pol.wrap e := by
      obtain ⟨e, inside, origin⟩ := ih found
      exact ⟨e, List.mem_cons_of_mem c inside, origin⟩
    unfold Policy.normalizeAfter at member
    by_cases blank : c.blank = true
    · rw [if_pos blank] at member
      dsimp only at member
      split at member
      · rcases List.mem_cons.mp member with rfl | found
        · exact ⟨d, List.mem_cons_self, .inl ⟨blank, rfl⟩⟩
        · exact later found
      · exact later member
    · rw [if_neg blank] at member
      rcases List.mem_append.mp member with wrapped | found
      · exact ⟨c, List.mem_cons_self, .inr ⟨by simpa using blank, wrapped⟩⟩
      · exact later found

theorem normalize_legible (marked : marker ≠ []) {pol : Policy} {items : List Comment}
    (legible : ∀ c ∈ items, Legible marker c) (member : d ∈ pol.normalize items) :
    Legible marker d ∧ ∃ c ∈ items, columns d.toText.codes ≤ c.toText.length + 1 := by
  obtain ⟨c, inside, origin⟩ := mem_normalizeAfter member
  rcases origin with ⟨blank, rfl⟩ | ⟨shown, wrapped⟩
  · have narrow := columns_codes d.toText
    exact ⟨legible d inside, d, inside, by omega⟩
  · obtain ⟨kept, narrow⟩ := wrap_legible marked pol (legible c inside) shown wrapped
    exact ⟨kept, c, inside, narrow⟩

theorem legible_filled (marked : marker ≠ []) (legible : Legible marker c) (shown : c.blank = false) :
    c.toText ≠ [] := by
  cases legible with
  | blank => cases shown
  | line => exact List.append_ne_nil_of_left_ne_nil marked _

end Keeping

section Printing

variable {ι : Type} [Columns ι]

/-- The columns that a configuration measures are no more than those of the characters. -/
theorem width_columns (c : Config ι) (t : Text) : ∃ n ≤ columns t.codes, c.width t = Columns.ofNat n := by
  unfold Config.width
  split
  · exact ⟨_, shownWidthOf_le false t.codes, rfl⟩
  · exact ⟨_, plainWidth_le t, rfl⟩

theorem survive_of_short (reckons : PlainLines.Reckons ι) {c : Config ι} {p : Printer ι}
    (accepted : Printer.ofConfig c = .ok p) (marked : marker ≠ []) (pol : Policy) (src : Text)
    (short : ∀ n ≤ src.length + 1, PlainLines.BreakTooWide (c.withDefaults.margin - Columns.ofNat n)) :
    Survive c pol marker src := by
  have legible (d : Comment) (member : d ∈ pol.normalize (scan marker src).1) :
      Legible marker d ∧ columns d.toText.codes ≤ src.length + 1 := by
    obtain ⟨kept, c, inside, narrow⟩ := normalize_legible marked (fun c inside => (scan_legible inside).1) member
    have length := (scan_legible inside).2
    exact ⟨kept, by omega⟩
  have empty := short 0 (Nat.zero_le _)
  rw [reckons.none, reckons.flush] at empty
  refine ⟨_, PlainLines.printed_lines reckons accepted empty ?_, ?_⟩
  · intro d member shown
    obtain ⟨readable, narrow⟩ := legible d member
    refine ⟨legible_filled marked readable shown, ?_⟩
    obtain ⟨n, small, width⟩ := width_columns c.withDefaults d.toText
    rw [width]
    exact short n (by omega)
  · exact scan_items marked fun d member => (legible d member).1

end Printing

/-- Comments survive printing and reading. Whatever the source, the marker and the policy are, the comments
at the start of the source are printed under any configuration that is accepted, and reading the output
gives what the policy makes of them and nothing else. Machine words make no difference for a source whose
length is a word. -/
theorem comments_survive (marker src : Text) (pol : Policy) (marked : marker ≠ []) :
    (∀ (c : Config Int) (p : Printer Int), Printer.ofConfig c = .ok p → Survive c pol marker src) ∧
      (src.length < 9223372036854775808 →
        ∀ (c : Config Int64) (p : Printer Int64), Printer.ofConfig c = .ok p → Survive c pol marker src) := by
  constructor
  · intro c p accepted
    obtain ⟨-, -, narrow⟩ := PlainLines.ofConfig_clear accepted
    apply survive_of_short PlainLines.reckons_int accepted marked
    intro n small
    exact PlainLines.short_int narrow n
  · intro fits c p accepted
    obtain ⟨-, positive, narrow⟩ := PlainLines.ofConfig_clear accepted
    apply survive_of_short PlainLines.reckons_word accepted marked
    intro n small
    exact PlainLines.short_word positive narrow (by omega)

/-- A long comment after an indented one, with too many blank lines between them. -/
theorem comments_survive_wrapped :
    let src := Text.ofLines ["  -- a", "", "", "--one two-three four", "x"]
    ("--" : Text) ≠ [] ∧
      (Policy.mk 1 12).normalize (scan "--" src).1 =
        [.line "--" " a", blankLine, .line "--" " one two-", .line "--" " three", .line "--" " four"] ∧
      Survive (ι := Int64) Config.standard ⟨1, 12⟩ "--" src := by
  intro src
  have marked : ("--" : Text) ≠ [] := by decide +kernel
  refine ⟨marked, by decide +kernel, ?_⟩
  exact (comments_survive "--" src ⟨1, 12⟩ marked).2 (by decide +kernel) Config.standard _ rfl

end Galley.Comment.Rereading
