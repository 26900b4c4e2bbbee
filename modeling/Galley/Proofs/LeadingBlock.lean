import Galley.Comment.Scan
import Galley.Proofs.SourceLoop
import Galley.Proofs.Wrapping
import Mathlib.Data.List.Forall2

/-! The comments at the start of a source. They are lines that are blank or begin with the marker, up to the
first line that is neither, and each of them is read as one item. Main statement: a scan finds these lines, no
more and no fewer, and what a statement finds on the rest of its own line is what a scan would find there. -/
namespace Galley.Comment.LeadingBlock
open Galley.Text
open Wrapping (lines_append lines_plain)
open Galley.Layout.SourceLoop (join_lines)

/-- What a line is read as: a blank line, or a comment whose marker and text are the line without the white
space around it. -/
inductive ReadAs (marker line : Text) : Comment → Prop where
  | blank (bare : trim line = []) : ReadAs marker line blankLine
  | comment {text : Text} (shown : trim line ≠ []) (whole : marker ++ text = trim line) :
      ReadAs marker line (.line marker text)

/-- A line that is neither blank nor a comment. -/
def Foreign (marker line : Text) : Prop := trim line ≠ [] ∧ ¬ marker <+: trim line

/-- A source that begins with some lines, all ended but the last, which are read as some items. The rest of it
is empty or begins with another kind of line. A last line of white space alone is no line. -/
structure Block (marker src : Text) (items : List Comment) (rest : Text) (ended : List Text) (last : Text) :
    Prop where
  whole : src = ended.flatMap (· ++ [0x0a]) ++ last ++ rest
  single : ∀ l ∈ last :: ended, 0x0a ∉ l
  final : last = [] ∨ rest = []
  stops : rest = [] ∨ Foreign marker rest.cutLine.1
  read : List.Forall₂ (ReadAs marker) (ended ++ if trim last = [] then [] else [last]) items

variable {marker l u src : Text} {c : Comment}

section Lines

/-- A text has one line, or a first line and others after it. -/
theorem lines_induction {P : Text → Prop} (one : ∀ l, 0x0a ∉ l → P l)
    (more : ∀ l u, 0x0a ∉ l → P u → P (l ++ 0x0a :: u)) (t : Text) : P t := by
  by_cases ended : 0x0a ∈ t
  · obtain ⟨l, u, split, plain⟩ := List.eq_append_cons_of_mem ended
    rw [split]
    exact more l u plain (lines_induction one more u)
  · exact one t ended
termination_by t.length
decreasing_by
  rw [split, List.length_append, List.length_cons]
  omega

private theorem takeWhile_plain (plain : 0x0a ∉ l) (rest : Text) :
    (l ++ rest).takeWhile (· ≠ 0x0a) = l ++ rest.takeWhile (· ≠ 0x0a) ∧
      (l ++ rest).dropWhile (· ≠ 0x0a) = rest.dropWhile (· ≠ 0x0a) := by
  have other : ∀ b ∈ l, decide (b ≠ 0x0a) = true := by
    intro b inside
    exact decide_eq_true fun same => plain (same ▸ inside)
  exact ⟨List.takeWhile_append_of_pos other, List.dropWhile_append_of_pos other⟩

theorem cutLine_plain (plain : 0x0a ∉ l) : l.cutLine = (l, []) := by
  obtain ⟨taken, left⟩ := takeWhile_plain plain []
  rw [List.append_nil] at taken left
  rw [cutLine, taken, left]
  exact congrArg (·, []) (List.append_nil l)

theorem cutLine_append (plain : 0x0a ∉ l) (u : Text) : cutLine (l ++ 0x0a :: u) = (l, u) := by
  obtain ⟨taken, left⟩ := takeWhile_plain plain (0x0a :: u)
  rw [cutLine, taken, left]
  exact congrArg (·, u) (List.append_nil l)

end Lines

section Reading

theorem ofLine?_iff : ofLine? marker l = some c ↔ ∃ text, marker ++ text = trim l ∧ c = .line marker text := by
  unfold ofLine?
  dsimp only
  constructor
  · intro found
    split at found
    · next starts =>
      obtain ⟨text, whole⟩ := List.isPrefixOf_iff_prefix.mp starts
      refine ⟨text, whole, ?_⟩
      rw [← whole, List.drop_left] at found
      exact (Option.some.inj found).symm
    · cases found
  · rintro ⟨text, whole, rfl⟩
    have starts : (trim l).startsWith marker = true :=
      List.isPrefixOf_iff_prefix.mpr ⟨text, whole⟩
    rw [if_pos starts, ← whole, List.drop_left]

theorem ofLine?_none : ofLine? marker l = none ↔ ¬ marker <+: trim l := by
  unfold ofLine?
  dsimp only
  rw [startsWith]
  by_cases starts : marker.isPrefixOf (trim l) = true
  · simp [starts, List.isPrefixOf_iff_prefix.mp starts]
  · simp [starts, mt List.isPrefixOf_iff_prefix.mpr starts]

/-- A line is of one kind or the other. -/
theorem read_or_foreign (marker l : Text) : (∃ c, ReadAs marker l c) ∨ Foreign marker l := by
  by_cases bare : trim l = []
  · exact .inl ⟨_, .blank bare⟩
  · by_cases starts : marker <+: trim l
    · obtain ⟨text, whole⟩ := starts
      exact .inl ⟨_, .comment bare whole⟩
    · exact .inr ⟨bare, starts⟩

/-- The first line is read, and the scan goes on with the next. -/
theorem scan_read (plain : 0x0a ∉ l) (read : ReadAs marker l c) (u : Text) :
    scan marker (l ++ 0x0a :: u) = (c :: (scan marker u).1, (scan marker u).2) := by
  rw [scan, lines_append plain, scanLines]
  have more : (lines u).isEmpty = false := by
    rw [List.isEmpty_eq_false_iff]
    exact Wrapping.splitOn_ne_nil 0x0a u
  cases read with
  | blank bare => simp [bare, more, scan]
  | comment shown whole =>
    have found := ofLine?_iff.mpr ⟨_, whole, rfl⟩
    simp [shown, found, scan]

/-- A line without a newline ends the source. -/
theorem scan_last {items : List Comment} (plain : 0x0a ∉ l)
    (read : List.Forall₂ (ReadAs marker) (if trim l = [] then [] else [l]) items) :
    scan marker l = (items, []) := by
  rw [scan, lines_plain plain, scanLines]
  by_cases bare : trim l = []
  · rw [if_pos bare] at read
    cases read
    simp [bare, join]
  · rw [if_neg bare] at read
    cases read with
    | cons first none =>
      cases none
      cases first with
      | blank empty => exact absurd empty bare
      | comment shown whole =>
        have found := ofLine?_iff.mpr ⟨_, whole, rfl⟩
        simp [shown, found, scanLines, join]

/-- The scan stops at a line of another kind. -/
theorem scan_foreign (foreign : Foreign marker src.cutLine.1) : scan marker src = ([], src) := by
  have stops (first : Text) (rest : List Text) (split : src.lines = first :: rest)
      (other : Foreign marker first) : scan marker src = ([], src) := by
    have whole := join_lines src
    rw [split] at whole
    rw [scan, split, scanLines]
    simp [other.1, ofLine?_none.mpr other.2, whole]
  induction src using lines_induction with
  | one l plain =>
    rw [cutLine_plain plain] at foreign
    exact stops l [] (lines_plain plain) foreign
  | more l u plain _ =>
    rw [cutLine_append plain] at foreign
    exact stops l u.lines (lines_append plain u) foreign

end Reading

section Blocks

variable {items : List Comment} {rest last : Text} {ended : List Text}

/-- Every source has such a block, and the scan finds it. -/
theorem scan_block (marker src : Text) :
    ∃ ended last, Block marker src (scan marker src).1 (scan marker src).2 ended last := by
  have foreign {t : Text} (other : Foreign marker t.cutLine.1) : Block marker t [] t [] [] :=
    ⟨rfl, by simp, .inl rfl, .inr other, .nil⟩
  induction src using lines_induction with
  | one l plain =>
    rcases read_or_foreign marker l with ⟨c, read⟩ | other
    · have items : List.Forall₂ (ReadAs marker) (if trim l = [] then [] else [l])
          (if trim l = [] then [] else [c]) := by
        split
        · exact .nil
        · exact .cons read .nil
      rw [scan_last plain items]
      exact ⟨[], l, by simp, by simpa using plain, .inr rfl, .inl rfl, items⟩
    · have here : Foreign marker (cutLine l).1 := by rwa [cutLine_plain plain]
      rw [scan_foreign here]
      exact ⟨[], [], foreign here⟩
  | more l u plain ih =>
    rcases read_or_foreign marker l with ⟨c, read⟩ | other
    · obtain ⟨ended, last, block⟩ := ih
      rw [scan_read plain read]
      refine ⟨l :: ended, last, ?_, ?_, block.final, block.stops, .cons read block.read⟩
      · conv => lhs; rw [block.whole]
        simp
      · intro k member
        rcases List.mem_cons.mp member with rfl | later
        · exact block.single k List.mem_cons_self
        · rcases List.mem_cons.mp later with rfl | other
          · exact plain
          · exact block.single k (List.mem_cons_of_mem last other)
    · have here : Foreign marker (cutLine (l ++ 0x0a :: u)).1 := by rwa [cutLine_append plain]
      rw [scan_foreign here]
      exact ⟨[], [], foreign here⟩

/-- A source has no other block than the one that is found. -/
theorem block_unique (block : Block marker src items rest ended last) : scan marker src = (items, rest) := by
  induction ended generalizing src items with
  | nil =>
    obtain ⟨whole, single, final, stops, read⟩ := block
    rcases final with rfl | rfl
    · cases read
      obtain rfl : src = rest := whole
      rcases stops with rfl | other
      · exact scan_last List.not_mem_nil .nil
      · exact scan_foreign other
    · obtain rfl : src = last := by simpa using whole
      exact scan_last (single src List.mem_cons_self) read
  | cons l ended ih =>
    obtain ⟨whole, single, final, stops, read⟩ := block
    cases read with
    | @cons _ c _ items first later =>
      have shorter : Block marker (ended.flatMap (· ++ [0x0a]) ++ last ++ rest) items rest ended last :=
        ⟨rfl, fun k member => single k (by grind), final, stops, later⟩
      have tail := ih shorter
      have split : src = l ++ 0x0a :: (ended.flatMap (· ++ [0x0a]) ++ last ++ rest) := by simp [whole]
      rw [split, scan_read (single l (by simp)) first, tail]

/-- A comment is split off exactly where the first line is one. -/
theorem splitTrailing_iff :
    splitTrailing marker src = (some c, rest) ↔
      ReadAs marker src.cutLine.1 c ∧ c.blank = false ∧ rest = src.cutLine.2 := by
  unfold splitTrailing
  dsimp only
  by_cases bare : trim src.cutLine.1 = []
  · rw [if_pos (by simp [bare])]
    constructor
    · intro found
      cases found
    · rintro ⟨read, shown, -⟩
      cases read with
      | blank => cases shown
      | comment filled => exact absurd bare filled
  · rw [if_neg (by simpa using bare)]
    constructor
    · intro found
      split at found
      · next item taken =>
        obtain ⟨text, whole, rfl⟩ := ofLine?_iff.mp taken
        cases found
        exact ⟨.comment bare whole, rfl, rfl⟩
      · cases found
    · rintro ⟨read, shown, rfl⟩
      cases read with
      | blank => cases shown
      | comment _ whole => rw [ofLine?_iff.mpr ⟨_, whole, rfl⟩]

theorem scan_splitTrailing (split : splitTrailing marker src = (some c, rest)) :
    scan marker src = (c :: (scan marker rest).1, (scan marker rest).2) := by
  obtain ⟨read, shown, rfl⟩ := splitTrailing_iff.mp split
  induction src using lines_induction with
  | one l plain =>
    rw [cutLine_plain plain] at read ⊢
    have items : List.Forall₂ (ReadAs marker) (if trim l = [] then [] else [l]) [c] := by
      cases read with
      | blank => cases shown
      | comment filled whole =>
        rw [if_neg filled]
        exact .cons (.comment filled whole) .nil
    rw [scan_last plain items]
    rfl
  | more l u plain _ =>
    rw [cutLine_append plain] at read ⊢
    exact scan_read plain read u

end Blocks

/-- A scan reads exactly the comments and blank lines at the start of a source: the source is made of the lines
that are read, item by item, and of a rest that is empty or begins with a line of another kind, and there is no
other way to divide it so. Where the first line is a comment, splitting it off and scanning what follows gives
the same as scanning all at once. -/
theorem scan_reads_leading_block (marker src : Text) :
    (∃ ended last, Block marker src (scan marker src).1 (scan marker src).2 ended last) ∧
    (∀ items rest ended last, Block marker src items rest ended last → scan marker src = (items, rest)) ∧
    (∀ c rest, splitTrailing marker src = (some c, rest) ↔
      ReadAs marker src.cutLine.1 c ∧ c.blank = false ∧ rest = src.cutLine.2) ∧
    (∀ c rest, splitTrailing marker src = (some c, rest) →
      scan marker src = (c :: (scan marker rest).1, (scan marker rest).2)) :=
  ⟨scan_block marker src, fun _ _ _ _ block => block_unique block, fun _ _ => splitTrailing_iff,
    fun _ _ split => scan_splitTrailing split⟩

/-- A comment, a line of white space, an indented comment and a statement; and a comment before white space that
no newline ends. -/
theorem scan_reads_leading_block_indented :
    let src := Text.ofLines ["-- a", "  ", "  --b ", "x", "-- c"]
    let first := Text.ofLines ["  ", "  --b ", "x", "-- c"]
    scan "--" src = ([.line "--" " a", blankLine, .line "--" "b"], Text.ofLines ["x", "-- c"]) ∧
      scan "--" (Text.ofLines ["-- a", "  "]) = ([.line "--" " a"], []) ∧
      splitTrailing "--" src = (some (.line "--" " a"), first) ∧
      scan "--" src = (.line "--" " a" :: (scan "--" first).1, (scan "--" first).2) := by
  intro src first
  have split : splitTrailing "--" src = (some (.line "--" " a"), first) := by decide +kernel
  exact ⟨by decide +kernel, by decide +kernel, split, (scan_reads_leading_block "--" src).2.2.2 _ _ split⟩

end Galley.Comment.LeadingBlock
