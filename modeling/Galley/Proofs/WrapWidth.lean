import Galley.Proofs.Rewrapping

/-! How wide wrapped comments are. A word is measured anew with each of its characters, white space by its bytes,
which are never fewer than its columns. A line of a wrapped text is left alone by the same wrap, so its width is
settled by a wrap that takes this line only. Main statement: a wrapped comment keeps to the width that is asked
for, unless its last word is as wide as a line all by itself. -/
namespace Galley.Comment.WrapWidth
open Galley.Text
open Galley.Text.Glyphs
open Wrapping (text_cons splitOn_ne_nil WordOverflows step_reads)
open Normalizing (addWord_empty addWord_filled scalar_space)
open Rewrapping

/-- The last word of some characters. White space after it does not count. -/
def lastWord (cs : List Nat) : List Nat :=
  ((cs.reverse.dropWhile isSpace).takeWhile fun c => !isSpace c).reverse

/-- A character without a meaning of its own for a wrap, white space apart. -/
structure Ordinary (c : Nat) : Prop where
  single : c ≠ 0x0a
  calm : c ≠ escape
  whole : c ≠ 0x2d

/-- Where a wrap stands that has not ended a line yet: these characters are written. -/
structure WrapMeasured (limit : Nat) (cs : List Nat) (w : Wrap) (line : List Nat) : Prop where
  read : cs = line ++ w.space ++ w.word
  calm : w.escaped = false
  column : columns line ≤ w.column
  space : ∀ c ∈ w.space, isSpace c = true
  word : ∀ c ∈ w.word, Ordinary c ∧ isSpace c = false
  apart : line = [] ∨ w.space ≠ []
  /-- A word that is too wide for the rest of the line would be too wide for any. -/
  held : w.word = [] ∨ w.column + w.spaceLength + columns w.word ≤ limit ∨ limit ≤ columns w.word

variable {limit c : Nat} {cs ds line : List Nat} {w : Wrap}

section Measures

theorem shownWidthOf_calm (calm : escape ∉ cs) : shownWidthOf false cs = columns cs := by
  induction cs with
  | nil => rfl
  | cons c cs ih =>
    have other : ¬ (c == escape) = true := by
      rw [beq_iff_eq]
      exact fun same => calm (same ▸ List.mem_cons_self)
    rw [shownWidthOf, if_neg other, if_neg Bool.false_ne_true, ih fun member => calm (List.mem_cons_of_mem c member)]
    rfl

/-- White space has at least as many bytes as columns. -/
theorem columns_spaces (space : ∀ c ∈ cs, isSpace c = true) : columns cs ≤ (ofCodes cs).length := by
  have kept : cs.map scalar = cs := by
    rw [List.map_congr_left fun c member => scalar_space (space c member), List.map_id']
  have bytes := columns_codes (ofCodes cs)
  rwa [codes_ofCodes, kept] at bytes

theorem wordWidth_eq (ordinary : ∀ c ∈ w.word, Ordinary c ∧ isSpace c = false) : w.wordWidth = columns w.word :=
  shownWidthOf_calm fun member => (ordinary _ member).1.calm rfl

/-- A word after white space is the last one. -/
theorem lastWord_append (filled : ds ≠ []) (visible : ∀ c ∈ ds, isSpace c = false)
    (apart : ∀ c ∈ cs.getLast?, isSpace c = true) : lastWord (cs ++ ds) = ds := by
  have first : ∀ c ∈ ds.reverse, (!isSpace c) = true := by
    intro c member
    rw [visible c (List.mem_reverse.mp member)]
    rfl
  have kept : (ds.reverse ++ cs.reverse).dropWhile isSpace = ds.reverse ++ cs.reverse := by
    obtain ⟨d, ds', reversed⟩ := List.exists_cons_of_ne_nil (mt List.reverse_eq_nil_iff.mp filled)
    have seen := first d (by rw [reversed]; exact List.mem_cons_self)
    rw [reversed, List.cons_append, List.dropWhile_cons_of_neg (by simpa using seen)]
  have stops : cs.reverse.takeWhile (fun c => !isSpace c) = [] := by
    cases reversed : cs.reverse with
    | nil => rfl
    | cons c rest =>
      have space := apart c (by rw [← List.head?_reverse, reversed]; rfl)
      rw [List.takeWhile_cons_of_neg (by simp [space])]
  rw [lastWord, List.reverse_append, kept, List.takeWhile_append_of_pos first, stops, List.append_nil,
    List.reverse_reverse]

/-- White space before some characters is no part of their last word. -/
theorem lastWord_spaced (space : isSpace c = true) (cs : List Nat) : lastWord (c :: cs) = lastWord cs := by
  have stops (rs : List Nat) :
      (rs ++ [c]).takeWhile (fun d => !isSpace d) = rs.takeWhile fun d => !isSpace d := by
    induction rs with
    | nil => simp [space]
    | cons r rs ih => simp only [List.cons_append, List.takeWhile_cons, ih]
  have behind (rs : List Nat) :
      ((rs ++ [c]).dropWhile isSpace).takeWhile (fun d => !isSpace d) =
        (rs.dropWhile isSpace).takeWhile fun d => !isSpace d := by
    induction rs with
    | nil => simp [space]
    | cons r rs ih =>
      cases first : isSpace r with
      | true => simpa [first] using ih
      | false => simpa [first] using stops rs
  rw [lastWord, List.reverse_cons, behind, lastWord]

end Measures

section Steps

theorem measured_start (limit : Nat) : WrapMeasured limit [] Wrap.start [] where
  read := rfl
  calm := rfl
  column := Nat.le_refl 0
  space := fun _ member => absurd member List.not_mem_nil
  word := fun _ member => absurd member List.not_mem_nil
  apart := .inl rfl
  held := .inl rfl

theorem addWord_eq (filled : w.word ≠ []) :
    w.addWord =
      { w with
        pieces := ofCodes w.word :: ofCodes w.space :: w.pieces
        column := w.column + w.spaceLength + w.wordWidth
        space := []
        word := [] } := by
  simp [Wrap.addWord, Wrap.addSpace, filled]

/-- White space ends the word before it, which is written. -/
theorem measured_space (measured : WrapMeasured limit cs w line) (space : isSpace c = true) :
    ∃ line', WrapMeasured limit (cs ++ [c]) { w.addWord with space := w.addWord.space ++ [c] } line' := by
  obtain ⟨read, calm, column, spaces, word, apart, held⟩ := measured
  by_cases empty : w.word = []
  · rw [addWord_empty empty]
    refine ⟨line, ?_, calm, column, ?_, ?_, .inr (by simp), .inl empty⟩
    · simp [read, empty]
    · exact List.forall_mem_append.mpr ⟨spaces, List.forall_mem_singleton.mpr space⟩
    · simp [empty]
  · have between := columns_spaces spaces
    rw [addWord_eq empty, wordWidth_eq word]
    refine ⟨line ++ w.space ++ w.word, ?_, calm, ?_, ?_, ?_, .inr (by simp), .inl rfl⟩
    · simp [read]
    · simp only [columns_append, Wrap.spaceLength]
      omega
    · simpa using space
    · simp

theorem measured_word (measured : WrapMeasured limit cs w line) (ordinary : Ordinary c) (visible : isSpace c = false)
    (fits : ¬ WordOverflows limit { w with word := w.word ++ [c] }) :
    WrapMeasured limit (cs ++ [c]) { w with word := w.word ++ [c] } line := by
  obtain ⟨read, calm, column, spaces, word, apart, held⟩ := measured
  have longer : ∀ d ∈ w.word ++ [c], Ordinary d ∧ isSpace d = false :=
    List.forall_mem_append.mpr ⟨word, List.forall_mem_singleton.mpr ⟨ordinary, visible⟩⟩
  refine ⟨by simp [read], calm, column, spaces, longer, apart, .inr ?_⟩
  rw [WordOverflows, wordWidth_eq longer] at fits
  dsimp only at fits ⊢
  change _ + w.spaceLength + _ ≤ limit ∨ _
  change ¬ (limit < w.column + w.spaceLength + _ ∧ _) at fits
  omega

/-- What is written stays. -/
theorem text_addWord (w : Wrap) : w.text <+: w.addWord.text := by
  by_cases empty : w.word = []
  · exact (addWord_empty empty).symm ▸ List.prefix_refl w.text
  · rw [(addWord_filled empty).1]
    exact List.prefix_append ..

theorem text_addLine (w : Wrap) : w.addLine.text = w.text ++ [0x0a] := text_cons rfl

theorem text_step (limit : Nat) (w : Wrap) (ordinary : Ordinary c) (calm : w.escaped = false) :
    w.text <+: (w.step limit c).text ∧ (w.step limit c).escaped = false := by
  have reads := step_reads limit w ordinary.single
  generalize w.step limit c = v at reads ⊢
  cases reads with
  | escape code => exact absurd code ordinary.calm
  | inside _ opened => simp [calm] at opened
  | space _ _ =>
    refine ⟨text_addWord w, ?_⟩
    exact (Normalizing.escaped_addWord w).trans calm
  | hyphen _ code => exact absurd code ordinary.whole
  | held _ _ _ _ _ => exact ⟨List.prefix_refl _, calm⟩
  | full _ _ _ _ _ =>
    refine ⟨?_, calm⟩
    rw [text_addLine]
    exact List.prefix_append w.text _

/-- A wrap has ended a line, or measured all that it has read. -/
theorem alone_measured (limit : Nat) (ordinary : ∀ c ∈ cs, Ordinary c) :
    (alone limit cs).escaped = false ∧
      (0x0a ∈ (alone limit cs).text ∨ ∃ line, WrapMeasured limit cs (alone limit cs) line) := by
  induction cs using List.reverseRecOn with
  | nil => exact ⟨rfl, .inr ⟨[], measured_start limit⟩⟩
  | append_singleton cs c ih =>
    obtain ⟨before, last⟩ := List.forall_mem_append.mp ordinary
    have last := List.forall_mem_singleton.mp last
    obtain ⟨calm, stands⟩ := ih before
    have stays := text_step limit (alone limit cs) last calm
    rw [alone_concat]
    refine ⟨stays.2, ?_⟩
    rcases stands with ended | ⟨line, measured⟩
    · exact .inl (stays.1.subset ended)
    have reads := step_reads limit (alone limit cs) last.single
    generalize (alone limit cs).step limit c = v at reads ⊢
    cases reads with
    | escape code => exact absurd code last.calm
    | inside _ opened => simp [calm] at opened
    | space _ space => exact .inr (measured_space measured space)
    | hyphen _ code => exact absurd code last.whole
    | held _ _ visible _ fits => exact .inr ⟨line, measured_word measured last visible fits⟩
    | full _ _ _ _ _ =>
      refine .inl ?_
      rw [text_addLine]
      exact List.mem_append_right _ List.mem_cons_self

/-- A line that is left alone is not too wide, but for its last word. -/
theorem settled_width (settled : LineSettled limit cs) (sharp : EdgesSharp cs) (ordinary : ∀ c ∈ cs, Ordinary c) :
    columns cs ≤ limit ∨ limit ≤ columns (lastWord cs) := by
  rcases (alone_measured limit ordinary).2 with ended | ⟨line, measured⟩
  · have byte := (text_addWord (alone limit cs)).subset ended
    rw [settled] at byte
    exact absurd rfl (ordinary 0x0a (mem_of_ofCodes (b := 0x0a) (by decide) byte)).single
  · obtain ⟨read, _, column, spaces, word, apart, held⟩ := measured
    generalize alone limit cs = w at *
    have between := columns_spaces spaces
    by_cases empty : w.word = []
    · -- The line does not end with white space, so nothing is left of it.
      have none : w.space = [] := by
        rcases List.eq_nil_or_concat w.space with none | ⟨front, c, split⟩
        · exact none
        · have stop := sharp.2 c (by simp [read, empty, split])
          rw [spaces c (by simp [split])] at stop
          cases stop
      have blank : line = [] := apart.resolve_right fun filled => filled none
      rw [read, blank, none, empty]
      exact .inl (Nat.zero_le limit)
    · have last : lastWord cs = w.word := by
        rw [read]
        refine lastWord_append empty (fun c member => (word c member).2) fun c stop => spaces c ?_
        rcases apart with blank | filled
        · rw [blank, List.nil_append] at stop
          exact List.mem_of_getLast? stop
        · rw [List.getLast?_append_of_ne_nil _ filled] at stop
          exact List.mem_of_getLast? stop
      rcases held with none | fits | wide
      · exact absurd none empty
      · left
        simp only [read, columns_append]
        rw [Wrap.spaceLength] at fits
        omega
      · right
        rwa [last]

end Steps

section Comments

theorem mem_lastWord (member : c ∈ lastWord cs) : c ∈ cs := by
  have early := (List.takeWhile_sublist _).subset (List.mem_reverse.mp member)
  exact List.mem_reverse.mp ((List.dropWhile_sublist _).subset early)

theorem ordinary_codes {t : Text} (hyphen : 0x2d ∉ t) (calm : 0x1b ∉ t) (newline : 0x0a ∉ t) :
    ∀ c ∈ t.codes, Ordinary c := by
  intro c member
  refine ⟨?_, ?_, ?_⟩ <;> rintro rfl
  · exact newline (mem_of_code (b := 0x0a) (by decide) member)
  · exact calm (mem_of_code (b := 0x1b) (by decide) member)
  · exact hyphen (mem_of_code (b := 0x2d) (by decide) member)

/-- A line of a wrapped text, with the blank that is put before it. -/
theorem wrapText_width (limit : Nat) {t l : Text} (newline : 0x0a ∉ t) (ordinary : ∀ c ∈ t.codes, Ordinary c)
    (firm : EdgesVisible t.glyphs) (member : l ∈ wrapText limit t) :
    shownWidth (0x20 :: trim l) ≤ limit + 1 ∨ limit ≤ shownWidthOf false (lastWord (codes (0x20 :: trim l))) := by
  obtain ⟨ls, whole, each⟩ := wrapText_eq limit newline firm
  rw [whole] at member
  obtain ⟨cs, among, rfl⟩ := List.mem_map.mp member
  obtain ⟨settled, sharp, inside⟩ := each cs among
  have plain : ∀ c ∈ cs, Ordinary c := fun c member => ordinary c (inside member)
  have read : codes (0x20 :: trim (ofCodes cs)) = 0x20 :: cs := by
    have spaced : glyphs (0x20 :: ofCodes cs) = ⟨0x20, [0x20]⟩ :: glyphs (ofCodes cs) := glyphs_ascii (by decide) [] _
    have spelt := codes_ofCodes cs
    rw [codes, scalar_within inside] at spelt
    rw [trim_of_firm (firm_ofCodes sharp), codes, spaced, List.map_cons, spelt]
  have quiet : escape ∉ 0x20 :: cs := by
    rintro (_ | ⟨_, later⟩)
    exact (plain escape later).calm rfl
  have last : shownWidthOf false (lastWord cs) = columns (lastWord cs) :=
    shownWidthOf_calm fun member => quiet (List.mem_cons_of_mem _ (mem_lastWord member))
  have blank : codeWidth 0x20 = 1 := by decide
  rw [shownWidth, read, shownWidthOf_calm quiet, lastWord_spaced (by decide), last, columns, blank]
  rcases settled_width settled sharp plain with fits | wide
  · exact .inl (by omega)
  · exact .inr wide

theorem trim_filled {t : Text} (shows : t.isBlank = false) : trim t ≠ [] := by
  obtain ⟨g, member, visible⟩ := List.all_eq_false.mp shows
  have read : g.code ∈ t.codes := List.mem_map_of_mem member
  intro empty
  have kept := mem_codes_trim read (by simpa [Glyph.isSpace] using visible)
  rw [empty] at kept
  cases kept

end Comments

/-- A comment is wrapped into comments with its marker, at least one, each of which keeps to the width that is
asked for, unless its last word is as wide as a line of text may be. -/
theorem wrapped_comments_within_width (pol : Policy) (c : Comment) (hyphen : 0x2d ∉ c.text)
    (calm : 0x1b ∉ c.text) (newline : 0x0a ∉ c.text) (shows : c.text.isBlank = false)
    (room : 1 ≤ pol.wrapWidth - c.marker.length - 1) :
    pol.wrap c ≠ [] ∧ ∀ d ∈ pol.wrap c, d.marker = c.marker ∧
      ((d.marker.length + d.text.shownWidth : Int) ≤ pol.wrapWidth ∨
        pol.wrapWidth - c.marker.length - 1 ≤ shownWidthOf false (lastWord d.text.codes)) := by
  have filled := List.isEmpty_eq_false_iff.mpr (trim_filled shows)
  unfold Policy.wrap
  dsimp only
  split
  · next whole =>
    have bytes := columns_codes c.text
    have short := shownWidthOf_le false c.text.codes
    refine ⟨List.cons_ne_nil _ _, List.forall_mem_singleton.mpr ⟨rfl, .inl ?_⟩⟩
    rw [shownWidth]
    simp only [filled, Bool.false_eq_true, or_false] at whole
    omega
  · refine ⟨?_, fun d member => ?_⟩
    · exact mt List.map_eq_nil_iff.mp (splitOn_ne_nil _ _)
    · obtain ⟨l, inside, rfl⟩ := List.mem_map.mp member
      have plain : ∀ {b : UInt8}, b ∉ c.text → b ∉ trim c.text := fun none member => none (mem_trim member)
      have width := wrapText_width _ (plain newline) (ordinary_codes (plain hyphen) (plain calm) (plain newline))
        (firm_trim c.text) inside
      refine ⟨rfl, ?_⟩
      simp only [line]
      omega

/-- Wide letters, white space of three bytes, and a word that no line can hold. -/
theorem wrapped_comments_within_width_wide :
    let c : Comment := .line "--" " 五六　wide 七 unbreakable x"
    0x2d ∉ c.text ∧ 0x1b ∉ c.text ∧ 0x0a ∉ c.text ∧ c.text.isBlank = false ∧
      (Policy.mk 1 12).wrap c =
        [.line "--" " 五六", .line "--" " wide 七", .line "--" " unbreakable", .line "--" " x"] ∧
      ∀ d ∈ (Policy.mk 1 12).wrap c, d.marker = c.marker ∧
        ((d.marker.length + d.text.shownWidth : Int) ≤ 12 ∨
          (12 - c.marker.length - 1 : Int) ≤ shownWidthOf false (lastWord d.text.codes)) := by
  intro c
  have hyphen : 0x2d ∉ c.text := by decide +kernel
  have calm : 0x1b ∉ c.text := by decide +kernel
  have newline : 0x0a ∉ c.text := by decide +kernel
  have shows : c.text.isBlank = false := by decide +kernel
  refine ⟨hyphen, calm, newline, shows, by decide +kernel, ?_⟩
  exact (wrapped_comments_within_width ⟨1, 12⟩ c hyphen calm newline shows (by decide)).2

end Galley.Comment.WrapWidth
