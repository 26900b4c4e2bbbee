import Galley.Comment.Wrap
import Galley.Proofs.Glyphs

/-! Wrapped text as lines that can be read again. A text that neither begins nor ends with white space is
wrapped into lines that each show something, and none of them takes more columns than the whole text:
a line is ended only before a word that would fit on a line of its own, so never an empty one. -/
namespace Galley.Comment.Wrapping
open Galley.Text
open Galley.Text.Glyphs

section Lines

variable {t : Text}

theorem splitOn_ne_nil (sep : UInt8) (t : Text) : splitOn sep t ≠ [] := by
  cases t with
  | nil => exact List.cons_ne_nil _ _
  | cons b t =>
    unfold splitOn
    split
    · exact List.cons_ne_nil _ _
    · split <;> exact List.cons_ne_nil _ _

theorem lines_newline (t : Text) : lines (0x0a :: t) = [] :: lines t := by
  show splitOn 0x0a (0x0a :: t) = [] :: splitOn 0x0a t
  rw [splitOn]
  split
  · next none => exact absurd none (splitOn_ne_nil 0x0a t)
  · next found => rw [if_pos rfl, found]

theorem lines_append (plain : 0x0a ∉ t) (rest : Text) : lines (t ++ 0x0a :: rest) = t :: lines rest := by
  induction t with
  | nil => exact lines_newline rest
  | cons b t ih =>
    have other : b ≠ 0x0a := fun same => plain (same ▸ List.mem_cons_self)
    have split := ih fun member => plain (List.mem_cons_of_mem b member)
    show splitOn 0x0a (b :: (t ++ 0x0a :: rest)) = (b :: t) :: lines rest
    rw [splitOn, show splitOn 0x0a (t ++ 0x0a :: rest) = t :: lines rest from split]
    exact if_neg other

theorem lines_plain (plain : 0x0a ∉ t) : lines t = [t] := by
  induction t with
  | nil => rfl
  | cons b t ih =>
    have other : b ≠ 0x0a := fun same => plain (same ▸ List.mem_cons_self)
    have whole := ih fun member => plain (List.mem_cons_of_mem b member)
    show splitOn 0x0a (b :: t) = [b :: t]
    rw [splitOn, show splitOn 0x0a t = [t] from whole]
    exact if_neg other

/-- Lines that are ended by newlines, and what stands after the last of these. -/
theorem lines_ended {ls : List Text} (plain : ∀ l ∈ ls, 0x0a ∉ l) (t : Text) :
    lines (ls.flatMap (· ++ [0x0a]) ++ t) = ls ++ lines t := by
  induction ls with
  | nil => rfl
  | cons l ls ih =>
    have later := ih fun k member => plain k (List.mem_cons_of_mem l member)
    rw [List.flatMap_cons, List.append_assoc, List.append_assoc, List.singleton_append,
      lines_append (plain l List.mem_cons_self), later]
    rfl

theorem mem_lines {l : Text} (member : l ∈ lines t) : 0x0a ∉ l ∧ l.length ≤ t.length := by
  induction t generalizing l with
  | nil =>
    obtain rfl := List.mem_singleton.mp member
    exact ⟨List.not_mem_nil, Nat.le_refl 0⟩
  | cons b t ih =>
    rw [List.length_cons]
    by_cases same : b = 0x0a
    · subst same
      rw [lines_newline] at member
      rcases List.mem_cons.mp member with rfl | later
      · exact ⟨List.not_mem_nil, Nat.zero_le _⟩
      · obtain ⟨plain, short⟩ := ih later
        exact ⟨plain, by omega⟩
    · obtain ⟨first, rest, split⟩ := List.exists_cons_of_ne_nil (splitOn_ne_nil 0x0a t)
      have whole : lines (b :: t) = (b :: first) :: rest := by
        show splitOn 0x0a (b :: t) = _
        rw [splitOn, split]
        exact if_neg same
      have known (k : Text) (among : k ∈ first :: rest) := ih (l := k) (by rw [lines, split]; exact among)
      rw [whole] at member
      rcases List.mem_cons.mp member with rfl | later
      · obtain ⟨plain, short⟩ := known first List.mem_cons_self
        refine ⟨?_, by simpa using short⟩
        intro newline
        rcases List.mem_cons.mp newline with here | there
        · exact same here.symm
        · exact plain there
      · obtain ⟨plain, short⟩ := known l (List.mem_cons_of_mem first later)
        exact ⟨plain, by omega⟩

end Lines

section Steps

/-- Characters that show something on paper. -/
def CharsShow (cs : List Nat) : Prop := ∃ c ∈ cs, isSpace c = false

/-- The columns of some characters when they are spelt and read again. -/
def weight (cs : List Nat) : Nat := columns (cs.map scalar)

@[simp] theorem weight_nil : weight [] = 0 := rfl

@[simp] theorem weight_append (cs ds : List Nat) : weight (cs ++ ds) = weight cs + weight ds := by
  simp [weight]

theorem shows_left {cs : List Nat} (shows : CharsShow cs) (ds : List Nat) : CharsShow (cs ++ ds) := by
  obtain ⟨c, member, visible⟩ := shows
  exact ⟨c, List.mem_append_left ds member, visible⟩

theorem shows_right (cs : List Nat) {ds : List Nat} (shows : CharsShow ds) : CharsShow (cs ++ ds) := by
  obtain ⟨c, member, visible⟩ := shows
  exact ⟨c, List.mem_append_right cs member, visible⟩

/-- The characters that a wrap has written: some lines that are ended, and the current one. -/
def page (done : List (List Nat)) (line : List Nat) : List Nat := done.flatMap (· ++ [0x0a]) ++ line

/-- Where a wrap stands after some characters: with these lines ended, and this one current. -/
structure Wraps (read : List Nat) (w : Wrap) (done : List (List Nat)) (line : List Nat) : Prop where
  written : w.text = ofCodes (page done line)
  ended : ∀ l ∈ done, CharsShow l ∧ 0x0a ∉ l ∧ weight l ≤ weight read
  plain : 0x0a ∉ line ++ w.space ++ w.word
  /-- A line that shows nothing yet has nothing before its first word. -/
  fresh : CharsShow line ∨ w.column = 0 ∧ w.space = []
  visible : w.word = [] ∨ CharsShow w.word
  escaped : w.escaped = true → w.word ≠ []
  begun : read = [] ∨ CharsShow line ∨ w.word ≠ []
  held : weight line + weight w.space + weight w.word ≤ weight read

variable {read line : List Nat} {w : Wrap} {done : List (List Nat)} {c : Nat}

theorem wraps_start : Wraps [] Wrap.start [] [] where
  written := rfl
  ended := fun l member => absurd member List.not_mem_nil
  plain := List.not_mem_nil
  fresh := .inr ⟨rfl, rfl⟩
  visible := .inl rfl
  escaped := fun opened => by cases opened
  begun := .inl rfl
  held := Nat.le_refl 0

theorem ended_read (wraps : Wraps read w done line) (c : Nat) :
    ∀ l ∈ done, CharsShow l ∧ 0x0a ∉ l ∧ weight l ≤ weight (read ++ [c]) := by
  intro l member
  obtain ⟨shows, single, light⟩ := wraps.ended l member
  rw [weight_append]
  exact ⟨shows, single, by omega⟩

theorem text_cons {v : Wrap} {t : Text} (added : v.pieces = t :: w.pieces) : v.text = w.text ++ t := by
  rw [Wrap.text, added, List.reverse_cons, List.flatten_append, List.flatten_singleton]
  rfl

/-- What is written next goes to the current line. -/
theorem written_cons {v : Wrap} {cs : List Nat} (wraps : Wraps read w done line)
    (added : v.pieces = ofCodes cs :: w.pieces) : v.text = ofCodes (page done (line ++ cs)) := by
  rw [text_cons added, wraps.written, ← ofCodes_append, page, page, List.append_assoc]

/-- Another character of the word. -/
theorem wraps_extend (wraps : Wraps read w done line) (plain : c ≠ 0x0a)
    (visible : w.word ≠ [] ∨ isSpace c = false) (escaped : Bool) :
    Wraps (read ++ [c]) { w with word := w.word ++ [c], escaped := escaped } done line where
  written := wraps.written
  ended := ended_read wraps c
  plain := by
    show 0x0a ∉ line ++ w.space ++ (w.word ++ [c])
    rw [← List.append_assoc]
    intro member
    rcases List.mem_append.mp member with early | late
    · exact wraps.plain early
    · exact plain (List.mem_singleton.mp late).symm
  fresh := wraps.fresh
  visible := by
    right
    rcases visible with filled | shown
    · rcases wraps.visible with empty | shows
      · exact absurd empty filled
      · exact shows_left shows [c]
    · exact ⟨c, List.mem_append_right _ List.mem_cons_self, shown⟩
  escaped := fun _ empty => by simp at empty
  begun := .inr (.inr (by simp))
  held := by
    have held := wraps.held
    simp only [weight_append]
    omega

/-- The blanks are written. -/
theorem wraps_addSpace (wraps : Wraps read w done line) : Wraps read w.addSpace done (line ++ w.space) where
  written := written_cons wraps rfl
  ended := wraps.ended
  plain := by
    show 0x0a ∉ line ++ w.space ++ [] ++ w.word
    rw [List.append_nil]
    exact wraps.plain
  fresh := by
    rcases wraps.fresh with shows | ⟨column, space⟩
    · exact .inl (shows_left shows _)
    · right
      simp [Wrap.addSpace, Wrap.spaceLength, column, space, ofCodes]
  visible := wraps.visible
  escaped := wraps.escaped
  begun := by
    rcases wraps.begun with none | shows | filled
    · exact .inl none
    · exact .inr (.inl (shows_left shows _))
    · exact .inr (.inr filled)
  held := by
    have held := wraps.held
    simp only [Wrap.addSpace, weight_append, weight_nil]
    omega

/-- An escape sequence that is left open ends with the text. -/
theorem wraps_calm (wraps : Wraps read w done line) : Wraps read { w with escaped := false } done line where
  written := wraps.written
  ended := wraps.ended
  plain := wraps.plain
  fresh := wraps.fresh
  visible := wraps.visible
  escaped := fun opened => by cases opened
  begun := wraps.begun
  held := wraps.held

theorem text_addWord_calm (w : Wrap) : ({ w with escaped := false } : Wrap).addWord.text = w.addWord.text := by
  unfold Wrap.addWord
  split <;> rfl

theorem addWord_eq (filled : w.word ≠ []) :
    w.addWord =
      { w.addSpace with
        pieces := ofCodes w.word :: w.addSpace.pieces
        column := w.addSpace.column + w.wordWidth
        word := [] } := by
  simp [Wrap.addWord, filled]

/-- The word is written. -/
theorem wraps_addWord (wraps : Wraps read w done line) (calm : w.escaped = false) :
    ∃ line', Wraps read w.addWord done line' ∧ w.addWord.word = [] := by
  by_cases empty : w.word = []
  · have same : w.addWord = w := by simp [Wrap.addWord, empty]
    rw [same]
    exact ⟨line, wraps, empty⟩
  · have spaced := wraps_addSpace wraps
    have shows : CharsShow (line ++ w.space ++ w.word) := by
      rcases wraps.visible with none | shows
      · exact absurd none empty
      · exact shows_right _ shows
    refine ⟨line ++ w.space ++ w.word, ?_, by rw [addWord_eq empty]⟩
    rw [addWord_eq empty]
    exact {
      written := written_cons spaced rfl
      ended := spaced.ended
      plain := by
        show 0x0a ∉ line ++ w.space ++ w.word ++ [] ++ []
        rw [List.append_nil, List.append_nil]
        exact wraps.plain
      fresh := .inl shows
      visible := .inl rfl
      escaped := fun opened => by
        rw [show w.addSpace.escaped = w.escaped from rfl, calm] at opened
        cases opened
      begun := .inr (.inl shows)
      held := by
        have held := wraps.held
        simp only [Wrap.addSpace, weight_append, weight_nil]
        omega }

/-- The line is ended, and the blanks at its end are dropped. -/
theorem wraps_addLine (wraps : Wraps read w done line) (shows : CharsShow line) (filled : w.word ≠ []) :
    Wraps read w.addLine (done ++ [line]) [] where
  written := by
    have ended : page (done ++ [line]) [] = page done (line ++ [0x0a]) := by simp [page]
    rw [ended]
    exact written_cons wraps rfl
  ended := by
    intro l member
    rcases List.mem_append.mp member with early | late
    · exact wraps.ended l early
    · obtain rfl := List.mem_singleton.mp late
      refine ⟨shows, fun newline => wraps.plain ?_, ?_⟩
      · rw [List.append_assoc]
        exact List.mem_append_left _ newline
      · have held := wraps.held
        omega
  plain := fun newline => wraps.plain (List.mem_append_right _ newline)
  fresh := .inr ⟨rfl, rfl⟩
  visible := wraps.visible
  escaped := wraps.escaped
  begun := .inr (.inr filled)
  held := by
    have held := wraps.held
    simp only [Wrap.addLine, weight_nil]
    omega

/-- A blank after something that shows. -/
theorem wraps_blank (wraps : Wraps read w done line) (plain : c ≠ 0x0a) (shows : CharsShow line) (empty : w.word = []) :
    Wraps (read ++ [c]) { w with space := w.space ++ [c] } done line where
  written := wraps.written
  ended := ended_read wraps c
  plain := by
    have before := wraps.plain
    simp only [empty, List.append_nil, List.mem_append, List.mem_singleton, not_or] at before ⊢
    exact ⟨before.1, before.2, fun same => plain same.symm⟩
  fresh := .inl shows
  visible := wraps.visible
  escaped := wraps.escaped
  begun := .inr (.inl shows)
  held := by
    have held := wraps.held
    simp only [weight_append]
    omega

/-- A hyphen is written at once. -/
theorem wraps_hyphen (wraps : Wraps read w done line) (blank : w.space = []) (empty : w.word = []) :
    Wraps (read ++ [0x2d]) { w with pieces := [0x2d] :: w.pieces } done (line ++ [0x2d]) where
  written := written_cons wraps rfl
  ended := ended_read wraps 0x2d
  plain := by
    have before := wraps.plain
    simp only [blank, empty, List.append_nil, List.mem_append, List.mem_singleton, not_or] at before ⊢
    exact ⟨before, by decide⟩
  fresh := .inl (shows_right line ⟨0x2d, List.mem_cons_self, rfl⟩)
  visible := wraps.visible
  escaped := wraps.escaped
  begun := .inr (.inl (shows_right line ⟨0x2d, List.mem_cons_self, rfl⟩))
  held := by
    have held := wraps.held
    simp only [weight_append]
    omega

/-- Whether the word does not fit on the current line, but would fit on one of its own. -/
def WordOverflows (limit : Nat) (w : Wrap) : Prop :=
  limit < w.column + w.spaceLength + w.wordWidth ∧ w.wordWidth < limit

instance (limit : Nat) (w : Wrap) : Decidable (WordOverflows limit w) := inferInstanceAs (Decidable (_ ∧ _))

/-- What a wrap does with a character that is no newline. -/
inductive WrapReads (limit : Nat) (w : Wrap) (c : Nat) : Wrap → Prop where
  | escape (code : c = Text.escape) : WrapReads limit w c { w with word := w.word ++ [c], escaped := true }
  | inside (other : c ≠ Text.escape) (opened : w.escaped = true) :
      WrapReads limit w c { w with word := w.word ++ [c], escaped := !endsEscape c }
  | space (calm : w.escaped = false) (space : isSpace c = true) :
      WrapReads limit w c { w.addWord with space := w.addWord.space ++ [c] }
  | hyphen (calm : w.escaped = false) (code : c = 0x2d) :
      WrapReads limit w c { w.addSpace.addWord with pieces := [0x2d] :: w.addSpace.addWord.pieces }
  | held (other : c ≠ Text.escape) (calm : w.escaped = false) (visible : isSpace c = false) (joined : c ≠ 0x2d)
      (fits : ¬ WordOverflows limit { w with word := w.word ++ [c] }) :
      WrapReads limit w c { w with word := w.word ++ [c] }
  | full (other : c ≠ Text.escape) (calm : w.escaped = false) (visible : isSpace c = false) (joined : c ≠ 0x2d)
      (full : WordOverflows limit { w with word := w.word ++ [c] }) :
      WrapReads limit w c ({ w with word := w.word ++ [c] } : Wrap).addLine

theorem step_reads (limit : Nat) (w : Wrap) (plain : c ≠ 0x0a) : WrapReads limit w c (w.step limit c) := by
  unfold Wrap.step
  by_cases escape : c = Text.escape
  · rw [if_pos (by simpa using escape)]
    exact .escape escape
  rw [if_neg (by simpa using escape)]
  by_cases opened : w.escaped = true
  · rw [if_pos opened]
    exact .inside escape opened
  rw [if_neg opened, if_neg (by simpa using plain)]
  have calm : w.escaped = false := by simpa using opened
  by_cases space : isSpace c = true
  · rw [if_pos space]
    exact .space calm space
  rw [if_neg space]
  have visible : isSpace c = false := by simpa using space
  by_cases hyphen : c = 0x2d
  · rw [if_pos (by simpa using hyphen)]
    exact .hyphen calm hyphen
  rw [if_neg (by simpa using hyphen)]
  dsimp only
  split
  · next full => exact .full escape calm visible hyphen full
  · next fits => exact .held escape calm visible hyphen fits

/-- One character. Only the first one has to show something. -/
theorem step_wraps (limit : Nat) (wraps : Wraps read w done line) (plain : c ≠ 0x0a)
    (visible : read = [] → isSpace c = false) :
    ∃ done' line', Wraps (read ++ [c]) (w.step limit c) done' line' := by
  have reads := step_reads limit w plain
  generalize w.step limit c = v at reads ⊢
  cases reads with
  | escape code =>
    subst code
    exact ⟨done, line, wraps_extend wraps plain (.inr rfl) true⟩
  | inside _ opened => exact ⟨done, line, wraps_extend wraps plain (.inl (wraps.escaped opened)) _⟩
  | space calm space =>
    obtain ⟨line', added, empty⟩ := wraps_addWord wraps calm
    have shows : CharsShow line' := by
      rcases added.begun with none | shows | filled
      · rw [visible none] at space
        cases space
      · exact shows
      · exact absurd empty filled
    exact ⟨done, line', wraps_blank added plain shows empty⟩
  | hyphen calm code =>
    subst code
    obtain ⟨line', added, empty⟩ := wraps_addWord (wraps_addSpace wraps) calm
    have blank : w.addSpace.addWord.space = [] := by
      unfold Wrap.addWord
      split <;> rfl
    exact ⟨done, line' ++ [0x2d], wraps_hyphen added blank empty⟩
  | held _ _ visible => exact ⟨done, line, wraps_extend wraps plain (.inr visible) w.escaped⟩
  | full _ _ visible _ full =>
    -- The word fits on a line of its own, so it is not what fills this one.
    have shows : CharsShow line := by
      rcases wraps.fresh with shows | ⟨column, blank⟩
      · exact shows
      · have none : w.spaceLength = 0 := by rw [Wrap.spaceLength, blank]; rfl
        change limit < w.column + w.spaceLength + shownWidthOf false (w.word ++ [c]) ∧
          shownWidthOf false (w.word ++ [c]) < limit at full
        omega
    exact ⟨done ++ [line], [], wraps_addLine (wraps_extend wraps plain (.inr visible) w.escaped) shows (by simp)⟩

/-- All the characters, in their order. -/
theorem run_wraps (limit : Nat) (wraps : Wraps read w done line) (cs : List Nat) (plain : 0x0a ∉ cs)
    (visible : read = [] → ∀ c ∈ cs.head?, isSpace c = false) :
    ∃ done' line', Wraps (read ++ cs) (cs.foldl (Wrap.step limit) w) done' line' := by
  induction cs generalizing read w done line with
  | nil =>
    rw [List.append_nil]
    exact ⟨done, line, wraps⟩
  | cons c cs ih =>
    obtain ⟨done', line', stepped⟩ := step_wraps limit wraps (c := c)
      (fun same => plain (same ▸ List.mem_cons_self)) fun none => visible none c rfl
    have later := ih stepped (fun member => plain (List.mem_cons_of_mem c member))
      fun none => absurd none (by simp)
    rwa [List.append_assoc, List.singleton_append] at later

end Steps

section Results

variable {t l : Text}

theorem page_lines {done : List (List Nat)} {line : List Nat} (ended : ∀ l ∈ done, 0x0a ∉ l) (plain : 0x0a ∉ line) :
    lines (ofCodes (page done line)) = done.map ofCodes ++ [ofCodes line] := by
  have single {cs : List Nat} (none : 0x0a ∉ cs) : 0x0a ∉ ofCodes cs :=
    fun member => none (mem_of_ofCodes (b := 0x0a) (by decide) member)
  have spelt : ofCodes (page done line) = (done.map ofCodes).flatMap (· ++ [0x0a]) ++ ofCodes line := by
    have newline : ofCodes [0x0a] = [0x0a] := by decide
    rw [page, ofCodes_append, ofCodes, List.flatMap_assoc, List.flatMap_map]
    simp only [← ofCodes.eq_def, ofCodes_append, newline]
  rw [spelt, lines_ended, lines_plain (single plain)]
  intro l member
  obtain ⟨cs, inside, rfl⟩ := List.mem_map.mp member
  exact single (ended cs inside)

/-- The lines of a wrapped text can stand alone: each shows something, and takes no more columns than
all the text. -/
theorem wrapText_lines (limit : Nat) (plain : 0x0a ∉ t) (filled : t ≠ []) (firm : EdgesVisible t.glyphs)
    (member : l ∈ wrapText limit t) :
    (∃ c ∈ l.codes, isSpace c = false) ∧ 0x0a ∉ l ∧ columns l.codes ≤ columns t.codes := by
  have single : 0x0a ∉ t.codes := fun read => plain (mem_of_code (b := 0x0a) (by decide) read)
  have visible : ∀ c ∈ t.codes.head?, isSpace c = false := by
    intro c first
    rw [codes, List.head?_map] at first
    obtain ⟨g, start, rfl⟩ := Option.map_eq_some_iff.mp first
    exact firm.1 g start
  obtain ⟨done, line, wraps⟩ := run_wraps limit wraps_start t.codes single fun _ => visible
  rw [List.nil_append] at wraps
  obtain ⟨last, added, empty⟩ := wraps_addWord (wraps_calm wraps) rfl
  have shows : CharsShow last := by
    rcases added.begun with none | shows | filled'
    · exact absurd (List.map_eq_nil_iff.mp none) (glyphs_ne_nil filled)
    · exact shows
    · exact absurd empty filled'
  have alone : ∀ cs ∈ done ++ [last], CharsShow cs ∧ 0x0a ∉ cs ∧ weight cs ≤ weight t.codes := by
    intro cs among
    rcases List.mem_append.mp among with early | late
    · exact added.ended cs early
    · obtain rfl := List.mem_singleton.mp late
      have held := added.held
      refine ⟨shows, fun newline => added.plain ?_, by omega⟩
      exact List.mem_append_left _ (List.mem_append_left _ newline)
  have whole : wrapText limit t = (done ++ [last]).map ofCodes := by
    rw [wrapText, ← text_addWord_calm, added.written, page_lines (fun cs early => (alone cs
      (List.mem_append_left _ early)).2.1) (alone last (List.mem_append_right _ List.mem_cons_self)).2.1,
      List.map_append]
    rfl
  rw [whole] at member
  obtain ⟨cs, among, rfl⟩ := List.mem_map.mp member
  obtain ⟨⟨c, inside, seen⟩, newline, light⟩ := alone cs among
  refine ⟨⟨scalar c, ?_, isSpace_scalar seen⟩, ?_, ?_⟩
  · rw [codes_ofCodes]
    exact List.mem_map_of_mem inside
  · exact fun byte => newline (mem_of_ofCodes (b := 0x0a) (by decide) byte)
  · rw [codes_ofCodes]
    rw [weight, weight, codes_scalar] at light
    exact light

end Results

end Galley.Comment.Wrapping
