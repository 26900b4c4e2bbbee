import Galley.Proofs.LeadingBlock
import Galley.Proofs.LineEnds

/-! What a policy keeps of comments. A wrap writes every character that it reads, but for white space, so a
comment is replaced by comments with the same marker that show the same. Main statement: normalizing cuts each
run of blank lines to the length that is allowed, and keeps all that comments show. -/
namespace Galley.Comment.Normalizing
open Galley.Text
open Galley.Text.Glyphs
open Wrapping (text_cons lines_plain lines_append step_reads addWord_eq)
open LeadingBlock (lines_induction)

section Ink

/-- The characters that show something. -/
def visible (cs : List Nat) : List Nat := cs.filter fun c => !isSpace c

@[simp] theorem visible_append (cs ds : List Nat) : visible (cs ++ ds) = visible cs ++ visible ds :=
  List.filter_append cs ds

@[simp] theorem visible_nil : visible [] = [] := rfl

@[simp] theorem visible_space {c : Nat} (space : isSpace c = true) : visible [c] = [] := by simp [visible, space]

/-- The characters of a text that show something, as they are spelt there. -/
def shown (t : Text) : List Glyph := t.glyphs.filter fun g => !g.isSpace

/-- A text without its white space. -/
def ink (t : Text) : Text := ofGlyphs (shown t)

variable {t l : Text}

theorem shown_ascii {b : UInt8} (ascii : b < 0x80) (space : isSpace b.toNat = true) (t u : Text) :
    shown (t ++ b :: u) = shown t ++ shown u := by
  simp [shown, glyphs_ascii ascii, Glyph.isSpace, space]

theorem shown_trim (t : Text) : shown (trim t) = shown t := by
  have cut (gs : List Glyph) :
      (gs.dropWhile Glyph.isSpace).filter (fun g => !g.isSpace) = gs.filter fun g => !g.isSpace := by
    have early : (gs.takeWhile Glyph.isSpace).filter (fun g => !g.isSpace) = [] := by
      apply List.filter_eq_nil_iff.mpr
      intro g member
      simp [List.all_eq_true.mp (List.all_takeWhile (p := Glyph.isSpace)) g member]
    conv => rhs; rw [← List.takeWhile_append_dropWhile (p := Glyph.isSpace) (l := gs)]
    rw [List.filter_append, early, List.nil_append]
  rw [shown, glyphs_trim, strip, List.filter_reverse, cut, List.filter_reverse, List.reverse_reverse, cut, shown]

theorem shown_lines (t : Text) : t.lines.flatMap shown = shown t := by
  induction t using lines_induction with
  | one l plain => rw [lines_plain plain, List.flatMap_singleton]
  | more l u plain ih =>
    rw [lines_append plain, List.flatMap_cons, ih, shown_ascii (by decide) (by decide)]

/-- Lines that are put together again, each after a blank. -/
theorem shown_spaced (ls : List Text) : shown (ls.flatMap fun l => 0x20 :: trim l) = ls.flatMap shown := by
  induction ls using List.reverseRecOn with
  | nil => rfl
  | append_singleton ls l ih =>
    rw [List.flatMap_append, List.flatMap_append, List.flatMap_singleton, List.flatMap_singleton,
      shown_ascii (by decide) (by decide), ih, shown_trim]

/-- White space is spelt as it is. -/
theorem scalar_space {c : Nat} (space : isSpace c = true) : scalar c = c := by
  apply scalar_of_low
  unfold isSpace at space
  split at space
  · next small => omega
  · simp only [Bool.or_eq_true, Bool.and_eq_true, decide_eq_true_eq, beq_iff_eq] at space
    omega

theorem isSpace_scalar_eq (c : Nat) : isSpace (scalar c) = isSpace c := by
  cases space : isSpace c with
  | false => exact isSpace_scalar space
  | true => rw [scalar_space space, space]

theorem glyphs_spelt (cs : List Nat) : (ofCodes cs).glyphs = cs.map fun c => ⟨scalar c, encode c⟩ := by
  induction cs using List.reverseRecOn with
  | nil => rfl
  | append_singleton cs c ih =>
    have single : ofCodes [c] = encode c := List.flatMap_singleton ..
    rw [ofCodes_append, glyphs_ofCodes, ih, single, glyphs_encode, List.map_append, List.map_singleton]

theorem shown_ofCodes (cs : List Nat) :
    shown (ofCodes cs) = (visible cs).map fun c => ⟨scalar c, encode c⟩ := by
  rw [shown, glyphs_spelt, List.filter_map, visible]
  congr 1
  apply List.filter_congr
  intro c _
  simp only [Function.comp, Glyph.isSpace, isSpace_scalar_eq]

theorem wellFormed_trim (valid : t.wellFormed = true) : (trim t).wellFormed = true := by
  obtain ⟨before, after, split⟩ := strip_infix t.glyphs
  have all := List.all_eq_true.mp valid
  apply List.all_eq_true.mpr
  intro g member
  rw [glyphs_trim] at member
  apply all g
  rw [split]
  exact List.mem_append_right before (List.mem_append_left after member)

end Ink

section Words

variable {w : Wrap}

theorem text_addSpace (w : Wrap) : w.addSpace.text = w.text ++ ofCodes w.space := text_cons rfl

theorem addWord_empty (empty : w.word = []) : w.addWord = w := by simp [Wrap.addWord, empty]

theorem addWord_filled (filled : w.word ≠ []) :
    w.addWord.text = w.text ++ ofCodes (w.space ++ w.word) ∧ w.addWord.space = [] := by
  rw [addWord_eq filled]
  refine ⟨?_, rfl⟩
  rw [text_cons (w := w.addSpace) rfl, text_addSpace, ofCodes_append, List.append_assoc]

@[simp] theorem word_addWord (w : Wrap) : w.addWord.word = [] := by
  unfold Wrap.addWord
  split
  · next empty => exact List.isEmpty_iff.mp empty
  · rfl

@[simp] theorem escaped_addWord (w : Wrap) : w.addWord.escaped = w.escaped := by
  unfold Wrap.addWord
  split <;> rfl

end Words

section Keeping

/-- A wrap that has kept all that shows: it is written, or in the word held back. -/
structure WrapKeeps (read : List Nat) (w : Wrap) (written : List Nat) : Prop where
  spelt : w.text = ofCodes written
  blank : visible w.space = []
  whole : visible written ++ visible w.word = visible read

variable {read written : List Nat} {w v : Wrap} {c : Nat}

theorem keeps_start : WrapKeeps [] Wrap.start [] where
  spelt := rfl
  blank := rfl
  whole := rfl

variable (keeps : WrapKeeps read w written)
include keeps

/-- Another character of the word. -/
theorem keeps_extend (c : Nat) (escaped : Bool) :
    WrapKeeps (read ++ [c]) { w with word := w.word ++ [c], escaped := escaped } written where
  spelt := keeps.spelt
  blank := keeps.blank
  whole := by
    have whole := keeps.whole
    simp only [visible_append, ← whole, List.append_assoc]

/-- A blank is read, whatever becomes of it. -/
theorem keeps_skip (space : isSpace c = true) : WrapKeeps (read ++ [c]) w written where
  spelt := keeps.spelt
  blank := keeps.blank
  whole := by rw [visible_append, visible_space space, List.append_nil, keeps.whole]

/-- The blanks are dropped. -/
theorem keeps_drop (pieces : v.pieces = w.pieces) (space : v.space = [])
    (word : v.word = w.word) : WrapKeeps read v written where
  spelt := by rw [← keeps.spelt, Wrap.text, Wrap.text, pieces]
  blank := by rw [space]; rfl
  whole := by rw [word, keeps.whole]

/-- The blanks are written. -/
theorem keeps_flush (pieces : v.pieces = ofCodes w.space :: w.pieces)
    (space : v.space = []) (word : v.word = w.word) : WrapKeeps read v (written ++ w.space) where
  spelt := by rw [text_cons pieces, keeps.spelt, ofCodes_append]
  blank := by rw [space]; rfl
  whole := by rw [visible_append, keeps.blank, List.append_nil, word, keeps.whole]

/-- The word is written. -/
theorem keeps_addWord : ∃ written', WrapKeeps read w.addWord written' := by
  by_cases empty : w.word = []
  · rw [addWord_empty empty]
    exact ⟨written, keeps⟩
  · obtain ⟨spelt, space⟩ := addWord_filled empty
    refine ⟨written ++ (w.space ++ w.word), ?_, ?_, ?_⟩
    · rw [spelt, keeps.spelt, ofCodes_append written]
    · rw [space, visible_nil]
    · rw [visible_append, visible_append, keeps.blank, List.nil_append, word_addWord, visible_nil, List.append_nil,
        keeps.whole]

/-- Some text is written. -/
theorem keeps_piece (cs : List Nat) (empty : w.word = []) :
    WrapKeeps (read ++ cs) { w with pieces := ofCodes cs :: w.pieces } (written ++ cs) where
  spelt := by rw [text_cons (w := w) rfl, keeps.spelt, ofCodes_append]
  blank := keeps.blank
  whole := by
    have whole := keeps.whole
    rw [empty, visible_nil, List.append_nil] at whole
    rw [visible_append, visible_append, empty, visible_nil, List.append_nil, whole]

/-- The line is ended. -/
theorem keeps_addLine : WrapKeeps read w.addLine (written ++ [0x0a]) where
  spelt := by
    have newline : ofCodes [0x0a] = [0x0a] := by decide
    rw [Wrap.addLine, text_cons (w := w) rfl, keeps.spelt, ofCodes_append, newline]
  blank := rfl
  whole := by
    rw [visible_append, visible_space (by decide), List.append_nil]
    exact keeps.whole

omit keeps

/-- One character. -/
theorem step_keeps (limit : Nat) (keeps : WrapKeeps read w written) (c : Nat) :
    ∃ written', WrapKeeps (read ++ [c]) (w.step limit c) written' := by
  by_cases newline : c = 0x0a
  · subst newline
    have passed := keeps_skip keeps (c := 0x0a) (by decide)
    -- Blanks at the end of a line are dropped where they would not fit, and else written.
    have ended {v : Wrap} {written' : List Nat} (kept : WrapKeeps (read ++ [0x0a]) v written') :
        ∃ written'', WrapKeeps (read ++ [0x0a]) v.addWord.addLine written'' := by
      obtain ⟨later, added⟩ := keeps_addWord kept
      exact ⟨_, keeps_addLine added⟩
    unfold Wrap.step
    rw [if_neg (by decide)]
    by_cases opened : w.escaped = true
    · rw [if_pos opened]
      exact ⟨written, keeps_extend keeps _ _⟩
    rw [if_neg opened, if_pos (by decide)]
    dsimp only
    split
    · split
      · exact ended (keeps_drop passed rfl rfl rfl)
      · exact ended (keeps_flush passed rfl rfl rfl)
    · exact ended passed
  have reads := step_reads limit w newline
  generalize w.step limit c = v at reads ⊢
  cases reads with
  | space _ space =>
    obtain ⟨later, added⟩ := keeps_addWord (keeps_skip keeps space)
    refine ⟨later, added.spelt, ?_, added.whole⟩
    rw [visible_append, added.blank, visible_space space, List.append_nil]
  | hyphen _ code =>
    subst code
    have spaced : WrapKeeps read w.addSpace (written ++ w.space) := keeps_flush keeps rfl rfl rfl
    obtain ⟨later, added⟩ := keeps_addWord spaced
    exact ⟨later ++ [0x2d], keeps_piece added [0x2d] (word_addWord _)⟩
  | full => exact ⟨_, keeps_addLine (keeps_extend keeps c w.escaped)⟩
  | _ => exact ⟨written, keeps_extend keeps c _⟩

/-- All the characters, in their order. -/
theorem run_keeps (limit : Nat) (keeps : WrapKeeps read w written) (cs : List Nat) :
    ∃ written', WrapKeeps (read ++ cs) (cs.foldl (Wrap.step limit) w) written' := by
  induction cs generalizing read w written with
  | nil =>
    rw [List.append_nil]
    exact ⟨written, keeps⟩
  | cons c cs ih =>
    obtain ⟨written', stepped⟩ := step_keeps limit keeps c
    have later := ih stepped
    rwa [List.append_assoc, List.singleton_append] at later

/-- The lines of a wrapped text show what the text shows. -/
theorem wrapText_shown (limit : Nat) {t : Text} (valid : t.wellFormed = true) :
    (wrapText limit t).flatMap shown = shown t := by
  obtain ⟨_, kept⟩ := run_keeps limit keeps_start t.codes
  obtain ⟨written, added⟩ := keeps_addWord kept
  have whole := added.whole
  rw [word_addWord, visible_nil, List.append_nil, List.nil_append] at whole
  calc (wrapText limit t).flatMap shown
      = shown (ofCodes written) := by rw [wrapText, shown_lines, added.spelt]
    _ = shown (ofCodes t.codes) := by rw [shown_ofCodes, shown_ofCodes, whole]
    _ = shown t := by rw [ofCodes_codes valid]

/-- What a comment is wrapped into: comments with its marker that show the same. -/
theorem wrap_kept (pol : Policy) {c : Comment} (shows : c.blank = false) :
    pol.wrap c ≠ [] ∧ (∀ d ∈ pol.wrap c, d.blank = false ∧ d.marker = c.marker) ∧
      (c.text.wellFormed = true → ink ((pol.wrap c).flatMap (·.text)) = ink c.text) := by
  refine ⟨?_, ?_⟩
  · obtain ⟨d, more, wrapped, -⟩ := Layout.LineEnds.wrap_cons pol shows
    rw [wrapped]
    exact List.cons_ne_nil d more
  unfold Policy.wrap
  dsimp only
  split
  · refine ⟨?_, fun _ => by rw [List.flatMap_singleton]⟩
    intro d member
    obtain rfl := List.mem_singleton.mp member
    exact ⟨shows, rfl⟩
  · refine ⟨?_, fun valid => ?_⟩
    · intro d member
      obtain ⟨l, -, rfl⟩ := List.mem_map.mp member
      exact ⟨rfl, rfl⟩
    · rw [ink, List.flatMap_map]
      show ofGlyphs (shown (List.flatMap (fun l => 0x20 :: trim l) _)) = _
      rw [shown_spaced, wrapText_shown _ (wellFormed_trim valid), shown_trim, ink]

end Keeping

section Runs

/-- Items and what is left of them: each run of blank lines is cut to its first ones, as many as the policy
allows, and in the place of each comment stand comments with its marker that show what it shows. -/
inductive ItemsTidied (pol : Policy) : List Comment → List Comment → Prop where
  | nil : ItemsTidied pol [] []
  | blanks {run rest out : List Comment} (filled : run ≠ []) (blank : ∀ c ∈ run, c.blank = true)
      (ends : ∀ c ∈ rest.head?, c.blank = false) (later : ItemsTidied pol rest out) :
      ItemsTidied pol (run ++ rest) (run.take (min run.length (max 0 pol.maxBlankLines).toNat) ++ out)
  | comment {c : Comment} {pieces rest out : List Comment} (shows : c.blank = false) (filled : pieces ≠ [])
      (alike : ∀ d ∈ pieces, d.blank = false ∧ d.marker = c.marker)
      (kept : ink (pieces.flatMap (·.text)) = ink c.text) (later : ItemsTidied pol rest out) :
      ItemsTidied pol (c :: rest) (pieces ++ out)

variable {pol : Policy} {items rest run : List Comment} {c : Comment}

theorem normalizeAfter_blanks (n : Nat) (blank : ∀ c ∈ run, c.blank = true) (rest : List Comment) :
    pol.normalizeAfter n (run ++ rest) =
      run.take ((max 0 pol.maxBlankLines).toNat - n) ++ pol.normalizeAfter (n + run.length) rest := by
  induction run generalizing n with
  | nil => rw [List.take_nil, List.nil_append, List.nil_append, List.length_nil, Nat.add_zero]
  | cons c run ih =>
    have later := ih (n + 1) fun d member => blank d (List.mem_cons_of_mem c member)
    rw [List.cons_append, Policy.normalizeAfter, if_pos (blank c List.mem_cons_self), later, List.length_cons,
      show n + 1 + run.length = n + (run.length + 1) by omega]
    dsimp only
    split
    · next allowed =>
      rw [show (max 0 pol.maxBlankLines).toNat - n = (max 0 pol.maxBlankLines).toNat - (n + 1) + 1 by omega,
        List.take_succ_cons, List.cons_append]
    · next beyond =>
      rw [show (max 0 pol.maxBlankLines).toNat - n = 0 by omega,
        show (max 0 pol.maxBlankLines).toNat - (n + 1) = 0 by omega]
      rfl

/-- A comment ends the run of blank lines before it. -/
theorem normalizeAfter_ended (ends : ∀ c ∈ rest.head?, c.blank = false) (n : Nat) :
    pol.normalizeAfter n rest = pol.normalizeAfter 0 rest := by
  cases rest with
  | nil => rfl
  | cons c rest =>
    have shows : ¬ c.blank = true := by simp [ends c rfl]
    rw [Policy.normalizeAfter, Policy.normalizeAfter, if_neg shows, if_neg shows]

/-- Items are blank lines up to the first comment. -/
theorem items_induction {P : List Comment → Prop} (nil : P [])
    (blanks : ∀ run rest, run ≠ [] → (∀ c ∈ run, c.blank = true) → (∀ c ∈ rest.head?, c.blank = false) → P rest →
      P (run ++ rest))
    (comment : ∀ c rest, c.blank = false → P rest → P (c :: rest)) (items : List Comment) : P items := by
  match items with
  | [] => exact nil
  | c :: rest =>
    by_cases blank : c.blank = true
    · have split : c :: rest = (c :: rest.takeWhile (·.blank)) ++ rest.dropWhile (·.blank) := by
        rw [List.cons_append, List.takeWhile_append_dropWhile]
      have shorter := (List.dropWhile_suffix (fun c : Comment => c.blank) (l := rest)).length_le
      rw [split]
      refine blanks _ _ (List.cons_ne_nil _ _) ?_ ?_ (items_induction nil blanks comment _)
      · intro d member
        rcases List.mem_cons.mp member with rfl | early
        · exact blank
        · exact List.all_eq_true.mp (List.all_takeWhile (p := fun c : Comment => c.blank)) d early
      · intro d member
        have stopped := List.head?_dropWhile_not (fun c : Comment => c.blank) rest
        rw [Option.mem_def.mp member] at stopped
        exact stopped
    · exact comment c rest (by simpa using blank) (items_induction nil blanks comment rest)
termination_by items.length

end Runs

/-- Normalizing keeps what comments show, and how many blank lines stand between them, up to the number that
is allowed. -/
theorem normalize_keeps_content (pol : Policy) (items : List Comment)
    (valid : ∀ c ∈ items, c.text.wellFormed = true) : ItemsTidied pol items (pol.normalize items) := by
  unfold Policy.normalize
  induction items using items_induction with
  | nil => exact .nil
  | blanks run rest filled blank ends ih =>
    have later := ih fun c member => valid c (List.mem_append_right run member)
    have cut : run.take ((max 0 pol.maxBlankLines).toNat - 0) =
        run.take (min run.length (max 0 pol.maxBlankLines).toNat) := by
      rw [Nat.sub_zero, Nat.min_comm, ← List.take_take, List.take_length]
    rw [normalizeAfter_blanks 0 blank, normalizeAfter_ended ends, cut]
    exact .blanks filled blank ends later
  | comment c rest shows ih =>
    have later := ih fun d member => valid d (List.mem_cons_of_mem c member)
    obtain ⟨filled, alike, kept⟩ := wrap_kept pol shows
    rw [Policy.normalizeAfter, if_neg (by simp [shows])]
    exact .comment shows filled alike (kept (valid c List.mem_cons_self)) later

/-- A comment of two lines that is wrapped to more, between runs of blank lines. -/
theorem normalize_keeps_content_wrapped :
    let items : List Comment := [blankLine, blankLine, .line "--" " één two-three \n four", blankLine]
    (∀ c ∈ items, c.text.wellFormed = true) ∧
      (Policy.mk 1 10).normalize items =
        [blankLine, .line "--" " één two-", .line "--" " three", .line "--" " four", blankLine] ∧
      ItemsTidied ⟨1, 10⟩ items ((Policy.mk 1 10).normalize items) := by
  intro items
  have valid : ∀ c ∈ items, c.text.wellFormed = true := by decide +kernel
  exact ⟨valid, by decide +kernel, normalize_keeps_content ⟨1, 10⟩ items valid⟩

end Galley.Comment.Normalizing
