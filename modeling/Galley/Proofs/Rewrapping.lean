import Galley.Proofs.Normalizing

/-! Comments that are normalized again. A wrap takes the characters of a line, from the first word of it on, as
it would take them on their own: what it wrote before makes no difference, and a word that begins a line is held
back to its end. So a line that was ended is left alone by the same wrap. Main statement: normalizing comments
of one line each once is enough. -/
namespace Galley.Comment.Rewrapping
open Galley.Text
open Galley.Text.Glyphs
open Wrapping (text_cons page page_lines lines_plain WordOverflows WrapReads step_reads)
open Normalizing

section Refolding

/-- A wrap with something written before all of its own. -/
def after (before : List Text) (w : Wrap) : Wrap := { w with pieces := w.pieces ++ before }

/-- What a wrap would write of some characters on their own, when it takes them from the start of a line. -/
def alone (limit : Nat) (cs : List Nat) : Wrap := cs.foldl (Wrap.step limit) Wrap.start

/-- Characters that are left on one line. -/
def LineSettled (limit : Nat) (cs : List Nat) : Prop := (alone limit cs).addWord.text = ofCodes cs

/-- Characters that neither begin nor end with white space. -/
def EdgesSharp (cs : List Nat) : Prop :=
  (∀ c ∈ cs.head?, isSpace c = false) ∧ ∀ c ∈ cs.getLast?, isSpace c = false

/-- A wrap with nothing before its word. -/
def lone (word : List Nat) (escaped : Bool) : Wrap := ⟨[], 0, [], word, escaped⟩

/-- Where a wrap stands on its current line: as `v`, which took the characters of this line alone. The lines
before it are settled, and so is what is written of it. -/
structure Refolds (limit : Nat) (read : List Nat) (done : List (List Nat)) (line : List Nat) (v : Wrap) : Prop where
  taken : alone limit (line ++ v.space ++ v.word) = v
  spelt : v.text = ofCodes line
  /-- The word is held back wherever it begins. -/
  word : alone limit v.word = lone v.word v.escaped
  ends : line ++ v.space ++ v.word <:+ read
  settled : LineSettled limit line
  sharp : EdgesSharp line
  ended : ∀ l ∈ done, LineSettled limit l ∧ EdgesSharp l ∧ l ⊆ read
  fresh : line = [] → v.space = []
  begun : read = [] ∨ line ≠ [] ∨ v.word ≠ []
  first : ∀ c ∈ v.word.head?, isSpace c = false
  /-- White space may stand in an escape sequence, but does not end it. -/
  last : v.escaped = false → ∀ c ∈ v.word.getLast?, isSpace c = false

variable {limit : Nat} {read line : List Nat} {done : List (List Nat)} {v w : Wrap} {c : Nat}

theorem alone_concat (cs : List Nat) (c : Nat) : alone limit (cs ++ [c]) = (alone limit cs).step limit c := by
  rw [alone, List.foldl_append]
  rfl

theorem addWord_after (before : List Text) (w : Wrap) : (after before w).addWord = after before w.addWord := by
  unfold Wrap.addWord after
  dsimp only
  split <;> rfl

/-- A wrap does one of these things only. -/
theorem step_of_reads (plain : c ≠ 0x0a) (reads : WrapReads limit w c v) : w.step limit c = v := by
  have blank : isSpace Text.escape = false ∧ isSpace 0x2d = false := by decide
  have other : Text.escape ≠ 0x2d := by decide
  have own := step_reads limit w plain
  generalize w.step limit c = u at own ⊢
  cases own <;> cases reads <;> simp_all

/-- What was written before does not matter. -/
theorem step_after (limit : Nat) (before : List Text) (w : Wrap) (plain : c ≠ 0x0a) :
    (after before w).step limit c = after before (w.step limit c) := by
  apply step_of_reads plain
  have spaced : (after before w).addSpace = after before w.addSpace := rfl
  have reads := step_reads limit w plain
  generalize w.step limit c = v at reads ⊢
  cases reads with
  | escape code => exact .escape code
  | inside other opened => exact .inside other opened
  | space calm space =>
    have read : WrapReads limit (after before w) c _ := .space calm space
    rwa [addWord_after] at read
  | hyphen calm code =>
    have read : WrapReads limit (after before w) c _ := .hyphen calm code
    rwa [spaced, addWord_after] at read
  | held other calm visible joined fits => exact .held other calm visible joined fits
  | full other calm visible joined full => exact .full other calm visible joined full

/-- A word that begins a line is held back: if it fits on a line, it fits on this one. -/
theorem lone_held (limit : Nat) (word : List Nat) (plain : c ≠ 0x0a) (other : c ≠ Text.escape)
    (visible : isSpace c = false) (joined : c ≠ 0x2d) :
    (lone word false).step limit c = lone (word ++ [c]) false := by
  apply step_of_reads plain
  refine .held other rfl visible joined ?_
  rintro ⟨beyond, within⟩
  simp only [lone, Wrap.spaceLength, ofCodes, List.flatMap_nil, List.length_nil] at beyond within
  omega

theorem sharp_nil : EdgesSharp [] := by
  constructor <;> intro c member <;> cases member

theorem refolds_start (limit : Nat) : Refolds limit [] [] [] Wrap.start where
  taken := rfl
  spelt := rfl
  word := rfl
  ends := List.suffix_refl []
  settled := rfl
  sharp := sharp_nil
  ended := fun l member => absurd member List.not_mem_nil
  fresh := fun _ => rfl
  begun := .inl rfl
  first := fun c member => by cases member
  last := fun _ c member => by cases member

variable (refolds : Refolds limit read done line v)
include refolds

theorem calm_of_empty (empty : v.word = []) : v.escaped = false := by
  have word := refolds.word
  rw [empty] at word
  exact (congrArg Wrap.escaped word).symm

/-- The current line, as far as it is read, begins with something that shows. -/
theorem head_taken : ∀ c ∈ (line ++ v.space ++ v.word).head?, isSpace c = false := by
  intro c member
  cases begins : line with
  | nil =>
    rw [begins, refolds.fresh begins, List.nil_append, List.nil_append] at member
    exact refolds.first c member
  | cons d more =>
    rw [begins] at member
    apply refolds.sharp.1 c
    rw [begins]
    exact member

theorem text_taken (filled : v.word ≠ []) : v.addWord.text = ofCodes (line ++ v.space ++ v.word) := by
  rw [(addWord_filled filled).1, refolds.spelt, ← ofCodes_append, List.append_assoc]

theorem settled_taken (filled : v.word ≠ []) : LineSettled limit (line ++ v.space ++ v.word) := by
  rw [LineSettled, refolds.taken, text_taken refolds filled]

theorem ended_after (c : Nat) : ∀ l ∈ done, LineSettled limit l ∧ EdgesSharp l ∧ l ⊆ read ++ [c] := by
  intro l member
  obtain ⟨settled, sharp, known⟩ := refolds.ended l member
  exact ⟨settled, sharp, fun d inside => List.mem_append_left [c] (known inside)⟩

omit refolds

theorem suffix_concat {cs : List Nat} (ends : cs <:+ read) (c : Nat) : cs ++ [c] <:+ read ++ [c] := by
  obtain ⟨before, rfl⟩ := ends
  exact ⟨before, by rw [List.append_assoc]⟩

include refolds

/-- Another character of the word, which would have been held back too if the word had begun the line. -/
theorem refolds_extend {escaped : Bool}
    (stepped : v.step limit c = { v with word := v.word ++ [c], escaped := escaped })
    (held : (lone v.word v.escaped).step limit c = lone (v.word ++ [c]) escaped)
    (first : v.word ≠ [] ∨ isSpace c = false) (last : escaped = false → isSpace c = false) :
    Refolds limit (read ++ [c]) done line { v with word := v.word ++ [c], escaped := escaped } where
  taken := by
    show alone limit (line ++ v.space ++ (v.word ++ [c])) = _
    rw [← List.append_assoc, alone_concat, refolds.taken, stepped]
  spelt := refolds.spelt
  word := by
    show alone limit (v.word ++ [c]) = _
    rw [alone_concat, refolds.word, held]
  ends := by
    show line ++ v.space ++ (v.word ++ [c]) <:+ read ++ [c]
    rw [← List.append_assoc]
    exact suffix_concat refolds.ends c
  settled := refolds.settled
  sharp := refolds.sharp
  ended := ended_after refolds c
  fresh := refolds.fresh
  begun := .inr (.inr (by simp))
  first := by
    intro d member
    cases begins : v.word with
    | nil =>
      have same : c = d := by simpa [begins] using member
      rw [← same]
      exact first.resolve_left fun filled => filled begins
    | cons e more =>
      apply refolds.first d
      simpa [begins] using member
  last := by
    intro calm d member
    have same : c = d := by simpa using member
    rw [← same]
    exact last calm

/-- A character after which no word is held back. -/
theorem refolds_write {v' : Wrap} {line' : List Nat}
    (stepped : v.step limit c = v') (empty : v'.word = []) (calm : v'.escaped = false)
    (whole : line' ++ v'.space = line ++ v.space ++ v.word ++ [c]) (spelt : v'.text = ofCodes line')
    (settled : LineSettled limit line') (sharp : EdgesSharp line') (filled : line' ≠ []) :
    Refolds limit (read ++ [c]) done line' v' where
  taken := by rw [empty, List.append_nil, whole, alone_concat, refolds.taken, stepped]
  spelt := spelt
  word := by
    rw [empty, calm]
    rfl
  ends := by
    rw [empty, List.append_nil, whole]
    exact suffix_concat refolds.ends c
  settled := settled
  sharp := sharp
  ended := ended_after refolds c
  fresh := fun none => absurd none filled
  begun := .inr (.inl filled)
  first := by
    rw [empty]
    intro d member
    cases member
  last := by
    rw [empty]
    intro _ d member
    cases member

/-- A blank. The word before it is written. -/
theorem refolds_space (stepped : v.step limit c = { v.addWord with space := v.addWord.space ++ [c] })
    (calm : v.escaped = false) (begun : read ≠ []) : ∃ line', Refolds limit (read ++ [c]) done line' (v.step limit c) := by
  by_cases empty : v.word = []
  · have filled : line ≠ [] := by
      rcases refolds.begun with none | filled | word
      · exact absurd none begun
      · exact filled
      · exact absurd empty word
    rw [addWord_empty empty] at stepped
    rw [stepped]
    refine ⟨line, refolds_write refolds stepped empty calm ?_ refolds.spelt refolds.settled refolds.sharp filled⟩
    rw [empty, List.append_nil, List.append_assoc]
  · rw [stepped]
    refine ⟨line ++ v.space ++ v.word, refolds_write refolds stepped (word_addWord v) ?_ ?_
      (text_taken refolds empty) (settled_taken refolds empty) ?_ ?_⟩
    · exact (escaped_addWord v).trans calm
    · rw [(addWord_filled empty).2, List.nil_append]
    · refine ⟨head_taken refolds, ?_⟩
      intro d member
      apply refolds.last calm d
      rwa [List.getLast?_append_of_ne_nil _ empty] at member
    · simp [empty]

/-- A hyphen. All before it is written. -/
theorem refolds_hyphen
    (stepped : v.step limit 0x2d = { v.addSpace.addWord with pieces := [0x2d] :: v.addSpace.addWord.pieces })
    (calm : v.escaped = false) :
    Refolds limit (read ++ [0x2d]) done (line ++ v.space ++ v.word ++ [0x2d]) (v.step limit 0x2d) := by
  have space : v.addSpace.addWord.space = [] := by
    unfold Wrap.addWord
    split <;> rfl
  have before : v.addSpace.addWord.text = ofCodes (line ++ v.space ++ v.word) := by
    have spaced : v.addSpace.text = ofCodes (line ++ v.space) := by rw [text_addSpace, refolds.spelt, ofCodes_append]
    by_cases empty : v.word = []
    · rw [addWord_empty (w := v.addSpace) empty, spaced, empty, List.append_nil]
    · rw [(addWord_filled (w := v.addSpace) empty).1, spaced, ← ofCodes_append]
      rfl
  have whole : (v.step limit 0x2d).text = ofCodes (line ++ v.space ++ v.word ++ [0x2d]) := by
    rw [stepped, text_cons (w := v.addSpace.addWord) rfl, before, ofCodes_append _ [0x2d]]
    rfl
  have empty : (v.step limit 0x2d).word = [] := by
    rw [stepped]
    exact word_addWord v.addSpace
  refine refolds_write refolds rfl empty ?_ ?_ whole ?_ ?_ ?_
  · rw [stepped]
    exact (escaped_addWord v.addSpace).trans calm
  · rw [stepped, space, List.append_nil]
  · rw [LineSettled, alone_concat, refolds.taken, addWord_empty empty, whole]
  · constructor
    · intro d member
      cases begins : line ++ v.space ++ v.word with
      | nil =>
        rw [begins] at member
        obtain rfl : 0x2d = d := by simpa using member
        rfl
      | cons e more =>
        rw [begins] at member
        apply head_taken refolds d
        rw [begins]
        exact member
    · intro d member
      obtain rfl : 0x2d = d := by simpa using member
      rfl
  · simp

theorem refolds_inside : line ⊆ read := by
  intro c member
  apply refolds.ends.subset
  rw [List.append_assoc]
  exact List.mem_append_left _ member

/-- A character for whose word a line is ended: the word begins the next one. -/
theorem refolds_fold (calm : v.escaped = false)
    (held : (lone v.word false).step limit c = lone (v.word ++ [c]) false) (visible : isSpace c = false) :
    Refolds limit (read ++ [c]) (done ++ [line]) [] (lone (v.word ++ [c]) false) := by
  have word : alone limit (v.word ++ [c]) = lone (v.word ++ [c]) false := by
    rw [alone_concat, refolds.word, calm, held]
  have ends : v.word ++ [c] <:+ read ++ [c] := by
    apply suffix_concat
    exact (List.suffix_append _ _).trans refolds.ends
  have inside := refolds_inside refolds
  refine ⟨word, rfl, word, ends, rfl, sharp_nil, ?ended, fun _ => rfl, .inr (.inr ?begun), ?first, ?last⟩
  case ended =>
    intro l member
    rcases List.mem_append.mp member with early | late
    · exact ended_after refolds c l early
    · obtain rfl := List.mem_singleton.mp late
      exact ⟨refolds.settled, refolds.sharp, fun d among => List.mem_append_left [c] (inside among)⟩
  case begun => simp [lone]
  case first =>
    intro d member
    cases begins : v.word with
    | nil =>
      obtain rfl : c = d := by simpa [lone, begins] using member
      exact visible
    | cons e more =>
      apply refolds.first d
      simpa [lone, begins] using member
  case last =>
    intro _ d member
    obtain rfl : c = d := by simpa [lone] using member
    exact visible

omit refolds

/-- An escape sequence ends with a letter. -/
theorem endsEscape_visible (ends : endsEscape c = true) : isSpace c = false := by
  simp only [endsEscape, Bool.or_eq_true, Bool.and_eq_true, decide_eq_true_eq] at ends
  rw [isSpace, if_pos (by omega)]
  simp only [Bool.or_eq_false_iff, Bool.and_eq_false_iff, decide_eq_false_iff_not, beq_eq_false_iff_ne]
  omega

/-- One character of a text that begins with something that shows. The line that is current afterwards is this
one, or the next. -/
theorem step_refolds (refolds : Refolds limit read done line v) (plain : c ≠ 0x0a)
    (visible : read = [] → isSpace c = false) :
    (∃ line', Refolds limit (read ++ [c]) done line' (v.step limit c)) ∨
      ∃ u, v.step limit c = after ([0x0a] :: v.pieces) u ∧ Refolds limit (read ++ [c]) (done ++ [line]) [] u := by
  have begun : isSpace c = true → read ≠ [] := by
    intro space none
    rw [visible none] at space
    cases space
  have reads := step_reads limit v plain
  generalize stepped : v.step limit c = v' at reads ⊢
  cases reads with
  | escape code =>
    refine .inl ⟨line, refolds_extend refolds stepped ?_ (.inr ?_) fun closed => by cases closed⟩
    · exact step_of_reads plain (.escape code)
    · rw [code]
      rfl
  | inside other opened =>
    have filled : v.word ≠ [] := by
      intro empty
      rw [calm_of_empty refolds empty] at opened
      cases opened
    refine .inl ⟨line, refolds_extend refolds stepped ?_ (.inl filled) ?_⟩
    · exact step_of_reads plain (.inside other opened)
    · intro closed
      exact endsEscape_visible (by simpa using closed)
  | space calm space =>
    rw [← stepped]
    exact .inl (refolds_space refolds stepped calm (begun space))
  | hyphen calm code =>
    subst code
    rw [← stepped]
    exact .inl ⟨_, refolds_hyphen refolds stepped calm⟩
  | held other calm seen joined fits =>
    have held := lone_held limit v.word plain other seen joined
    rw [← calm] at held
    exact .inl ⟨line, refolds_extend refolds stepped held (.inr seen) fun _ => seen⟩
  | full other calm seen joined full =>
    have held := lone_held limit v.word plain other seen joined
    refine .inr ⟨lone (v.word ++ [c]) false, ?_, refolds_fold refolds calm held seen⟩
    rw [Wrap.addLine, calm]
    rfl

/-- All the characters, in their order. -/
theorem run_refolds (before : List Text) (refolds : Refolds limit read done line v)
    (spelt : before.reverse.flatten = ofCodes (page done [])) (cs : List Nat) (plain : 0x0a ∉ cs)
    (visible : read = [] → ∀ c ∈ cs.head?, isSpace c = false) :
    ∃ done' line' v' before', Refolds limit (read ++ cs) done' line' v' ∧
      before'.reverse.flatten = ofCodes (page done' []) ∧
      cs.foldl (Wrap.step limit) (after before v) = after before' v' := by
  induction cs generalizing read done line v before with
  | nil =>
    rw [List.append_nil]
    exact ⟨done, line, v, before, refolds, spelt, rfl⟩
  | cons c cs ih =>
    have other : c ≠ 0x0a := fun same => plain (same ▸ List.mem_cons_self)
    have rest : 0x0a ∉ cs := fun member => plain (List.mem_cons_of_mem c member)
    have next {P : Prop} : read ++ [c] = [] → P := fun none => absurd none (by simp)
    rw [List.foldl_cons, step_after limit before v other, ← List.singleton_append, ← List.append_assoc]
    rcases step_refolds refolds other fun none => visible none c rfl with ⟨line', same⟩ | ⟨u, folded, fresh⟩
    · exact ih before same spelt rest next
    · have whole : ([0x0a] :: v.pieces ++ before).reverse.flatten = ofCodes (page (done ++ [line]) []) := by
        have newline : ofCodes [0x0a] = [0x0a] := by decide
        have text : v.pieces.reverse.flatten = ofCodes line := refolds.spelt
        simp only [List.cons_append, List.reverse_cons, List.reverse_append, List.flatten_append,
          List.flatten_singleton, spelt, text, page, List.flatMap_append, List.flatMap_singleton, List.append_nil,
          ofCodes_append, newline, List.append_assoc]
      have moved : after before (v.step limit c) = after ([0x0a] :: v.pieces ++ before) u := by
        rw [folded]
        simp [after]
      rw [moved]
      exact ih _ fresh whole rest next

/-- The line on which a text ends is settled too, with the word that is held back to its end. -/
theorem refolds_last (refolds : Refolds limit read done line v) (ends : ∀ c ∈ read.getLast?, isSpace c = false) :
    ∃ last, v.addWord.text = ofCodes last ∧ LineSettled limit last ∧ EdgesSharp last ∧ last ⊆ read := by
  by_cases empty : v.word = []
  · refine ⟨line, ?_, refolds.settled, refolds.sharp, refolds_inside refolds⟩
    rw [addWord_empty empty, refolds.spelt]
  · refine ⟨line ++ v.space ++ v.word, text_taken refolds empty, settled_taken refolds empty,
      ⟨head_taken refolds, ?_⟩, refolds.ends.subset⟩
    intro c stop
    obtain ⟨front, split⟩ := refolds.ends
    apply ends c
    rw [← split, List.getLast?_append_of_ne_nil _ (by simp [empty])]
    exact stop

theorem sharp_codes {t : Text} (firm : EdgesVisible t.glyphs) : EdgesSharp t.codes := by
  constructor
  · intro c first
    rw [codes, List.head?_map] at first
    obtain ⟨g, start, rfl⟩ := Option.map_eq_some_iff.mp first
    exact firm.1 g start
  · intro c last
    rw [codes, List.getLast?_map] at last
    obtain ⟨g, stop, rfl⟩ := Option.map_eq_some_iff.mp last
    exact firm.2 g stop

theorem firm_ofCodes {cs : List Nat} (sharp : EdgesSharp cs) : EdgesVisible (ofCodes cs).glyphs := by
  rw [glyphs_spelt]
  constructor
  · intro g first
    rw [List.head?_map] at first
    obtain ⟨c, start, rfl⟩ := Option.map_eq_some_iff.mp first
    exact isSpace_scalar (sharp.1 c start)
  · intro g last
    rw [List.getLast?_map] at last
    obtain ⟨c, stop, rfl⟩ := Option.map_eq_some_iff.mp last
    exact isSpace_scalar (sharp.2 c stop)

/-- Characters of a text are spelt as they are. -/
theorem scalar_within {t : Text} {cs : List Nat} (inside : cs ⊆ t.codes) : cs.map scalar = cs := by
  have same := List.map_inj_left.mp ((codes_scalar t).trans (List.map_id _).symm)
  exact (List.map_inj_left.mpr fun c member => same c (inside member)).trans (List.map_id cs)

theorem wrapText_eq (limit : Nat) {t : Text} (plain : 0x0a ∉ t) (firm : EdgesVisible t.glyphs) :
    ∃ ls : List (List Nat), wrapText limit t = ls.map ofCodes ∧
      ∀ l ∈ ls, LineSettled limit l ∧ EdgesSharp l ∧ l ⊆ t.codes := by
  have single : 0x0a ∉ t.codes := fun read => plain (mem_of_code (b := 0x0a) (by decide) read)
  have ends := sharp_codes firm
  obtain ⟨done, line, v, before, refolds, spelt, run⟩ :=
    run_refolds [] (refolds_start limit) rfl t.codes single fun _ => ends.1
  rw [List.nil_append] at refolds
  obtain ⟨last, written, settled, sharp, inside⟩ := refolds_last refolds ends.2
  have text : (after before v).addWord.text = ofCodes (page done last) := by
    have joined : (after before v.addWord).text = before.reverse.flatten ++ v.addWord.text := by
      simp [after, Wrap.text]
    rw [addWord_after, joined, spelt, written, ← ofCodes_append, page, page, List.append_nil]
  have split := page_lines (fun l early newline => single ((refolds.ended l early).2.2 newline))
    fun newline => single (inside newline)
  refine ⟨done ++ [last], ?_, ?_⟩
  · show (Wrap.addWord (List.foldl (Wrap.step limit) (after [] Wrap.start) t.codes)).text.lines = _
    rw [run, text, split, List.map_append]
    rfl
  · intro l among
    rcases List.mem_append.mp among with early | late
    · exact refolds.ended l early
    · obtain rfl := List.mem_singleton.mp late
      exact ⟨settled, sharp, inside⟩

/-- The lines of a wrapped text are left alone by the same wrap. -/
theorem wrapText_settled (limit : Nat) {t l : Text} (plain : 0x0a ∉ t) (firm : EdgesVisible t.glyphs)
    (member : l ∈ wrapText limit t) : trim l = l ∧ wrapText limit l = [l] := by
  obtain ⟨ls, whole, each⟩ := wrapText_eq limit plain firm
  rw [whole] at member
  obtain ⟨cs, among, rfl⟩ := List.mem_map.mp member
  obtain ⟨settled, sharp, inside⟩ := each cs among
  refine ⟨trim_of_firm (firm_ofCodes sharp), ?_⟩
  rw [wrapText, codes_ofCodes, scalar_within inside]
  show (alone limit cs).addWord.text.lines = _
  rw [settled]
  apply lines_plain
  intro byte
  have code := inside (mem_of_ofCodes (b := 0x0a) (by decide) byte)
  exact plain (mem_of_code (b := 0x0a) (by decide) code)

/-- Comments that a comment is wrapped into are left alone by the same policy. -/
theorem wrap_settled {pol : Policy} {c d : Comment} (plain : 0x0a ∉ c.text) (member : d ∈ pol.wrap c) :
    pol.wrap d = [d] := by
  unfold Policy.wrap at member
  dsimp only at member
  split at member
  · next whole =>
    obtain rfl := List.mem_singleton.mp member
    exact if_pos whole
  · obtain ⟨l, inside, rfl⟩ := List.mem_map.mp member
    have single : 0x0a ∉ trim c.text := fun newline => plain (mem_trim newline)
    obtain ⟨trimmed, settled⟩ := wrapText_settled _ single (firm_trim c.text) inside
    have body : trim (line c.marker (0x20 :: l)).text = l := by
      have read : glyphs (0x20 :: l) = ⟨0x20, [0x20]⟩ :: l.glyphs := glyphs_ascii (by decide) [] l
      rw [line, trim, read, List.dropWhile_cons_of_pos (by decide)]
      exact trimmed
    rw [trimmed]
    unfold Policy.wrap
    dsimp only
    rw [body]
    split
    · rfl
    · show (wrapText (pol.wrapWidth - c.marker.length - 1).toNat l).map _ = _
      rw [settled, List.map_singleton, trimmed]
      rfl

/-- Comments that are left alone, before other items. -/
theorem normalizeAfter_settled {pol : Policy} (n : Nat) {settled : List Comment} (filled : settled ≠ [])
    (shows : ∀ d ∈ settled, d.blank = false ∧ pol.wrap d = [d]) (rest : List Comment) :
    pol.normalizeAfter n (settled ++ rest) = settled ++ pol.normalizeAfter 0 rest := by
  induction settled generalizing n with
  | nil => exact absurd rfl filled
  | cons d more ih =>
    obtain ⟨shown, whole⟩ := shows d List.mem_cons_self
    rw [List.cons_append, Policy.normalizeAfter, if_neg (by simp [shown]), whole, List.singleton_append]
    cases more with
    | nil => rfl
    | cons e more =>
      rw [ih 0 (List.cons_ne_nil e more) fun f member => shows f (List.mem_cons_of_mem d member)]
      rfl

/-- What is kept after a run of blank lines is kept after a shorter one. -/
theorem normalizeAfter_again {pol : Policy} {items : List Comment} (single : ∀ c ∈ items, 0x0a ∉ c.text)
    {m n : Nat} (less : m ≤ n) :
    pol.normalizeAfter m (pol.normalizeAfter n items) = pol.normalizeAfter n items := by
  induction items generalizing m n with
  | nil => rfl
  | cons c items ih =>
    have later {m n : Nat} (less : m ≤ n) := ih (fun d member => single d (List.mem_cons_of_mem c member)) less
    by_cases blank : c.blank = true
    · rw [Policy.normalizeAfter, if_pos blank]
      dsimp only
      split
      · next allowed =>
        rw [Policy.normalizeAfter, if_pos blank, later (by omega)]
        exact if_pos (by omega)
      · exact later (by omega)
    · have shows : c.blank = false := by simpa using blank
      obtain ⟨filled, alike, -⟩ := wrap_kept pol shows
      rw [Policy.normalizeAfter, if_neg blank, normalizeAfter_settled m filled, later (Nat.le_refl 0)]
      intro d member
      exact ⟨(alike d member).1, wrap_settled (single c List.mem_cons_self) member⟩

end Refolding

/-- Normalizing once is enough. What is left of comments on one line each is left alone, also where a line is
still too long. -/
theorem normalize_idempotent (pol : Policy) (items : List Comment) (single : ∀ c ∈ items, 0x0a ∉ c.text) :
    pol.normalize (pol.normalize items) = pol.normalize items :=
  normalizeAfter_again single (Nat.le_refl 0)

/-- A word that is too long for any line, and one that is cut at its hyphens. -/
theorem normalize_idempotent_long :
    let items : List Comment := [blankLine, blankLine, .line "#" "an unbreakable-é-word"]
    (∀ c ∈ items, 0x0a ∉ c.text) ∧
      (Policy.mk 0 6).normalize items = [.line "#" " an", .line "#" " unbreakable-", .line "#" " é-word"] ∧
      (Policy.mk 0 6).normalize ((Policy.mk 0 6).normalize items) = (Policy.mk 0 6).normalize items := by
  intro items
  have single : ∀ c ∈ items, 0x0a ∉ c.text := by decide +kernel
  exact ⟨single, by decide +kernel, normalize_idempotent ⟨0, 6⟩ items single⟩

end Galley.Comment.Rewrapping
