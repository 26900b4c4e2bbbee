import Mathlib.Algebra.Group.Nat.Defs
import Galley.Proofs.QuotedReading
import Galley.Yaml.Layout

/-! Scalars that are written and read again. The spelling of every character between double quotes is read as this
character, and a quote that is doubled between single quotes is read as one. Main statement: a scalar in double quotes
reads back, and one in single quotes reads back if its value has no line ends; a line end stands there as it is, and
is folded when it is read. -/
namespace Galley.Yaml.ScalarReading
open Text.Glyphs QuotedReading
open Layout.PageWriting (ok_bind)
open Node (scalarText needsQuotes isNull)

section Folding

variable {double : Bool} {rest gaps seen cs value : List Char} {c : Char}

theorem lineEnds_pair (gaps : List Char) : lineEnds ('\r' :: '\n' :: gaps) = '\n' :: lineEnds gaps := by
  rw [lineEnds]

theorem lineEnds_single (alone : ∀ more, c = '\r' → gaps = '\n' :: more → False) :
    lineEnds (c :: gaps) = if isBreak c then lineEnd c :: lineEnds gaps else lineEnds gaps := by
  rw [lineEnds]
  exact alone

/-- A gap has line ends as read if it has line ends. -/
theorem lineEnds_nil_iff : lineEnds gaps = [] ↔ ∀ c ∈ gaps, isBreak c = false := by
  induction gaps using lineEnds.induct with
  | case1 => simp [lineEnds]
  | case2 gaps ih =>
    rw [lineEnds_pair]
    simp [show isBreak '\n' = true from rfl]
  | case3 c gaps alone breaks ih =>
    rw [lineEnds_single alone, if_pos breaks]
    simp [breaks]
  | case4 c gaps alone blank ih =>
    rw [lineEnds_single alone, if_neg blank, ih]
    simp [blank]

/-- A gap inside a line is kept. -/
theorem foldedGap_inside (inside : ∀ c ∈ gaps, isBreak c = false) : foldedGap gaps = gaps := by
  rw [foldedGap, lineEnds_nil_iff.mpr inside]

/-- A body may start with a gap, if it goes on with a word of no new document. -/
theorem body_gap {value : Option (List Char)} (spacing : ∀ c ∈ gaps, isSpacing c = true)
    (ends : ∀ c ∈ rest.head?, isGap c = false)
    (clear : ¬(gaps.getLast?.any isBreak = true ∧ marked (rest ++ [closing double]) = true))
    (later : QuotedBody double rest value) : QuotedBody double (gaps ++ rest) (value.map (foldedGap gaps ++ ·)) := by
  cases gaps with
  | nil =>
    rw [foldedGap_inside (by simp)]
    simpa using later
  | cons c gaps => exact .gap spacing (List.cons_ne_nil _ _) ends clear later

/-- The characters that are read between single quotes for some characters, after a gap: gaps are folded. There are
none if a line ends the document. -/
def folded (seen : List Char) : List Char → Option (List Char)
  | [] => some (foldedGap seen)
  | c :: cs =>
    if isSpacing c then folded (seen ++ [c]) cs
    else if seen.getLast?.any isBreak && marked (c :: cs ++ ['\x27']) then none
    else (folded [] cs).map (foldedGap seen ++ c :: ·)

theorem plain_inked (inside : isGap c = false) (single : double = false → c ≠ '\x27')
    (quote : double = true → c ≠ '\x22') (escape : double = true → c ≠ '\\') : Inked double [c] c := by
  refine ⟨⟨_, _, rfl, inside⟩, fun start n out s rest stands => ⟨passed s 1, ?_, ?_⟩⟩
  · have first : s.rest.getD 0 endChar = c := by rw [stands]; rfl
    have whole : spelling [c] = Text.encode c.toNat := by simp
    rw [← whole]
    cases double with
    | false =>
      simp only [Lex.quotedWord, StateT.run_bind, peek_run, ok_bind, first, inside, Bool.false_eq_true, ↓reduceIte,
        Bool.not_false, beq_eq_false_iff_ne.mpr (single rfl), Bool.and_false, Bool.false_and, takeRun_run,
        List.length_singleton]
    | true =>
      simp only [Lex.quotedWord, StateT.run_bind, peek_run, ok_bind, first, inside, Bool.false_eq_true, ↓reduceIte,
        Bool.not_true, Bool.false_and, beq_eq_false_iff_ne.mpr (quote rfl), beq_eq_false_iff_ne.mpr (escape rfl),
        Bool.and_false, takeRun_run, List.length_singleton]
  · exact moved_passed _ stands (List.cons_ne_nil _ _)

/-- A quote is written twice between single quotes. -/
def doubled (c : Char) : List Char := if c = '\x27' then ['\x27', '\x27'] else [c]

theorem marked_doubled (cs : List Char) : marked (cs.flatMap doubled ++ ['\x27']) = marked (cs ++ ['\x27']) := by
  -- Only the first four characters count, and a quote among the first three is no mark.
  match cs with
  | [] => rfl
  | [a] => by_cases first : a = '\x27' <;> simp [doubled, marked, first]
  | [a, b] =>
    by_cases first : a = '\x27'
    · simp [doubled, marked, first]
    · by_cases second : b = '\x27' <;> simp [doubled, marked, first, second]
  | a :: b :: c :: cs =>
    by_cases first : a = '\x27'
    · simp [doubled, marked, first]
    by_cases second : b = '\x27'
    · simp [doubled, marked, first, second]
    by_cases third : c = '\x27'
    · simp [doubled, marked, first, second, third]
    cases cs with
    | nil => simp [doubled, first, second, third]
    | cons d cs => by_cases fourth : d = '\x27' <;> simp [doubled, marked, first, second, third, fourth]

theorem doubled_inked (inside : isGap c = false) : Inked false (doubled c) c := by
  unfold doubled
  split
  · next quote =>
    subst quote
    refine ⟨⟨_, _, rfl, inside⟩, fun start n out s rest stands => ⟨passed s 2, ?_, ?_⟩⟩
    · have first : s.rest.getD 0 endChar = '\x27' := by rw [stands]; rfl
      have second : s.rest.getD 1 endChar = '\x27' := by rw [stands]; rfl
      simp only [Lex.quotedWord, StateT.run_bind, peek_run, ok_bind, first, second, inside, Bool.false_eq_true,
        ↓reduceIte, Bool.not_false, beq_self_eq_true, Bool.and_self, ne_eq, not_true_eq_false, skip_run]
      rfl
    · exact moved_passed _ stands (List.cons_ne_nil _ _)
  · next other => exact plain_inked inside (fun _ => other) Bool.noConfusion Bool.noConfusion

/-- Characters between single quotes are read with their gaps folded. -/
theorem body_folded (spacing : ∀ c ∈ seen, isSpacing c = true) (sound : endChar ∉ cs) :
    QuotedBody false (seen ++ cs.flatMap doubled) (folded seen cs) := by
  induction cs generalizing seen with
  | nil =>
    have body : QuotedBody false (seen ++ []) ((some []).map (foldedGap seen ++ ·)) :=
      body_gap spacing (by simp) (by simp [marked]) .close
    simpa [folded] using body
  | cons c cs ih =>
    obtain ⟨other, later⟩ : endChar ≠ c ∧ endChar ∉ cs := by simpa using sound
    unfold folded
    split
    · next blank =>
      have whole : doubled c = [c] := by
        apply if_neg
        rintro rfl
        cases blank
      rw [List.flatMap_cons, whole, ← List.append_assoc]
      apply ih _ later
      intro d member
      rcases List.mem_append.mp member with before | last
      · exact spacing d before
      · rwa [List.mem_singleton.mp last]
    · next word =>
      have inside : isGap c = false := by
        rw [isSpacing_gap, Bool.or_eq_false_iff, beq_eq_false_iff_ne]
        exact ⟨Bool.not_eq_true _ ▸ word, other.symm⟩
      have starts : ∀ d ∈ ((c :: cs).flatMap doubled).head?, isGap d = false := by
        intro d first
        have same : ((c :: cs).flatMap doubled).head? = some c := by
          rw [List.flatMap_cons, doubled]
          split
          · next quote => rw [quote]; rfl
          · rfl
        rw [same] at first
        cases first
        exact inside
      split
      · next marks =>
        rw [Bool.and_eq_true] at marks
        exact .mark spacing starts marks.1 ((marked_doubled _).trans marks.2)
      · next clear =>
        have body := body_gap spacing starts (by
          rintro ⟨line, marks⟩
          exact clear (Bool.and_eq_true _ _ ▸ ⟨line, (marked_doubled _).symm.trans marks⟩))
          (.ink (doubled_inked inside) (@ih [] (by simp) later))
        simpa [Function.comp_def] using body

/-- A value without line ends is read as it is. -/
theorem folded_inside (inside : ∀ c ∈ seen ++ cs, isBreak c = false) : folded seen cs = some (seen ++ cs) := by
  induction cs generalizing seen with
  | nil => rw [folded, foldedGap_inside (by simpa using inside), List.append_nil]
  | cons c cs ih =>
    have before : ∀ d ∈ seen, isBreak d = false := fun d member => inside d (List.mem_append_left _ member)
    have line : seen.getLast?.any isBreak = false := by
      cases last : seen.getLast? with
      | none => rfl
      | some d => exact before d (List.mem_of_getLast? last)
    unfold folded
    split
    · rw [ih (by simpa using inside), List.append_assoc, List.singleton_append]
    · rw [line, Bool.false_and, if_neg Bool.false_ne_true, foldedGap_inside before,
        @ih [] fun d member => inside d (List.mem_append_right _ (List.mem_cons_of_mem _ member))]
      rfl

/-- Line ends that are no separators are read as newlines, and no more than there are. -/
theorem lineEnds_usual (usual : ∀ c ∈ gaps, isBreak c = true → lineEnd c = '\n') :
    (∀ c ∈ lineEnds gaps, c = '\n') ∧ (lineEnds gaps).length ≤ gaps.countP isBreak := by
  induction gaps using lineEnds.induct with
  | case1 => simp [lineEnds]
  | case2 gaps ih =>
    obtain ⟨newlines, few⟩ := ih fun c member => usual c (by simp [member])
    rw [lineEnds_pair]
    refine ⟨by simpa using newlines, ?_⟩
    simp only [List.length_cons, List.countP_cons_of_pos (show isBreak '\n' = true from rfl),
      List.countP_cons_of_pos (show isBreak '\r' = true from rfl)]
    omega
  | case3 c gaps alone breaks ih =>
    obtain ⟨newlines, few⟩ := ih fun c member => usual c (List.mem_cons_of_mem _ member)
    rw [lineEnds_single alone, if_pos breaks, usual c List.mem_cons_self breaks]
    exact ⟨by simpa using newlines, by simpa [breaks] using few⟩
  | case4 c gaps alone blank ih =>
    rw [lineEnds_single alone, if_neg blank, List.countP_cons_of_neg blank]
    exact ih fun c member => usual c (List.mem_cons_of_mem _ member)

/-- Of the line ends of a gap one is lost. -/
theorem foldedGap_count (usual : ∀ c ∈ gaps, isBreak c = true → lineEnd c = '\n') :
    (foldedGap gaps).countP isBreak ≤ gaps.countP isBreak - 1 := by
  obtain ⟨newlines, few⟩ := lineEnds_usual usual
  unfold foldedGap
  cases ends : lineEnds gaps with
  | nil =>
    have inside := lineEnds_nil_iff.mp ends
    have none : gaps.countP isBreak = 0 :=
      List.countP_eq_zero.mpr fun c member => by rw [inside c member]; exact Bool.false_ne_true
    exact none ▸ Nat.zero_le _
  | cons first more =>
    rw [ends] at newlines few
    rw [List.length_cons] at few
    simp only [newlines first List.mem_cons_self, ↓reduceIte]
    split
    · exact Nat.zero_le _
    · exact Nat.le_trans List.countP_le_length (by omega)

/-- A line end is lost from every gap that has one. -/
theorem folded_count (usual : ∀ c ∈ seen ++ cs, isBreak c = true → lineEnd c = '\n')
    (read : folded seen cs = some value) : value.countP isBreak ≤ (seen ++ cs).countP isBreak - 1 := by
  induction cs generalizing seen value with
  | nil =>
    obtain rfl := Option.some.inj read
    simpa using foldedGap_count (by simpa using usual)
  | cons c cs ih =>
    unfold folded at read
    split at read
    · rw [← List.singleton_append, ← List.append_assoc]
      exact ih (by simpa using usual) read
    · next word =>
      split at read
      · cases read
      · obtain ⟨later, ran, rfl⟩ := Option.map_eq_some_iff.mp read
        have inside : ¬isBreak c = true := fun breaks => word (by rw [isSpacing, breaks, Bool.or_true])
        have gap := foldedGap_count fun d member => usual d (List.mem_append_left _ member)
        have rest := @ih [] later
          (fun d member => usual d (List.mem_append_right _ (List.mem_cons_of_mem _ member))) ran
        rw [List.nil_append] at rest
        rw [List.countP_append, List.countP_append, List.countP_cons_of_neg inside, List.countP_cons_of_neg inside]
        omega

/-- A value with line ends that are no separators is read as another one. -/
theorem folded_loses (usual : ∀ c ∈ cs, isBreak c = true → lineEnd c = '\n') (line : ∃ c ∈ cs, isBreak c = true) :
    folded [] cs ≠ some cs := by
  intro same
  have fewer : cs.countP isBreak ≤ ([] ++ cs).countP isBreak - 1 := folded_count usual same
  rw [List.nil_append] at fewer
  have some : 0 < cs.countP isBreak := List.countP_pos_iff.mpr line
  omega

end Folding

section Escapes

variable {c e : Char} {ds cs seen : List Char} {digits k n : Nat}

/-- An escape is read as part of a word. -/
theorem escape_inked (inside : isBreak e = false)
    (read : ∀ start s rest, s.rest = '\\' :: e :: (ds ++ rest) →
      ∃ t, (Lex.escape start).run s = .ok (Text.encode c.toNat, t) ∧ ReadingMoved s rest t) :
    Inked true ('\\' :: e :: ds) c := by
  refine ⟨⟨_, _, rfl, rfl⟩, fun start n out s rest stands => ?_⟩
  obtain ⟨t, ran, moved⟩ := read start s rest stands
  have first : s.rest.getD 0 endChar = '\\' := by rw [stands]; rfl
  have second : s.rest.getD 1 endChar = e := by rw [stands]; rfl
  refine ⟨t, ?_, moved⟩
  simp only [Lex.quotedWord, StateT.run_bind, peek_run, ok_bind, first, second, show isGap '\\' = false from rfl,
    Bool.false_eq_true, ↓reduceIte, Bool.not_true, Bool.false_and, show ('\\' == '\x22') = false from rfl,
    Bool.and_false, beq_self_eq_true, Bool.and_self, inside, ran]

theorem short_inked (inside : isBreak e = false) (short : Lex.shortEscape e = some c.toNat) :
    Inked true ['\\', e] c := by
  apply @escape_inked _ _ [] inside
  intro start s rest stands
  have second : s.rest.getD 1 endChar = e := by rw [stands]; rfl
  refine ⟨passed s 2, ?_, moved_passed ['\\', e] stands (List.cons_ne_nil _ _)⟩
  simp only [Lex.escape, StateT.run_bind, peek_run, ok_bind, second, short, skip_run, pure_run]

theorem long_inked (inside : isBreak e = false) (other : Lex.shortEscape e = none)
    (long : Lex.escapeDigits e = some ds.length) (values : (ds.filterMap Lex.hexDigit?).length = ds.length)
    (code : (ds.filterMap Lex.hexDigit?).foldl (fun v d => v * 16 + d) 0 = c.toNat) (some : ds ≠ []) :
    Inked true ('\\' :: e :: ds) c := by
  apply escape_inked inside
  intro start s rest stands
  have second : s.rest.getD 1 endChar = e := by rw [stands]; rfl
  have moved : ReadingMoved s (ds ++ rest) (passed s 2) :=
    moved_passed ['\\', e] stands (List.cons_ne_nil _ _)
  have run : (passed s 2).rest.take ds.length = ds := by rw [moved.rest, List.take_left]
  have valid : ((0xd800 ≤ c.toNat && c.toNat ≤ 0xdfff) || 0x10ffff < c.toNat) = false := by
    have bounds := char_bounds c
    simp only [Bool.or_eq_false_iff, Bool.and_eq_false_iff, decide_eq_false_iff_not]
    omega
  refine ⟨passed (passed s 2) ds.length, ?_, moved.trans (moved_passed _ moved.rest some)⟩
  simp only [Lex.escape, StateT.run_bind, peek_run, ok_bind, second, other, long, skip_run, StateT.run_get, pure_bind,
    run, values, Nat.lt_irrefl, ↓reduceIte, code, valid, Bool.false_eq_true, pure_run]

/-- The hexadecimal digits of a number, as characters. -/
def hexChars (k n : Nat) : List Char := (Text.hex k n).map fun b => Char.ofNat b.toNat

theorem hexChars_succ (k n : Nat) :
    hexChars (k + 1) n = hexChars k (n / 16) ++ [Char.ofNat (Text.hexDigit false (n % 16)).toNat] := by
  simp [hexChars, Text.hex, Text.hexWith]

theorem hexChars_spelling (k n : Nat) : spelling (hexChars k n) = Text.hex k n := by
  have digit : ∀ d < 16, spelling [Char.ofNat (Text.hexDigit false d).toNat] = [Text.hexDigit false d] := by decide
  induction k generalizing n with
  | zero => rfl
  | succ k ih => rw [hexChars_succ, spelling_append, ih, digit _ (Nat.mod_lt _ (by decide)), Text.hex, Text.hex,
      Text.hexWith]

theorem hexChars_values (k n : Nat) :
    ((hexChars k n).filterMap Lex.hexDigit?).length = k ∧
      ((hexChars k n).filterMap Lex.hexDigit?).foldl (fun v d => v * 16 + d) 0 = n % 16 ^ k := by
  have digit : ∀ d < 16, Lex.hexDigit? (Char.ofNat (Text.hexDigit false d).toNat) = some d := by decide
  induction k generalizing n with
  | zero => exact ⟨rfl, (Nat.mod_one n).symm⟩
  | succ k ih =>
    obtain ⟨size, value⟩ := ih (n / 16)
    have last : [Char.ofNat (Text.hexDigit false (n % 16)).toNat].filterMap Lex.hexDigit? = [n % 16] := by
      rw [List.filterMap_cons, digit _ (Nat.mod_lt _ (by decide))]
      rfl
    rw [hexChars_succ, List.filterMap_append, last, List.length_append, size, List.foldl_append, value]
    refine ⟨rfl, ?_⟩
    simp only [List.foldl_cons, List.foldl_nil]
    rw [Nat.pow_succ, Nat.mul_comm (16 ^ k) 16, Nat.mod_mul]
    omega

theorem hexChars_breaks (k n : Nat) : ∀ d ∈ hexChars k n, isBreak d = false := by
  have digit : ∀ d < 16, isBreak (Char.ofNat (Text.hexDigit false d).toNat) = false := by decide
  induction k generalizing n with
  | zero => simp [hexChars, Text.hex, Text.hexWith]
  | succ k ih =>
    intro d member
    rw [hexChars_succ] at member
    rcases List.mem_append.mp member with before | last
    · exact ih _ d before
    · rw [List.mem_singleton.mp last]
      exact digit _ (Nat.mod_lt _ (by decide))

theorem length_hexChars (k n : Nat) : (hexChars k n).length = k := by
  induction k generalizing n with
  | zero => rfl
  | succ k ih => rw [hexChars_succ, List.length_append, ih, List.length_singleton]

theorem hex_inked (inside : isBreak e = false) (other : Lex.shortEscape e = none)
    (long : Lex.escapeDigits e = some k) (filled : 0 < k) (small : c.toNat < 16 ^ k) :
    Inked true ('\\' :: e :: hexChars k c.toNat) c := by
  obtain ⟨size, value⟩ := hexChars_values k c.toNat
  have length := length_hexChars k c.toNat
  refine long_inked inside other (by rw [length, long]) (by rw [length, size]) ?_ (List.length_pos_iff.mp (by omega))
  rw [value, Nat.mod_eq_of_lt small]

/-- A character that is shown as it is between double quotes is no gap but a space. -/
theorem printable_inside (shown : Text.isPrintable c.toNat = true) (word : c ≠ ' ') : isGap c = false := by
  by_contra gap
  simp only [isGap, isBlank, isLineEnd, isBreak, Bool.not_eq_false, Bool.or_eq_true, beq_iff_eq] at gap
  rcases gap with (rfl | rfl) | (((((rfl | rfl) | rfl) | rfl) | rfl) | rfl)
  · exact word rfl
  all_goals revert shown; decide +kernel

/-- A text that is read between double quotes, inside a line, as a character. -/
def Writes (c : Char) (t : Text) : Prop :=
  ∃ written, spelling written = t ∧ Inked true written c ∧ ∀ d ∈ written, isBreak d = false

theorem writes_ite {P : Prop} [Decidable P] {t u : Text} (yes : P → Writes c t) (no : ¬ P → Writes c u) :
    Writes c (if P then t else u) := iteInduction yes no

theorem short_writes {t : Text} (e : Char) (spelt : spelling ['\\', e] = t) (inside : isBreak e = false)
    (code : Lex.shortEscape e = some c.toNat) : Writes c t :=
  ⟨_, spelt, short_inked inside code, List.forall_mem_cons.mpr ⟨rfl, List.forall_mem_singleton.mpr inside⟩⟩

theorem hex_writes {t : Text} (e : Char) (k : Nat) (spelt : spelling ['\\', e] = t) (inside : isBreak e = false)
    (other : Lex.shortEscape e = none) (digits : Lex.escapeDigits e = some k) (filled : 0 < k)
    (small : c.toNat < 16 ^ k) : Writes c (t ++ Text.hex k c.toNat) := by
  refine ⟨_, ?_, hex_inked inside other digits filled small, ?_⟩
  · rw [← spelt, ← hexChars_spelling, ← spelling_append]
    rfl
  · exact List.forall_mem_cons.mpr ⟨rfl, List.forall_mem_cons.mpr ⟨inside, hexChars_breaks k c.toNat⟩⟩

/-- A character that stands for itself. -/
theorem plain_writes (shown : Text.isPrintable c.toNat = true) (word : c ≠ ' ') (quote : c ≠ '\x22')
    (escape : c ≠ '\\') : Writes c (Text.encode c.toNat) := by
  have inside := printable_inside shown word
  have line : isBreak c = false := by
    rw [isSpacing_gap, isSpacing, Bool.or_eq_false_iff, Bool.or_eq_false_iff] at inside
    exact inside.1.2
  exact ⟨[c], by simp, plain_inked inside Bool.noConfusion (fun _ => quote) (fun _ => escape), by simpa using line⟩

theorem glyph_sound (c : Char) : Text.Glyph.malformed ⟨c.toNat, Text.encode c.toNat⟩ = false := by
  rw [Text.Glyph.malformed, Bool.and_eq_false_iff]
  by_cases lost : c.toNat = Text.replacement
  · rw [lost]
    decide
  · exact .inl (beq_eq_false_iff_ne.mpr lost)

/-- Every character but the space is spelt so that it is read as itself. -/
theorem glyph_writes (c : Char) (word : c ≠ ' ') : Writes c (Text.quoteGlyph ⟨c.toNat, Text.encode c.toNat⟩) := by
  have bounds := char_bounds c
  have code {n : Nat} (same : (c.toNat == n) = true) : c.toNat = n := beq_iff_eq.mp same
  unfold Text.quoteGlyph
  rw [glyph_sound, if_neg Bool.false_ne_true]
  refine writes_ite (fun same => short_writes '\x22' rfl rfl (by rw [code same]; rfl)) fun quote => ?_
  refine writes_ite (fun same => short_writes '\\' rfl rfl (by rw [code same]; rfl)) fun escape => ?_
  refine writes_ite (fun shown => plain_writes shown word ?_ ?_) fun _ => ?_
  · rintro rfl
    exact quote rfl
  · rintro rfl
    exact escape rfl
  refine writes_ite (fun same => short_writes 'a' rfl rfl (by rw [code same]; rfl)) fun _ => ?_
  refine writes_ite (fun same => short_writes 'b' rfl rfl (by rw [code same]; rfl)) fun _ => ?_
  refine writes_ite (fun same => short_writes 'f' rfl rfl (by rw [code same]; rfl)) fun _ => ?_
  refine writes_ite (fun same => short_writes 'n' rfl rfl (by rw [code same]; rfl)) fun _ => ?_
  refine writes_ite (fun same => short_writes 'r' rfl rfl (by rw [code same]; rfl)) fun _ => ?_
  refine writes_ite (fun same => short_writes 't' rfl rfl (by rw [code same]; rfl)) fun _ => ?_
  refine writes_ite (fun same => short_writes 'v' rfl rfl (by rw [code same]; rfl)) fun _ => ?_
  refine writes_ite (fun low => hex_writes 'x' 2 rfl rfl rfl rfl (by decide) ?_) fun _ => ?_
  · simp only [Bool.or_eq_true, decide_eq_true_eq, beq_iff_eq] at low
    omega
  exact writes_ite (fun small => hex_writes 'u' 4 rfl rfl rfl rfl (by decide) small) fun _ =>
    hex_writes 'U' 8 rfl rfl rfl rfl (by decide) (by omega)

/-- Characters between double quotes are spelt inside a line and read as they are. -/
theorem body_quoted (spaces : ∀ c ∈ seen, c = ' ') (cs : List Char) :
    ∃ written, spelling written = cs.flatMap (fun c => Text.quoteGlyph ⟨c.toNat, Text.encode c.toNat⟩) ∧
      (∀ d ∈ written, isBreak d = false) ∧ QuotedBody true (seen ++ written) (some (seen ++ cs)) := by
  have inside {seen : List Char} (spaces : ∀ c ∈ seen, c = ' ') : ∀ c ∈ seen, isBreak c = false := by
    intro c member
    rw [spaces c member]
    rfl
  have spacing {seen : List Char} (spaces : ∀ c ∈ seen, c = ' ') : ∀ c ∈ seen, isSpacing c = true := by
    intro c member
    rw [spaces c member]
    rfl
  have line {seen : List Char} (spaces : ∀ c ∈ seen, c = ' ') : ¬seen.getLast?.any isBreak = true := by
    cases last : seen.getLast? with
    | none => exact Bool.false_ne_true
    | some d =>
      rw [Option.any_some, inside spaces d (List.mem_of_getLast? last)]
      exact Bool.false_ne_true
  induction cs generalizing seen with
  | nil =>
    have body : QuotedBody true (seen ++ []) ((some []).map (foldedGap seen ++ ·)) :=
      body_gap (spacing spaces) (by simp) (fun found => line spaces found.1) .close
    rw [foldedGap_inside (inside spaces)] at body
    exact ⟨[], rfl, by simp, body⟩
  | cons c cs ih =>
    by_cases space : c = ' '
    · subst space
      have spaces : ∀ c ∈ seen ++ [' '], c = ' ' := by
        intro c member
        rcases List.mem_append.mp member with before | last
        · exact spaces c before
        · exact List.mem_singleton.mp last
      obtain ⟨written, spelt, breaks, body⟩ := ih spaces
      refine ⟨' ' :: written, ?_, ?_, by simpa using body⟩
      · rw [spelling_cons, spelt, List.flatMap_cons]
        rfl
      · exact List.forall_mem_cons.mpr ⟨rfl, breaks⟩
    · obtain ⟨first, spelt, inked, within⟩ := glyph_writes c space
      obtain ⟨written, later, breaks, body⟩ := @ih [] (by simp)
      have starts : ∀ d ∈ (first ++ written).head?, isGap d = false := by
        obtain ⟨d, more, rfl, ink⟩ := inked.starts
        rintro e ⟨⟩
        exact ink
      refine ⟨first ++ written, ?_, ?_, ?_⟩
      · rw [spelling_append, spelt, later, List.flatMap_cons]
      · intro d member
        exact (List.mem_append.mp member).elim (within d) (breaks d)
      · have whole := body_gap (spacing spaces) starts (fun found => line spaces found.1) (.ink inked body)
        simpa [foldedGap_inside (inside spaces)] using whole

end Escapes

section Scalars

variable {style : Style} {tag : Option Text} {v : Text} {cs : List Char}

theorem glyphs_spelling (cs : List Char) :
    (spelling cs).glyphs = cs.map fun c => ⟨c.toNat, Text.encode c.toNat⟩ := by
  induction cs with
  | nil => rfl
  | cons c cs ih =>
    rw [spelling_cons, spelling_ofCodes, glyphs_ofCodes, ← spelling_ofCodes, ih, glyphs_encode, char_scalar]
    rfl

/-- A text is read as a quoted scalar, whatever follows it, with some value, or not at all if there is none. -/
def ReadsAs (double : Bool) (text : Text) (value : Option Text) : Prop :=
  ∀ (s : Lexer) (written more : List Char), spelling written = text → s.rest = written ++ more → s.fault = none →
    (double = false → more.head? ≠ some '\x27') → ScalarFound double s more ((Lex.quotedScalar double).run s) value

theorem readsAs_body {double : Bool} {written : List Char} {value : Option (List Char)}
    (body : QuotedBody double written value) :
    ReadsAs double (spelling (closing double :: (written ++ [closing double]))) (value.map spelling) := by
  intro s read more same stands whole alone
  obtain rfl := spelling_inj same
  apply scalar_read body alone _ whole
  rw [stands]
  simp

theorem quoted_spelling (cs : List Char) :
    ∃ written, Text.quoted (spelling cs) = spelling (closing true :: (written ++ [closing true])) ∧
      (∀ d ∈ written, isBreak d = false) ∧ QuotedBody true written (some cs) := by
  obtain ⟨written, spelt, breaks, body⟩ := @body_quoted [] (by simp) cs
  refine ⟨written, ?_, breaks, body⟩
  rw [Text.quoted, glyphs_spelling, List.flatMap_map, ← spelt, spelling_cons, spelling_append, ← List.append_assoc]
  rfl

theorem doubled_spelling (cs : List Char) :
    (spelling cs).flatMap (fun b => if b = 0x27 then [0x27, 0x27] else [b]) = spelling (cs.flatMap doubled) := by
  induction cs with
  | nil => rfl
  | cons c cs ih =>
    have first : (Text.encode c.toNat).flatMap (fun b => if b = 0x27 then [0x27, 0x27] else [b]) =
        spelling (doubled c) := by
      unfold doubled
      split
      · next quote =>
        rw [quote]
        rfl
      · next other =>
        have whole : spelling [c] = Text.encode c.toNat := by simp
        rw [← whole]
        have each : ∀ b ∈ spelling [c], (if b = 0x27 then [0x27, 0x27] else [b]) = [b] := by
          intro b member
          apply if_neg
          rintro rfl
          have same := mem_spelling (by decide) member
          exact other (List.mem_singleton.mp same).symm
        rw [List.flatMap_def, List.map_congr_left each, ← List.flatMap_def, List.flatMap_singleton']
    rw [spelling_cons, List.flatMap_append, first, ih, List.flatMap_cons, spelling_append]

theorem includes_iff (t part : Text) : t.includes part = true ↔ part <:+: t := by
  induction t with
  | nil => simp [Text.includes]
  | cons b t ih => rw [Text.includes, Bool.or_eq_true, List.isPrefixOf_iff_prefix, ih, List.infix_cons_iff]

/-- A text that means nothing else inside a flow collection: it has no comma, bracket, brace or newline, no colon
before a blank or at its end, and no number sign after a blank. -/
structure Flat (t : Text) : Prop where
  signs : ∀ b ∈ t, b ∉ ([0x2c, 0x5b, 0x5d, 0x7b, 0x7d, 0x0a] : Text)
  pair : ¬[0x3a, 0x20] <:+: t
  remark : ¬[0x20, 0x23] <:+: t
  key : ¬[0x3a] <:+ t

theorem flat_of_unquoted (bare : needsQuotes v = false) : Flat v := by
  simp only [needsQuotes, Bool.or_eq_false_iff] at bare
  obtain ⟨⟨⟨⟨-, signs⟩, pair⟩, remark⟩, key⟩ := bare
  refine ⟨fun b member found => ?_, ?_, ?_, ?_⟩
  · have := List.any_eq_false.mp signs b member
    exact this (List.elem_eq_true_of_mem found)
  · rw [← includes_iff, pair]
    exact Bool.false_ne_true
  · rw [← includes_iff, remark]
    exact Bool.false_ne_true
  · intro ends
    rw [Text.endsWith, ← Bool.not_eq_true, List.isPrefixOf_iff_prefix, List.reverse_prefix] at key
    exact key ends

end Scalars

/-- A scalar in double quotes reads back, and is spelt inside a line. One in single quotes reads with its gaps
folded: a value without line ends reads back, and a value with any, separators apart, does not. A plain one is its
value, or `null` for none, and means nothing else inside a flow collection. -/
theorem scalars_read_back (style : Style) (tag : Option Text) (v : Text) (valid : v.wellFormed = true) :
    (style = .singleQuoted → 0 ∉ v →
      ReadsAs false (scalarText style tag v) ((folded [] (chars v)).map spelling) ∧
      ((∀ c ∈ chars v, isBreak c = false) → ReadsAs false (scalarText style tag v) (some v)) ∧
      ((∃ c ∈ chars v, isBreak c = true) → (∀ c ∈ chars v, isBreak c = true → lineEnd c = '\n') →
        (folded [] (chars v)).map spelling ≠ some v)) ∧
    (style ∈ [.doubleQuoted, .literal, .folded] ∨
        style = .plain ∧ needsQuotes v = true ∧ ¬(v = [] ∧ isNull tag = true) →
      ReadsAs true (scalarText style tag v) (some v) ∧
      ∀ c ∈ chars (scalarText style tag v), isBreak c = false) ∧
    (style = .plain → needsQuotes v = false ∨ v = [] ∧ isNull tag = true →
      scalarText style tag v = (if v = [] then ("null" : Text) else v) ∧ Flat (scalarText style tag v)) := by
  have whole := spelling_chars valid
  refine ⟨?_, ?_, ?_⟩
  · rintro rfl sound
    have spelt : scalarText .singleQuoted tag v =
        spelling (closing false :: ((chars v).flatMap doubled ++ [closing false])) := by
      rw [spelling_cons, spelling_append, ← doubled_spelling, whole, ← List.append_assoc]
      rfl
    have ends : endChar ∉ chars v := by
      intro member
      rw [← whole] at sound
      exact sound (List.mem_flatMap.mpr ⟨endChar, member, by decide⟩)
    have read : ReadsAs false (scalarText .singleQuoted tag v) ((folded [] (chars v)).map spelling) := by
      rw [spelt]
      exact readsAs_body (@body_folded [] _ (by simp) ends)
    refine ⟨read, fun inside => ?_, fun line usual same => ?_⟩
    · have kept : folded [] (chars v) = some (chars v) := folded_inside inside
      rwa [kept, Option.map_some, whole] at read
    · obtain ⟨cs, found, equal⟩ := Option.map_eq_some_iff.mp same
      rw [← whole] at equal
      rw [spelling_inj equal] at found
      exact folded_loses usual line found
  · intro quotes
    have spelt : scalarText style tag v = v.quoted := by
      rcases quotes with styled | ⟨rfl, needs, filled⟩
      · simp only [List.mem_cons, List.not_mem_nil, or_false] at styled
        rcases styled with rfl | rfl | rfl <;> rfl
      · rw [scalarText, if_neg (by simpa using filled), if_pos needs]
    obtain ⟨written, same, breaks, body⟩ := quoted_spelling (chars v)
    rw [whole] at same
    rw [spelt, same]
    refine ⟨?_, ?_⟩
    · have read := readsAs_body body
      rwa [Option.map_some, whole] at read
    · rw [chars_spelling]
      intro c member
      rcases List.mem_cons.mp member with rfl | later
      · rfl
      · rcases List.mem_append.mp later with inside | last
        · exact breaks c inside
        · rw [List.mem_singleton.mp last]
          rfl
  · rintro rfl plain
    by_cases none : v = [] ∧ isNull tag = true
    · obtain ⟨rfl, null⟩ := none
      have spelt : scalarText .plain tag [] = "null" := by
        rw [scalarText, if_pos (by simpa using null)]
      rw [spelt]
      exact ⟨rfl, flat_of_unquoted (by decide)⟩
    · have bare : needsQuotes v = false := plain.resolve_right none
      have filled : v ≠ [] := by
        rintro rfl
        cases bare
      have spelt : scalarText .plain tag v = v := by
        rw [scalarText, if_neg (by simpa using none), bare, if_neg Bool.false_ne_true]
      rw [spelt, if_neg filled]
      exact ⟨rfl, flat_of_unquoted bare⟩

/-- An apostrophe in single quotes; and a plain value that would be a pair, with characters that are not shown. -/
theorem scalars_read_back_quoted :
    let single : Text := "it's"
    let plain : Text := "a: \u0085\n"
    single.wellFormed = true ∧ 0 ∉ single ∧ (∀ c ∈ chars single, isBreak c = false) ∧
      ReadsAs false ("'it''s'" : String) (some single) ∧
      plain.wellFormed = true ∧ needsQuotes plain = true ∧ ¬(plain = [] ∧ isNull none = true) ∧
      ReadsAs true ("\"a: \\u0085\\n\"" : String) (some plain) := by
  intro single plain
  have written : scalarText .singleQuoted none single = ("'it''s'" : String) := by decide +kernel
  have shown : scalarText .plain none plain = ("\"a: \\u0085\\n\"" : String) := by decide +kernel
  have valid : single.wellFormed = true := by decide +kernel
  have lineless : (chars single).any isBreak = false := by decide +kernel
  have inside : ∀ c ∈ chars single, isBreak c = false :=
    fun c member => Bool.eq_false_iff.mpr (List.any_eq_false.mp lineless c member)
  have sound : 0 ∉ single := by decide +kernel
  have valid' : plain.wellFormed = true := by decide +kernel
  have needs : needsQuotes plain = true := by decide +kernel
  have filled : ¬(plain = [] ∧ isNull none = true) := by decide +kernel
  obtain ⟨quoted, -, -⟩ := scalars_read_back .singleQuoted none single valid
  obtain ⟨-, escaped, -⟩ := scalars_read_back .plain none plain valid'
  have first := (quoted rfl sound).2.1 inside
  have second := (escaped (.inr ⟨rfl, needs, filled⟩)).1
  rw [written] at first
  rw [shown] at second
  exact ⟨valid, sound, inside, first, valid', needs, filled, second⟩

/-- A value with a line end in single quotes is written so that it reads as another value. -/
theorem single_quoted_line_end_lost :
    let o : Options Int64 := Options.standard
    Yaml.format o ("'a\n\nb'" : String) = .ok ("'a\nb'" : String) ∧
      Yaml.format o ("'a\nb'" : String) = .ok ("'a b'" : String) := by
  decide +kernel

end Galley.Yaml.ScalarReading
