import Galley.Proofs.Glyphs
import Galley.Proofs.PageWriting
import Galley.Yaml.Token.Scalar

/-! Scalars in quotes, as they are read. What stands between quotes is words, of characters and escapes that each stand
for one character, and gaps of blanks and line ends. Words are read as they stand and gaps are folded, up to the
closing quote, whatever follows it; a line that starts or ends a document ends reading with a failure. -/
namespace Galley.Yaml.QuotedReading
open Text.Glyphs
open Layout.PageWriting (ok_bind)

/-- The text of some characters. -/
def spelling (cs : List Char) : Text := cs.flatMap fun c => Text.encode c.toNat

/-- The characters of a text. -/
def chars (t : Text) : List Char := t.codes.map Char.ofNat

section Characters

variable {c : Char} {cs ds : List Char} {t : Text}

@[simp] theorem spelling_nil : spelling [] = [] := rfl

@[simp] theorem spelling_cons (c : Char) (cs : List Char) :
    spelling (c :: cs) = Text.encode c.toNat ++ spelling cs := rfl

@[simp] theorem spelling_append (cs ds : List Char) : spelling (cs ++ ds) = spelling cs ++ spelling ds :=
  List.flatMap_append

theorem char_bounds (c : Char) : c.toNat < 0xd800 ∨ 0xdfff < c.toNat ∧ c.toNat < 0x110000 := c.valid

theorem char_scalar (c : Char) : scalar c.toNat = c.toNat := by
  have bounds := char_bounds c
  apply scalar_of_valid
  simp only [Bool.or_eq_true, Bool.and_eq_true, decide_eq_true_eq]
  omega

theorem spelling_ofCodes (cs : List Char) : spelling cs = Text.ofCodes (cs.map Char.toNat) := by
  rw [spelling, Text.ofCodes, List.flatMap_map]

/-- Characters are read again from their text. -/
@[simp] theorem chars_spelling (cs : List Char) : chars (spelling cs) = cs := by
  rw [chars, spelling_ofCodes, codes_ofCodes, List.map_map, List.map_map]
  apply List.map_id''
  intro c
  simp [char_scalar, Char.ofNat_toNat]

/-- A well-formed text is that of its characters. -/
theorem spelling_chars (valid : t.wellFormed = true) : spelling (chars t) = t := by
  have each : ∀ c ∈ t.codes, (Char.ofNat c).toNat = c := by
    intro c member
    have fixed : scalar c = c := by
      have all := codes_scalar t
      rw [← List.map_id t.codes, List.map_map] at all
      exact List.map_inj_left.mp all c member
    have character : c.isValidChar := by
      unfold scalar Text.replacement at fixed
      simp only [Bool.or_eq_true, Bool.and_eq_true, decide_eq_true_eq] at fixed
      simp only [Nat.isValidChar]
      split at fixed <;> omega
    rw [Char.ofNat, dif_pos character]
    rfl
  have same : (chars t).map Char.toNat = t.codes := by
    rw [chars, List.map_map]
    exact (List.map_congr_left each).trans (List.map_id _)
  rw [spelling_ofCodes, same, ofCodes_codes valid]

theorem spelling_inj (same : spelling cs = spelling ds) : cs = ds := by
  rw [← chars_spelling cs, same, chars_spelling]

/-- An ASCII byte is that of its character. -/
theorem mem_spelling {b : UInt8} {cs : List Char} (ascii : b.toNat < 0x80) (member : b ∈ spelling cs) :
    Char.ofNat b.toNat ∈ cs := by
  rw [spelling_ofCodes] at member
  obtain ⟨c, inside, same⟩ := List.mem_map.mp (mem_of_ofCodes ascii member)
  rwa [← same, Char.ofNat_toNat]

theorem spelling_ne_nil (c : Char) (cs : List Char) : spelling (c :: cs) ≠ [] := by
  obtain ⟨b, tail, spelt, -⟩ := encode_sequence c.toNat
  rw [spelling_cons, spelt]
  exact List.cons_ne_nil _ _

end Characters

section Steps

variable {s t : Lexer} {start : Mark} {double : Bool} {rest tail gaps : List Char} {c : Char} {n : Nat} {out : Text}

/-- The state after `n` characters of a line. -/
def passed (s : Lexer) (n : Nat) : Lexer :=
  { s with
    rest := s.rest.drop n
    mark := { s.mark with index := s.mark.index + n, column := s.mark.column + n }
    newlines := if (s.rest.take n).all isBlank then s.newlines else 0 }

/-- Reading went on to `rest`, inside a line, and made no token. -/
structure ReadingMoved (s : Lexer) (rest : List Char) (t : Lexer) : Prop where
  rest : t.rest = rest
  fault : t.fault = s.fault
  tokens : t.tokens = s.tokens
  column : t.mark.column ≠ 0

theorem moved_passed (before : List Char) (stands : s.rest = before ++ rest) (some : before ≠ []) :
    ReadingMoved s rest (passed s before.length) where
  rest := by rw [passed, stands, List.drop_left]
  fault := rfl
  tokens := rfl
  column := by
    have := List.length_pos_of_ne_nil some
    simp only [passed]
    omega

theorem ReadingMoved.trans {u : Lexer} {more : List Char} (first : ReadingMoved s rest t)
    (next : ReadingMoved t more u) : ReadingMoved s more u :=
  ⟨next.rest, next.fault.trans first.fault, next.tokens.trans first.tokens, next.column⟩

@[simp] theorem peek_run (k : Nat) (s : Lexer) : (Lex.peek k).run s = .ok (s.rest.getD k endChar, s) := rfl

@[simp] theorem skip_run (k : Nat) (s : Lexer) : (Lex.skip k).run s = .ok ((), passed s k) := rfl

@[simp] theorem here_run (s : Lexer) : Lex.here.run s = .ok (s.mark, s) := rfl

@[simp] theorem takeRun_run (run : List Char) (s : Lexer) :
    (Lex.takeRun run).run s = .ok (spelling run, passed s run.length) := rfl

@[simp] theorem pure_run {α : Type} (a : α) (s : Lexer) : (pure a : Lex α).run s = .ok (a, s) := rfl

theorem lookAhead_run (whole : s.fault = none) : Lex.lookAhead.run s = .ok ((), s) := by
  simp only [Lex.lookAhead, StateT.run_bind, StateT.run_get, pure_bind, whole, pure_run]

/-- Whether a line of `---` or `...` starts here. -/
def marked (cs : List Char) : Bool :=
  (cs.take 3 == ['-', '-', '-'] || cs.take 3 == ['.', '.', '.']) && isGap ((cs.drop 3).headD endChar)

theorem atDocumentMark_run (s : Lexer) :
    ∃ kind, Lex.atDocumentMark.run s = .ok (kind, s) ∧
      (kind.isSome = true ↔ s.mark.column = 0 ∧ marked s.rest = true) := by
  unfold Lex.atDocumentMark
  simp only [StateT.run_bind, StateT.run_get, pure_bind]
  by_cases inside : s.mark.column = 0
  · simp only [inside, ne_eq, not_true_eq_false, ↓reduceIte, true_and]
    split
    · next rest stands =>
      cases gap : isGap (rest.headD endChar) <;> exact ⟨_, pure_run _ _, by simpa [marked, stands] using gap⟩
    · next rest stands =>
      cases gap : isGap (rest.headD endChar) <;> exact ⟨_, pure_run _ _, by simpa [marked, stands] using gap⟩
    · next dashes dots =>
      refine ⟨none, pure_run _ _, ?_⟩
      have whole := List.take_append_drop 3 s.rest
      suffices marked s.rest = false by simp [this]
      by_contra found
      simp only [marked, Bool.not_eq_false, Bool.and_eq_true, Bool.or_eq_true, beq_iff_eq] at found
      rcases found.1 with start | start <;> rw [start] at whole
      · exact dashes _ whole.symm
      · exact dots _ whole.symm
  · exact ⟨none, by simp only [inside, ne_eq, not_false_eq_true, ↓reduceIte, pure_run], by simp [inside]⟩

/-- The state after the end of a line, of `n` characters. -/
def broke (s : Lexer) (n : Nat) : Lexer :=
  { s with
    rest := s.rest.drop n
    mark := ⟨s.mark.index + n, s.mark.line + 1, 0⟩
    newlines := s.newlines + 1 }

/-- The character that a line end is read as. -/
def lineEnd (c : Char) : Char := if c == '\u2028' || c == '\u2029' then c else '\n'

theorem takeBreak_pair (stands : s.rest = '\r' :: '\n' :: rest) : Lex.takeBreak.run s = .ok ([0x0a], broke s 2) := by
  simp only [Lex.takeBreak, StateT.run_bind, StateT.run_get, pure_bind, stands, broke]
  rfl

theorem takeBreak_single (stands : s.rest = c :: rest) (ends : isBreak c = true)
    (alone : ∀ more, c :: rest ≠ '\r' :: '\n' :: more) :
    Lex.takeBreak.run s = .ok (spelling [lineEnd c], broke s 1) := by
  simp only [Lex.takeBreak, StateT.run_bind, StateT.run_get, pure_bind, stands, broke]
  split
  · next more same => exact absurd same (alone more)
  · next c' more _ same =>
    obtain ⟨rfl, rfl⟩ := List.cons.inj same
    unfold lineEnd
    split
    · rw [spelling_cons, spelling_nil, List.append_nil]
      rfl
    · rfl
  · next none => cases none

end Steps

section Gaps

variable {s : Lexer} {start : Mark} {g : Lex.Gap} {rest gaps : List Char} {c : Char} {n : Nat}

/-- Whether a character is a blank or ends a line. -/
def isSpacing (c : Char) : Bool := isBlank c || isBreak c

/-- The line ends of a gap, as they are read. -/
def lineEnds : List Char → List Char
  | [] => []
  | '\r' :: '\n' :: gaps => '\n' :: lineEnds gaps
  | c :: gaps => if isBreak c then lineEnd c :: lineEnds gaps else lineEnds gaps

/-- The characters that a gap stands for: blanks for themselves, a line end for a space, and of more line ends all
but the first. A line or paragraph separator stays. -/
def foldedGap (gaps : List Char) : List Char :=
  match lineEnds gaps with
  | [] => gaps
  | first :: more => if first = '\n' then if more.isEmpty then [' '] else more else first :: more

/-- A gap after more of its characters. -/
def after (g : Lex.Gap) (gaps : List Char) : Lex.Gap :=
  if g.broken then { g with more := g.more ++ spelling (lineEnds gaps) }
  else
    match lineEnds gaps with
    | [] => { g with blanks := g.blanks ++ spelling gaps }
    | first :: more => ⟨true, [], spelling [first], g.more ++ spelling more⟩

theorem isSpacing_gap (c : Char) : isGap c = (isSpacing c || c == endChar) := by
  simp only [isGap, isLineEnd, isSpacing, Bool.or_assoc]

theorem blank_not_break (blank : isBlank c = true) : isBreak c = false := by
  simp only [isBlank, Bool.or_eq_true, beq_iff_eq] at blank
  rcases blank with rfl | rfl <;> decide

theorem after_nil (g : Lex.Gap) : after g [] = g := by
  simp [after, lineEnds]

theorem after_blank (blank : isBlank c = true) (gaps : List Char) :
    after (if g.broken then g else { g with blanks := g.blanks ++ spelling [c] }) gaps = after g (c :: gaps) := by
  have inside := blank_not_break blank
  have same : lineEnds (c :: gaps) = lineEnds gaps := by
    rw [lineEnds, inside]
    · rfl
    · rintro more rfl
      cases blank
  unfold after
  rw [same]
  cases broken : g.broken with
  | true => simp [broken]
  | false => cases lineEnds gaps <;> simp

theorem after_break {t : Char} (split : lineEnds (c :: gaps) = t :: lineEnds rest) :
    after (if g.broken then { g with more := g.more ++ spelling [t] }
      else { g with broken := true, blanks := [], first := spelling [t] }) rest = after g (c :: gaps) := by
  unfold after
  rw [split]
  cases broken : g.broken <;> simp

/-- A gap reads as what it stands for. -/
theorem after_toText (gaps : List Char) : (after {} gaps).toText = spelling (foldedGap gaps) := by
  unfold after foldedGap
  cases lineEnds gaps with
  | nil => rfl
  | cons first more =>
    by_cases newline : first = '\n'
    · subst newline
      cases more with
      | nil => rfl
      | cons next more =>
        have filled : (spelling (next :: more)).isEmpty = false := List.isEmpty_eq_false_iff.mpr (spelling_ne_nil _ _)
        simp only [Bool.false_eq_true, ↓reduceIte, Lex.Gap.toText, List.nil_append, filled, List.isEmpty_cons,
          ite_eq_left_iff]
        exact fun other => absurd rfl other
    · have other : (spelling [first]).head? ≠ some 0x0a := by
        intro byte
        have member := mem_spelling (by decide) (List.mem_of_mem_head? byte)
        exact newline (List.mem_singleton.mp member).symm
      simp only [Bool.false_eq_true, ↓reduceIte, Lex.Gap.toText, other, newline, List.nil_append]
      rw [← spelling_append, List.singleton_append]

theorem read_blank (stands : s.rest = c :: rest) (blank : isBlank c = true) :
    (g.read start none (n + 1)).run s =
      ((if g.broken then g else { g with blanks := g.blanks ++ spelling [c] }).read start none n).run (passed s 1) := by
  have first : s.rest.getD 0 endChar = c := by rw [stands, List.getD_cons_zero]
  simp only [Lex.Gap.read, StateT.run_bind, peek_run, ok_bind, first, blank, here_run, ↓reduceIte, Option.any_none,
    Bool.and_false, Bool.false_eq_true, takeRun_run, List.length_singleton]

theorem read_break {t : Text} {u : Lexer} (stands : s.rest = c :: rest) (ends : isBreak c = true)
    (took : Lex.takeBreak.run s = .ok (t, u)) :
    (g.read start none (n + 1)).run s =
      ((if g.broken then { g with more := g.more ++ t }
        else { g with broken := true, blanks := [], first := t }).read start none n).run u := by
  have first : s.rest.getD 0 endChar = c := by rw [stands, List.getD_cons_zero]
  have inside : isBlank c = false := by
    by_contra blank
    rw [blank_not_break (Bool.not_eq_false _ ▸ blank)] at ends
    cases ends
  simp only [Lex.Gap.read, StateT.run_bind, peek_run, ok_bind, first, inside, ends, ↓reduceIte, Bool.false_eq_true,
    took]

theorem last_cons {α : Type} (a : α) (as : List α) (p : Prop) (q : α → Prop) :
    (a :: as).getLast?.elim p q = as.getLast?.elim (q a) q := by
  rw [List.getLast?_cons]
  cases as.getLast? <;> rfl

/-- Reading a gap stops at the first character that is not part of it. -/
theorem gap_read (start : Mark) (spacing : ∀ c ∈ gaps, isSpacing c = true)
    (ends : ∀ c ∈ rest.head?, isSpacing c = false) (stands : s.rest = gaps ++ rest) (enough : gaps.length < n) :
    ∃ t, (g.read start none n).run s = .ok (after g gaps, t) ∧ t.rest = rest ∧ t.fault = s.fault ∧
      t.tokens = s.tokens ∧ (t.mark.column = 0 ↔ gaps.getLast?.elim (s.mark.column = 0) (isBreak · = true)) := by
  induction gaps using lineEnds.induct generalizing g s n with
  | case1 =>
    obtain ⟨n, rfl⟩ := Nat.exists_eq_add_one.mpr enough
    have stop : isSpacing (s.rest.getD 0 endChar) = false := by
      rw [stands, List.nil_append]
      cases rest with
      | nil => decide
      | cons c rest => exact ends c rfl
    simp only [isSpacing, Bool.or_eq_false_iff] at stop
    refine ⟨s, ?_, stands, rfl, rfl, Iff.rfl⟩
    simp only [Lex.Gap.read, StateT.run_bind, peek_run, ok_bind, stop.1, stop.2, after_nil]
    rfl
  | case2 gaps ih =>
    obtain ⟨n, rfl⟩ := Nat.exists_eq_add_one.mpr (Nat.zero_lt_of_lt enough)
    have left : (broke s 2).rest = gaps ++ rest := by rw [broke, stands]; rfl
    obtain ⟨t, ran, rest, fault, tokens, column⟩ :=
      ih (fun c member => spacing c (by simp [member])) left (n := n) (by simp only [List.length_cons] at enough; omega)
    refine ⟨t, ?_, rest, fault, tokens, ?_⟩
    · rw [read_break stands (by decide) (takeBreak_pair stands), ran]
      exact congrArg (fun g => Except.ok (g, t)) (after_break (t := '\n') (by rw [lineEnds]))
    · rw [last_cons, last_cons, column]
      simp [broke, show isBreak '\n' = true from rfl]
  | case3 c gaps alone breaks ih =>
    obtain ⟨n, rfl⟩ := Nat.exists_eq_add_one.mpr (Nat.zero_lt_of_lt enough)
    have left : (broke s 1).rest = gaps ++ rest := by rw [broke, stands]; rfl
    have single : ∀ more, c :: (gaps ++ rest) ≠ '\r' :: '\n' :: more := by
      intro more same
      obtain ⟨first, second⟩ := List.cons.inj same
      cases gaps with
      | nil => cases ends '\n' (by rw [show rest = '\n' :: more from second]; rfl)
      | cons next gaps => exact alone gaps first (by rw [(List.cons.inj second).1])
    obtain ⟨t, ran, rest, fault, tokens, column⟩ :=
      ih (fun c member => spacing c (by simp [member])) left (n := n) (by simp only [List.length_cons] at enough; omega)
    refine ⟨t, ?_, rest, fault, tokens, ?_⟩
    · rw [read_break stands breaks (takeBreak_single stands breaks single), ran]
      exact congrArg (fun g => Except.ok (g, t)) (after_break (by rw [lineEnds, if_pos breaks]; exact alone))
    · rw [last_cons, column]
      simp [broke, breaks]
  | case4 c gaps alone inside ih =>
    obtain ⟨n, rfl⟩ := Nat.exists_eq_add_one.mpr (Nat.zero_lt_of_lt enough)
    have left : (passed s 1).rest = gaps ++ rest := by rw [passed, stands]; rfl
    have blank : isBlank c = true := by
      have := spacing c List.mem_cons_self
      simpa [isSpacing, inside] using this
    obtain ⟨t, ran, rest, fault, tokens, column⟩ :=
      ih (fun c member => spacing c (by simp [member])) left (n := n) (by simp only [List.length_cons] at enough; omega)
    refine ⟨t, ?_, rest, fault, tokens, ?_⟩
    · rw [read_blank stands blank, ran, after_blank blank]
    · rw [last_cons, column]
      simp [passed, inside]

end Gaps

section Bodies

variable {s : Lexer} {start : Mark} {double : Bool} {written rest gaps more : List Char} {c : Char}
variable {value : Option (List Char)} {m n size : Nat} {out word : Text}

/-- The quote at the end of a scalar. -/
def closing (double : Bool) : Char := if double then '\x22' else '\x27'

/-- A spelling that is read as a character of a word. -/
structure Inked (double : Bool) (written : List Char) (c : Char) : Prop where
  starts : ∃ first more, written = first :: more ∧ isGap first = false
  read : ∀ start n out s rest, s.rest = written ++ rest → ∃ t,
    (Lex.quotedWord start double (n + 1) out).run s =
      (Lex.quotedWord start double n (out ++ Text.encode c.toNat)).run t ∧ ReadingMoved s rest t

/-- What stands between quotes, and the characters that it is read as, or none if a line of it ends a document. -/
inductive QuotedBody (double : Bool) : List Char → Option (List Char) → Prop where
  | close : QuotedBody double [] (some [])
  | ink {written rest : List Char} {c : Char} {value : Option (List Char)} (inked : Inked double written c)
      (later : QuotedBody double rest value) : QuotedBody double (written ++ rest) (value.map (c :: ·))
  | gap {gaps rest : List Char} {value : Option (List Char)} (spacing : ∀ c ∈ gaps, isSpacing c = true)
      (filled : gaps ≠ []) (ends : ∀ c ∈ rest.head?, isGap c = false)
      (clear : ¬(gaps.getLast?.any isBreak = true ∧ marked (rest ++ [closing double]) = true))
      (later : QuotedBody double rest value) : QuotedBody double (gaps ++ rest) (value.map (foldedGap gaps ++ ·))
  | mark {gaps rest : List Char} (spacing : ∀ c ∈ gaps, isSpacing c = true) (ends : ∀ c ∈ rest.head?, isGap c = false)
      (line : gaps.getLast?.any isBreak = true) (marks : marked (rest ++ [closing double]) = true) :
      QuotedBody double (gaps ++ rest) none

/-- Reading came to `rest` with a value, or failed where there is none. -/
def ReadingEnds (s : Lexer) (rest : List Char) (result : Except Problem (Text × Lexer)) : Option Text → Prop
  | some value => ∃ t, result = .ok (value, t) ∧ t.rest = rest ∧ t.tokens = s.tokens
  | none => ∃ p, result = .error p

theorem ends_of_tokens {t : Lexer} {result : Except Problem (Text × Lexer)} {value : Option Text}
    (same : t.tokens = s.tokens) (ends : ReadingEnds t rest result value) : ReadingEnds s rest result value := by
  cases value with
  | none => exact ends
  | some value =>
    obtain ⟨u, ran, left, tokens⟩ := ends
    exact ⟨u, ran, left, tokens.trans same⟩

/-- What is left of a turn of reading inside a word. -/
def wordEnd (start : Mark) (double : Bool) (n m size : Nat) (out word : Text) : Lex Text := do
  let (word, broken) ← Lex.quotedWord start double m word
  if (← Lex.peek 0) == (if double then '\x22' else '\x27') then return out ++ word
  let gap : Lex.Gap := { broken }
  let gap ← gap.read start none size
  Lex.quotedWords start double n (out ++ word ++ gap.toText)

theorem quotedWords_word (whole : s.fault = none) (clear : ¬(s.mark.column = 0 ∧ marked s.rest = true))
    (inside : s.rest.getD 0 endChar ≠ endChar) :
    (Lex.quotedWords start double (n + 1) out).run s =
      (wordEnd start double n (s.rest.length + 1) (s.rest.length + 1) out []).run s := by
  obtain ⟨kind, looked, marks⟩ := atDocumentMark_run s
  have none : kind.isSome = false := by
    rw [← Bool.not_eq_true, marks]
    exact clear
  simp only [Lex.quotedWords, StateT.run_bind, lookAhead_run whole, ok_bind, looked, none, Bool.false_eq_true,
    ↓reduceIte, peek_run, beq_iff_eq, inside, StateT.run_get, pure_bind, wordEnd]

theorem quotedWords_mark (whole : s.fault = none) (line : s.mark.column = 0) (marks : marked s.rest = true) :
    ∃ p, (Lex.quotedWords start double (n + 1) out).run s = .error p := by
  obtain ⟨kind, looked, found⟩ := atDocumentMark_run s
  have some : kind.isSome = true := found.mpr ⟨line, marks⟩
  simp only [Lex.quotedWords, StateT.run_bind, lookAhead_run whole, ok_bind, looked, some, ↓reduceIte]
  exact ⟨_, rfl⟩

theorem marked_closing (rest more : List Char) :
    marked (rest ++ closing double :: more) = marked (rest ++ [closing double]) := by
  have dash : (closing double == '-') = false := by cases double <;> decide
  have dot : (closing double == '.') = false := by cases double <;> decide
  match rest with
  | [] => cases more <;> simp [marked, dash, dot]
  | [a] => simp [marked, dash, dot]
  | [a, b] => simp [marked, dash, dot]
  | [a, b, c] => simp [marked]
  | a :: b :: c :: d :: rest => simp [marked]

theorem quotedWord_close (alone : double = false → more.head? ≠ some '\x27') (stands : s.rest = closing double :: more)
    (enough : 0 < m) : (Lex.quotedWord start double m word).run s = .ok ((word, false), s) := by
  obtain ⟨m, rfl⟩ := Nat.exists_eq_add_one.mpr enough
  have first : s.rest.getD 0 endChar = closing double := by rw [stands, List.getD_cons_zero]
  cases double with
  | false =>
    have next : s.rest.getD 1 endChar ≠ '\x27' := by
      rw [stands]
      cases more with
      | nil => decide
      | cons c more => exact fun same => alone rfl (congrArg some same)
    simp only [Lex.quotedWord, StateT.run_bind, peek_run, ok_bind, first, closing, Bool.false_eq_true, ↓reduceIte,
      show isGap '\x27' = false from rfl, Bool.not_false, beq_self_eq_true, Bool.and_self, next, ne_eq,
      not_false_eq_true, pure_run]
  | true =>
    simp only [Lex.quotedWord, StateT.run_bind, peek_run, ok_bind, first, closing, Bool.false_eq_true, ↓reduceIte,
      show isGap '\x22' = false from rfl, Bool.not_true, Bool.false_and, beq_self_eq_true, Bool.and_self, pure_run]

theorem quotedWord_gap (stands : s.rest = c :: rest) (gap : isGap c = true) (enough : 0 < m) :
    (Lex.quotedWord start double m word).run s = .ok ((word, false), s) := by
  obtain ⟨m, rfl⟩ := Nat.exists_eq_add_one.mpr enough
  have first : s.rest.getD 0 endChar = c := by rw [stands, List.getD_cons_zero]
  simp only [Lex.quotedWord, StateT.run_bind, peek_run, ok_bind, first, gap, ↓reduceIte, pure_run]

/-- A gap ends a word, and the next turn starts after it. -/
theorem wordEnd_gap (start : Mark) (n : Nat) (out word : Text) (spacing : ∀ c ∈ gaps, isSpacing c = true)
    (filled : gaps ≠ []) (ends : ∀ c ∈ rest.head?, isGap c = false)
    (stands : s.rest = gaps ++ (rest ++ closing double :: more)) (turn : 0 < m) (enough : gaps.length < size) :
    ∃ t, (wordEnd start double n m size out word).run s =
        (Lex.quotedWords start double n (out ++ word ++ spelling (foldedGap gaps))).run t ∧
      t.rest = rest ++ closing double :: more ∧ t.fault = s.fault ∧ t.tokens = s.tokens ∧
      t.rest.getD 0 endChar ≠ endChar ∧
      (t.mark.column = 0 ∧ marked t.rest = true ↔
        gaps.getLast?.any isBreak = true ∧ marked (rest ++ [closing double]) = true) := by
  obtain ⟨next, tail, starts, inside⟩ :
      ∃ first tail, rest ++ closing double :: more = first :: tail ∧ isGap first = false := by
    cases rest with
    | nil => exact ⟨_, _, rfl, by cases double <;> rfl⟩
    | cons first tail => exact ⟨_, _, rfl, ends first rfl⟩
  rw [isSpacing_gap, Bool.or_eq_false_iff, beq_eq_false_iff_ne] at inside
  have stops : ∀ c ∈ (rest ++ closing double :: more).head?, isSpacing c = false := by
    rw [starts]
    rintro c ⟨⟩
    exact inside.1
  obtain ⟨t, read, left, fault, tokens, column⟩ := gap_read (g := {}) start spacing stops stands enough
  obtain ⟨c, gaps, rfl⟩ := List.exists_cons_of_ne_nil filled
  have spaced := spacing c List.mem_cons_self
  have gap : isGap c = true := by rw [isSpacing_gap, spaced, Bool.true_or]
  have other : (c == if double then '\x22' else '\x27') = false := by
    rw [beq_eq_false_iff_ne]
    rintro rfl
    revert spaced
    cases double <;> decide
  have first : s.rest.getD 0 endChar = c := by rw [stands]; rfl
  refine ⟨t, ?_, left, fault, tokens, ?_, ?_⟩
  · simp only [wordEnd, StateT.run_bind, quotedWord_gap stands gap turn, ok_bind, peek_run, first, other,
      Bool.false_eq_true, ↓reduceIte, read, after_toText]
  · rw [left, starts]
    exact inside.2
  · rw [left, marked_closing, column, last_cons, List.getLast?_cons]
    cases gaps.getLast? <;> rfl

/-- A body is read, from the middle of a word on, up to the closing quote. -/
theorem body_read (body : QuotedBody double written value) (alone : double = false → more.head? ≠ some '\x27')
    (stands : s.rest = written ++ closing double :: more) (whole : s.fault = none) (chars : written.length < m)
    (room : written.length < size) (turns : written.length ≤ n) :
    ReadingEnds s (closing double :: more) ((wordEnd start double n m size out word).run s)
      (value.map fun v => out ++ word ++ spelling v) := by
  induction body generalizing s m n size out word with
  | close =>
    have first : s.rest.getD 0 endChar = closing double := by rw [stands]; rfl
    refine ⟨s, ?_, stands, rfl⟩
    simp only [wordEnd, StateT.run_bind, quotedWord_close alone stands chars, ok_bind, peek_run, first, closing,
      beq_self_eq_true, ↓reduceIte, pure_run, spelling_nil, List.append_nil]
  | @ink written rest c value inked later ih =>
    obtain ⟨m, rfl⟩ := Nat.exists_eq_add_one.mpr (Nat.zero_lt_of_lt chars)
    rw [List.append_assoc] at stands
    obtain ⟨t, read, moved⟩ := inked.read start m word s _ stands
    have some : 0 < written.length := by
      obtain ⟨first, more, rfl, -⟩ := inked.starts
      exact Nat.succ_pos _
    rw [List.length_append] at chars room turns
    have step : (wordEnd start double n (m + 1) size out word).run s =
        (wordEnd start double n m size out (word ++ Text.encode c.toNat)).run t := by
      simp only [wordEnd, StateT.run_bind, read]
    have values : ((value.map (c :: ·)).map fun v => out ++ word ++ spelling v) =
        value.map fun v => out ++ (word ++ Text.encode c.toNat) ++ spelling v := by
      cases value <;> simp
    rw [step, values]
    exact ends_of_tokens moved.tokens
      (ih moved.rest (moved.fault.trans whole) (by omega) (by omega) (by omega))
  | @gap gaps rest value spacing filled ends clear later ih =>
    have some := List.length_pos_of_ne_nil filled
    rw [List.append_assoc] at stands
    rw [List.length_append] at chars room turns
    obtain ⟨n, rfl⟩ := Nat.exists_eq_add_one.mpr (show 0 < n by omega)
    obtain ⟨t, step, left, fault, tokens, inside, marks⟩ :=
      wordEnd_gap start (n + 1) out word spacing filled ends stands (Nat.zero_lt_of_lt chars)
        (show gaps.length < size by omega)
    have values : ((value.map (foldedGap gaps ++ ·)).map fun v => out ++ word ++ spelling v) =
        value.map fun v => out ++ word ++ spelling (foldedGap gaps) ++ [] ++ spelling v := by
      cases value <;> simp
    have size : rest.length < t.rest.length + 1 := by
      rw [left, List.length_append]
      omega
    rw [step, quotedWords_word (fault.trans whole) (fun found => clear (marks.mp found)) inside, values]
    exact ends_of_tokens tokens (ih left (fault.trans whole) size size (by omega))
  | @mark gaps rest spacing ends line marks =>
    have filled : gaps ≠ [] := by
      rintro rfl
      cases line
    have some := List.length_pos_of_ne_nil filled
    rw [List.append_assoc] at stands
    rw [List.length_append] at chars room turns
    obtain ⟨n, rfl⟩ := Nat.exists_eq_add_one.mpr (show 0 < n by omega)
    obtain ⟨t, step, -, fault, -, -, found⟩ :=
      wordEnd_gap start (n + 1) out word spacing filled ends stands (Nat.zero_lt_of_lt chars)
        (show gaps.length < size by omega)
    rw [step]
    obtain ⟨column, marks⟩ := found.mpr ⟨line, marks⟩
    exact quotedWords_mark (fault.trans whole) column marks

/-- A body does not start with the end of a source. -/
theorem body_starts (body : QuotedBody double written value) (more : List Char) :
    (written ++ closing double :: more).getD 0 endChar ≠ endChar := by
  have ink (c : Char) (inside : isGap c = false) : c ≠ endChar := by
    rintro rfl
    cases inside
  have gap (gaps rest : List Char) (spacing : ∀ c ∈ gaps, isSpacing c = true) (filled : gaps ≠ []) :
      (gaps ++ rest ++ closing double :: more).getD 0 endChar ≠ endChar := by
    obtain ⟨c, gaps, rfl⟩ := List.exists_cons_of_ne_nil filled
    rintro rfl
    cases spacing endChar List.mem_cons_self
  cases body with
  | close => exact ink (closing double) (by cases double <;> rfl)
  | ink inked later =>
    obtain ⟨first, rest, rfl, inside⟩ := inked.starts
    exact ink first inside
  | gap spacing filled => exact gap _ _ spacing filled
  | mark spacing ends line =>
    apply gap _ _ spacing
    rintro rfl
    cases line

/-- Reading a scalar came to `rest` and added a token with its value, or failed where there is none. -/
def ScalarFound (double : Bool) (s : Lexer) (rest : List Char) (result : Except Problem (Unit × Lexer)) :
    Option Text → Prop
  | some value => ∃ t, result = .ok ((), t) ∧ t.rest = rest ∧ t.tokens =
      s.tokens.push ⟨.scalar value (if double then .doubleQuoted else .singleQuoted), s.mark, t.mark⟩
  | none => ∃ p, result = .error p

/-- A body between quotes is read as a scalar. -/
theorem scalar_read (body : QuotedBody double written value) (alone : double = false → more.head? ≠ some '\x27')
    (stands : s.rest = closing double :: (written ++ closing double :: more)) (whole : s.fault = none) :
    ScalarFound double s more ((Lex.quotedScalar double).run s) (value.map spelling) := by
  have moved : ReadingMoved s (written ++ closing double :: more) (passed s 1) :=
    show ReadingMoved _ _ (passed s [closing double].length) from moved_passed _ stands (List.cons_ne_nil _ _)
  have enough : written.length < (passed s 1).rest.length + 1 := by
    rw [moved.rest, List.length_append]
    omega
  have turn : (Lex.quotedWords s.mark double ((passed s 1).rest.length + 1) []).run (passed s 1) = _ :=
    quotedWords_word whole (fun found => moved.column found.1) (moved.rest ▸ body_starts body more)
  have read : ReadingEnds (passed s 1) (closing double :: more)
      ((Lex.quotedWords s.mark double ((passed s 1).rest.length + 1) []).run (passed s 1)) (value.map spelling) := by
    rw [turn]
    exact body_read body alone moved.rest whole enough enough (Nat.lt_succ_iff.mp enough)
  have all : (Lex.quotedScalar double).run s =
      (Lex.quotedWords s.mark double ((passed s 1).rest.length + 1) []).run (passed s 1) >>= fun r =>
        (Lex.addToken (.scalar r.1 (if double then .doubleQuoted else .singleQuoted)) s.mark
          (passed r.2 1).mark).run (passed r.2 1) := rfl
  rw [all]
  cases value with
  | none =>
    obtain ⟨p, failed⟩ := read
    exact ⟨p, by rw [failed]; rfl⟩
  | some v =>
    obtain ⟨t, ran, left, tokens⟩ := read
    refine ⟨{ passed t 1 with tokens := t.tokens.push _ }, by rw [ran]; rfl, ?_, ?_⟩
    · show t.rest.drop 1 = more
      rw [left]
      rfl
    · show t.tokens.push _ = s.tokens.push _
      rw [tokens]
      rfl

end Bodies

end Galley.Yaml.QuotedReading
