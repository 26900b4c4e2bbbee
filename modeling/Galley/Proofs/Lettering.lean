import Galley.Keyword.Case
import Galley.Options
import Galley.Proofs.FrontEnds
import Galley.Proofs.Glyphs

/-! Keywords in any case and colour. Every case gives a keyword the same letters, up to their case, and colour puts
escape sequences around it that a terminal obeys. Printable ASCII takes a column a byte, whether escape sequences
are obeyed or not. So a keyword is as wide in one dress as in another; and a text with keywords in it is trimmed
alike in all dresses, and is the same without them. -/
namespace Galley.Keyword.Lettering
open Layout (Columns Config)
open Layout.FrontEnds (Shouted)

/-- A text of printable ASCII characters. -/
def Printable (t : Text) : Prop := ∀ b ∈ t, 0x20 ≤ b ∧ b < 0x7f

instance (t : Text) : Decidable (Printable t) := List.decidableBAll (fun b => 0x20 ≤ b ∧ b < 0x7f) t

/-- A byte with an ASCII capital letter in lower case. -/
def lowered (b : UInt8) : UInt8 := if 0x41 ≤ b ∧ b ≤ 0x5a then b + 0x20 else b

section Reading

variable {t : Text}

theorem codes_cons {b : UInt8} (ascii : b < 0x80) (t : Text) : Text.codes (b :: t) = b.toNat :: t.codes := by
  have read := Text.glyphs_ascii ascii [] t
  rw [List.nil_append] at read
  rw [Text.codes, read]
  rfl

theorem codes_ascii (ascii : ∀ b ∈ t, b < 0x80) : t.codes = t.map UInt8.toNat := by
  induction t with
  | nil => rfl
  | cons b t ih =>
    rw [codes_cons (ascii b List.mem_cons_self), ih fun a member => ascii a (List.mem_cons_of_mem _ member)]
    rfl

theorem printable_ascii (printable : Printable t) : ∀ b ∈ t, b < 0x80 :=
  fun b member => UInt8.lt_trans (printable b member).2 (by decide)

end Reading

section Cases

/-- The same letters, up to their case. -/
def Recased (c d : Nat) : Prop := d < 0x80 ∧ Text.lowerCode d = Text.lowerCode c

theorem toNat_lowered (b : UInt8) :
    (lowered b).toNat = if 0x41 ≤ b.toNat ∧ b.toNat ≤ 0x5a then b.toNat + 0x20 else b.toNat := by
  have capital : (0x41 ≤ b ∧ b ≤ 0x5a) ↔ 0x41 ≤ b.toNat ∧ b.toNat ≤ 0x5a := Iff.rfl
  rw [lowered]
  simp only [capital]
  split
  · rw [UInt8.toNat_add]
    exact Nat.mod_eq_of_lt (show b.toNat + 0x20 < 0x100 by omega)
  · rfl

theorem lowered_lowerCode {b : UInt8} (ascii : b < 0x80) : (lowered b).toNat = Text.lowerCode b.toNat := by
  have small : b.toNat < 0x80 := ascii
  simp only [toNat_lowered, Text.lowerCode, small, ↓reduceIte, Bool.and_eq_true, decide_eq_true_eq]

/-- A text with the letters of another has its bytes, up to their case. -/
theorem mem_lowered {s t : Text} (same : s.map lowered = t.map lowered) {b : UInt8} (member : b ∈ s) :
    ∃ a ∈ t, lowered a = lowered b := by
  have among := List.mem_map_of_mem (f := lowered) member
  rw [same] at among
  exact List.mem_map.mp among

theorem ascii_of_lowered {s t : Text} (same : s.map lowered = t.map lowered) (ascii : ∀ b ∈ t, b < 0x80) :
    ∀ b ∈ s, b < 0x80 := by
  intro b member
  obtain ⟨a, inside, alike⟩ := mem_lowered same member
  have small : a.toNat < 0x80 := ascii a inside
  have number := congrArg UInt8.toNat alike
  rw [toNat_lowered, toNat_lowered] at number
  show b.toNat < 0x80
  split at number <;> split at number <;> omega

theorem cases_recased : ∀ c < 0x80, Recased c (Text.lowerCode c) ∧ Recased c (Text.upperCode c) ∧
    Recased c (Text.titleCode c) := by
  unfold Recased
  decide +kernel

theorem ofCodes_recased {t : Text} {cs : List Nat} (ascii : ∀ b ∈ t, b < 0x80)
    (recased : List.Forall₂ Recased t.codes cs) : (Text.ofCodes cs).map lowered = t.map lowered := by
  induction t generalizing cs with
  | nil =>
    cases recased
    rfl
  | cons b t ih =>
    rw [codes_cons (ascii b List.mem_cons_self)] at recased
    cases recased with
    | @cons _ c _ cs first rest =>
      have later := ih (fun a member => ascii a (List.mem_cons_of_mem _ member)) rest
      have spelt : Text.ofCodes (c :: cs) = UInt8.ofNat c :: Text.ofCodes cs := by
        simp [Text.ofCodes, Text.encode, first.1]
      have small : (UInt8.ofNat c).toNat = c := Nat.mod_eq_of_lt (Nat.lt_trans first.1 (by decide))
      have same : lowered (UInt8.ofNat c) = lowered b := by
        have ascii' : UInt8.ofNat c < 0x80 := by
          rw [UInt8.lt_iff_toNat_lt, small]
          exact first.1
        rw [← UInt8.toNat_inj, lowered_lowerCode ascii', lowered_lowerCode (ascii b List.mem_cons_self), small, first.2]
      rw [spelt, List.map_cons, List.map_cons, same, later]

theorem codes_low {t : Text} (ascii : ∀ b ∈ t, b < 0x80) : ∀ c ∈ t.codes, c < 0x80 := by
  rw [codes_ascii ascii]
  intro c member
  obtain ⟨b, inside, rfl⟩ := List.mem_map.mp member
  exact ascii b inside

theorem map_recased {cs : List Nat} {f : Nat → Nat} (each : ∀ c ∈ cs, Recased c (f c)) :
    List.Forall₂ Recased cs (cs.map f) := by
  rw [List.forall₂_map_right_iff]
  exact List.forall₂_same.mpr each

theorem tossed_recased {cs : List Nat} (g : Generator) (low : ∀ c ∈ cs, c < 0x80) :
    List.Forall₂ Recased cs (Case.tossed g cs) := by
  induction cs generalizing g with
  | nil => exact .nil
  | cons c cs ih =>
    obtain ⟨lower, upper, -⟩ := cases_recased c (low c List.mem_cons_self)
    refine .cons ?_ (ih _ fun d member => low d (List.mem_cons_of_mem _ member))
    split
    · exact lower
    · exact upper

theorem titleAfter_recased {cs : List Nat} (before : Nat) (low : ∀ c ∈ cs, c < 0x80) :
    List.Forall₂ Recased cs (Text.titleAfter before cs) := by
  induction cs generalizing before with
  | nil => exact .nil
  | cons c cs ih =>
    have here := low c List.mem_cons_self
    refine .cons ?_ (ih c fun d member => low d (List.mem_cons_of_mem _ member))
    split
    · exact (cases_recased c here).2.2
    · exact ⟨here, rfl⟩

/-- A text in any case has the letters that it has. -/
theorem apply_lowered (c : Case) {t : Text} (ascii : ∀ b ∈ t, b < 0x80) :
    (c.apply t).map lowered = t.map lowered := by
  have low := codes_low ascii
  have lower : (Text.lower t).map lowered = t.map lowered :=
    ofCodes_recased ascii (map_recased fun c member => (cases_recased c (low c member)).1)
  cases c with
  | lower => exact lower
  | upper => exact ofCodes_recased ascii (map_recased fun c member => (cases_recased c (low c member)).2.1)
  | spongebob => exact ofCodes_recased ascii (tossed_recased _ low)
  | title =>
    have ascii := ascii_of_lowered lower ascii
    rw [← lower]
    exact ofCodes_recased ascii (titleAfter_recased _ (codes_low ascii))

end Cases

section Keywords

variable {ι : Type} {o : Options ι} {s : Text}

theorem shouted_ascii (shouted : Shouted s) : ∀ b ∈ s, b < 0x80 := by
  intro b member
  rcases shouted.1 b member with rfl | ⟨-, last⟩
  · decide
  · exact UInt8.lt_of_le_of_lt last (by decide)

/-- Keywords are written in one of the cases that have names, or as they are. -/
def CaseNamed (o : Options ι) : Prop := ∀ f ∈ o.keywordCase, ∃ c : Case, f = c.apply

/-- A keyword in some case, and in no colour. -/
def cased (o : Options ι) (s : Text) : Text :=
  match o.keywordCase with
  | some f => f s
  | none => s

theorem keyword_eq (o : Options ι) (s : Text) :
    o.keyword s = if o.color then Options.colorKeyword ++ cased o s ++ Options.colorReset else cased o s := rfl

theorem cased_lowered (named : CaseNamed o) (shouted : Shouted s) : (cased o s).map lowered = s.map lowered := by
  unfold cased
  split
  · next f used =>
    obtain ⟨c, rfl⟩ := named f used
    exact apply_lowered c (shouted_ascii shouted)
  · rfl

/-- Only a letter has the lower case of a capital, and only a blank that of a blank. -/
theorem letter_of_lowered {a b : UInt8} (capital : a = 0x20 ∨ 0x41 ≤ a ∧ a ≤ 0x5a) (same : lowered a = lowered b) :
    a = 0x20 ∧ b = 0x20 ∨ (0x41 ≤ b ∧ b ≤ 0x5a ∨ 0x61 ≤ b ∧ b ≤ 0x7a) := by
  have number := congrArg UInt8.toNat same
  rw [toNat_lowered, toNat_lowered] at number
  simp only [← UInt8.toNat_inj, UInt8.le_iff_toNat_le, UInt8.reduceToNat] at capital ⊢
  split at number <;> split at number <;> omega

theorem cased_printable (named : CaseNamed o) (shouted : Shouted s) : Printable (cased o s) := by
  intro b member
  obtain ⟨a, inside, same⟩ := mem_lowered (cased_lowered named shouted) member
  have letter := letter_of_lowered (shouted.1 a inside) same
  simp only [← UInt8.toNat_inj, UInt8.le_iff_toNat_le, UInt8.lt_iff_toNat_lt, UInt8.reduceToNat] at letter ⊢
  omega

theorem keyword_printable (named : CaseNamed o) (colourless : o.color = false) (shouted : Shouted s) :
    Printable (o.keyword s) := by
  rw [keyword_eq, colourless]
  exact cased_printable named shouted

/-- A keyword ends in a byte that is no white space, whatever its dress. -/
theorem keyword_last (named : CaseNamed o) (shouted : Shouted s) :
    ∃ before b, o.keyword s = before ++ [b] ∧ b < 0x80 ∧ Text.isSpace b.toNat = false := by
  rw [keyword_eq]
  split
  · refine ⟨Options.colorKeyword ++ cased o s ++ [0x1b, 0x5b, 0x30], 0x6d, ?_, by decide, by decide⟩
    rw [List.append_assoc _ [0x1b, 0x5b, 0x30]]
    rfl
  · obtain ⟨a, last⟩ := Option.ne_none_iff_exists'.mp (List.getLast?_eq_none_iff.not.mpr shouted.2.1)
    have visible : a ≠ 0x20 := fun blank => shouted.2.2 (blank ▸ last)
    have same := congrArg List.getLast? (cased_lowered named shouted)
    rw [List.getLast?_map, List.getLast?_map, last, Option.map_some, Option.map_eq_some_iff] at same
    obtain ⟨b, ends, same⟩ := same
    obtain ⟨before, split⟩ := List.getLast?_eq_some_iff.mp ends
    refine ⟨before, b, split, ?_⟩
    rcases letter_of_lowered (shouted.1 a (List.mem_of_getLast? last)) same.symm with ⟨blank, -⟩ | letter
    · exact absurd blank visible
    · simp only [UInt8.le_iff_toNat_le, UInt8.lt_iff_toNat_lt, UInt8.reduceToNat] at letter ⊢
      refine ⟨by omega, ?_⟩
      have small : b.toNat < 0x100 := UInt8.toNat_lt b
      simp only [Text.isSpace, small, ↓reduceIte, Bool.or_eq_false_iff, Bool.and_eq_false_iff, decide_eq_false_iff_not,
        beq_eq_false_iff_ne]
      omega

theorem keyword_ne_nil (named : CaseNamed o) (shouted : Shouted s) : o.keyword s ≠ [] := by
  obtain ⟨before, b, split, -⟩ := keyword_last named shouted
  rw [split]
  exact List.append_ne_nil_of_right_ne_nil _ (List.cons_ne_nil _ _)

end Keywords

section Undressing

/-- The text without the escape sequences that colour keywords, after the next `skip` bytes, which belong to such a
sequence. -/
def uncolouredAfter : Nat → Text → Text
  | _, [] => []
  | skip + 1, _ :: t => uncolouredAfter skip t
  | 0, b :: t =>
    if Text.startsWith (b :: t) Options.colorKeyword then uncolouredAfter 4 t
    else if Text.startsWith (b :: t) Options.colorReset then uncolouredAfter 3 t
    else b :: uncolouredAfter 0 t

/-- The text without the escape sequences that colour keywords, and with ASCII letters in lower case. -/
def undressed (t : Text) : Text := (uncolouredAfter 0 t).map lowered

theorem undressed_cons {b : UInt8} (plain : b ≠ 0x1b) (t : Text) : undressed (b :: t) = lowered b :: undressed t := by
  have other : Text.startsWith (b :: t) Options.colorKeyword = false ∧
      Text.startsWith (b :: t) Options.colorReset = false := by
    constructor <;> exact Bool.and_eq_false_iff.mpr (.inl (beq_eq_false_iff_ne.mpr plain.symm))
  simp only [undressed, uncolouredAfter, other, Bool.false_eq_true, ↓reduceIte, List.map_cons]

theorem undressed_printable {s : Text} (printable : Printable s) (t : Text) :
    undressed (s ++ t) = s.map lowered ++ undressed t := by
  induction s with
  | nil => rfl
  | cons b s ih =>
    have plain : b ≠ 0x1b := by
      rintro rfl
      exact absurd (printable 0x1b List.mem_cons_self).1 (by decide)
    rw [List.cons_append, undressed_cons plain, ih fun a member => printable a (List.mem_cons_of_mem _ member)]
    rfl

/-- Nothing is left of the dress of a keyword. -/
theorem undressed_keyword {ι : Type} {o : Options ι} (named : CaseNamed o) {s : Text} (shouted : Shouted s) (t : Text) :
    undressed (o.keyword s ++ t) = s.map lowered ++ undressed t := by
  have body (t : Text) := undressed_printable (cased_printable named shouted) t
  rw [keyword_eq, ← cased_lowered named shouted]
  split
  · rw [List.append_assoc, List.append_assoc]
    exact body (Options.colorReset ++ t)
  · exact body t

end Undressing

section Widths

variable {ι : Type} [Columns ι] {c : Config ι} {t : Text}

theorem codeWidth_printable {c : Nat} (printable : 0x20 ≤ c ∧ c < 0x7f) : Text.codeWidth c = 1 := by
  unfold Text.codeWidth
  grind

theorem codes_printable (printable : Printable t) : ∀ c ∈ t.codes, 0x20 ≤ c ∧ c < 0x7f := by
  rw [codes_ascii (printable_ascii printable)]
  intro c member
  obtain ⟨b, inside, rfl⟩ := List.mem_map.mp member
  exact printable b inside

theorem plainWidth_printable (printable : Printable t) : t.plainWidth = t.length := by
  have codes := codes_printable printable
  rw [Text.plainWidth, Text.clusters_printable codes]
  have alone {cs : List Nat} (each : ∀ c ∈ cs, 0x20 ≤ c ∧ c < 0x7f) :
      (cs.map ([·])).foldr (fun c n => Text.clusterWidth c + n) 0 = cs.length := by
    induction cs with
    | nil => rfl
    | cons c cs ih =>
      have here : Text.clusterWidth [c] = 1 := by
        simp [Text.clusterWidth, codeWidth_printable (each c List.mem_cons_self)]
      rw [List.map_cons, List.foldr_cons, here, ih fun d member => each d (List.mem_cons_of_mem _ member),
        List.length_cons, Nat.add_comm]
  rw [alone codes, codes_ascii (printable_ascii printable), List.length_map]

theorem shownWidthOf_printable {cs : List Nat} (printable : ∀ c ∈ cs, 0x20 ≤ c ∧ c < 0x7f) (ds : List Nat) :
    Text.shownWidthOf false (cs ++ ds) = cs.length + Text.shownWidthOf false ds := by
  induction cs with
  | nil => simp
  | cons c cs ih =>
    have here := printable c List.mem_cons_self
    have plain : (c == Text.escape) = false := beq_eq_false_iff_ne.mpr (by rw [Text.escape]; omega)
    rw [List.cons_append, Text.shownWidthOf, plain, codeWidth_printable here,
      ih fun d member => printable d (List.mem_cons_of_mem _ member), List.length_cons]
    simp only [Bool.false_eq_true, ↓reduceIte]
    omega

theorem shownWidth_printable (printable : Printable t) : t.shownWidth = t.length := by
  have width := shownWidthOf_printable (codes_printable printable) []
  rw [List.append_nil] at width
  rw [Text.shownWidth, width, codes_ascii (printable_ascii printable), List.length_map]
  rfl

/-- Printable texts take a column a byte, however they are measured. -/
theorem width_printable (printable : Printable t) : c.width t = Columns.ofNat t.length := by
  rw [Config.width, shownWidth_printable printable, plainWidth_printable printable, ite_self]

theorem shownWidth_coloured (printable : Printable t) :
    Text.shownWidth (Options.colorKeyword ++ t ++ Options.colorReset) = t.length := by
  have start : Options.colorKeyword.all (· < 0x80) = true := rfl
  have stop : Options.colorReset.all (· < 0x80) = true := rfl
  rw [List.all_eq_true] at start stop
  have ascii : ∀ b ∈ Options.colorKeyword ++ t ++ Options.colorReset, b < 0x80 := by
    intro b member
    rcases List.mem_append.mp member with first | last
    · exact (List.mem_append.mp first).elim (fun outside => of_decide_eq_true (start b outside))
        (printable_ascii printable b)
    · exact of_decide_eq_true (stop b last)
  have codes : Text.codes (Options.colorKeyword ++ t ++ Options.colorReset) =
      [0x1b, 0x5b, 0x33, 0x34, 0x6d] ++ (t.codes ++ [0x1b, 0x5b, 0x30, 0x6d]) := by
    rw [codes_ascii ascii, codes_ascii (printable_ascii printable), List.map_append, List.map_append, List.append_assoc]
    rfl
  have body := shownWidthOf_printable (codes_printable printable) [0x1b, 0x5b, 0x30, 0x6d]
  rw [Text.shownWidth, codes]
  calc
    _ = Text.shownWidthOf false (t.codes ++ [0x1b, 0x5b, 0x30, 0x6d]) := rfl
    _ = t.codes.length := body
    _ = t.length := by rw [codes_ascii (printable_ascii printable), List.length_map]

/-- A keyword takes the columns of its letters where escape sequences are obeyed. -/
theorem width_keyword (obeyed : c.ansi = true) {o : Options ι} (named : CaseNamed o) (shouted : Shouted t) :
    c.width (o.keyword t) = Columns.ofNat t.length := by
  have printable := cased_printable named shouted
  have length : (cased o t).length = t.length := by
    simpa only [List.length_map] using congrArg List.length (cased_lowered named shouted)
  rw [keyword_eq]
  split
  · rw [Config.width, if_pos obeyed, shownWidth_coloured printable, length]
  · rw [width_printable printable, length]

end Widths

section Parts

variable {ι : Type}

/-- A byte of an output, or a keyword in it. -/
inductive Part where
  | byte (b : UInt8)
  | keyword (s : Text)

/-- A part as some options dress it. -/
def Part.spell (o : Options ι) : Part → Text
  | .byte b => [b]
  | .keyword s => o.keyword s

/-- Nothing but keywords is dressed. -/
def Part.Sound : Part → Prop
  | .byte b => b < 0x80 ∧ b ≠ 0x1b
  | .keyword s => Shouted s

/-- The parts without the white space at their end. -/
def trimmed : List Part → List Part
  | [] => []
  | .byte b :: parts => if Text.isSpace b.toNat && (trimmed parts).isEmpty then [] else .byte b :: trimmed parts
  | .keyword s :: parts => .keyword s :: trimmed parts

variable {o o' : Options ι} {parts : List Part}

theorem trimmed_sublist (parts : List Part) : (trimmed parts).Sublist parts := by
  induction parts with
  | nil => exact .slnil
  | cons part parts ih =>
    cases part with
    | byte b =>
      unfold trimmed
      split
      · exact List.nil_sublist _
      · exact ih.cons_cons _
    | keyword s => exact ih.cons_cons _

theorem spell_isEmpty (named : CaseNamed o) (sound : ∀ part ∈ parts, part.Sound) :
    (parts.flatMap (Part.spell o)).isEmpty = parts.isEmpty := by
  cases parts with
  | nil => rfl
  | cons part parts =>
    have filled : part.spell o ≠ [] := by
      cases part with
      | byte b => exact List.cons_ne_nil _ _
      | keyword s => exact keyword_ne_nil named (sound _ List.mem_cons_self)
    rw [List.flatMap_cons, List.isEmpty_cons, List.isEmpty_eq_false_iff]
    exact List.append_ne_nil_of_left_ne_nil filled _

/-- White space is trimmed alike in all dresses. -/
theorem trimRight_spell (named : CaseNamed o) (sound : ∀ part ∈ parts, part.Sound) :
    Text.trimRight (parts.flatMap (Part.spell o)) = (trimmed parts).flatMap (Part.spell o) := by
  induction parts with
  | nil => rfl
  | cons part parts ih =>
    obtain ⟨here, later⟩ := List.forall_mem_cons.mp sound
    have rest := ih later
    have empty : ((trimmed parts).flatMap (Part.spell o)).isEmpty = (trimmed parts).isEmpty :=
      spell_isEmpty named fun part member => later part ((trimmed_sublist parts).subset member)
    cases part with
    | byte b =>
      rw [List.flatMap_cons, Part.spell, List.singleton_append, Text.Glyphs.trimRight_cons here.1, rest, empty]
      rw [trimmed]
      split
      · rfl
      · rfl
    | keyword s =>
      obtain ⟨before, b, split, ascii, visible⟩ := keyword_last named here
      rw [List.flatMap_cons, Part.spell, split, List.append_assoc, List.singleton_append,
        Text.trimRight_ascii ascii visible, rest]
      simp [trimmed, Part.spell, split]

/-- All dresses are the same without them. -/
theorem undressed_spell (named : CaseNamed o) (also : CaseNamed o') (sound : ∀ part ∈ parts, part.Sound) :
    undressed (parts.flatMap (Part.spell o)) = undressed (parts.flatMap (Part.spell o')) := by
  induction parts with
  | nil => rfl
  | cons part parts ih =>
    obtain ⟨here, later⟩ := List.forall_mem_cons.mp sound
    rw [List.flatMap_cons, List.flatMap_cons]
    cases part with
    | byte b => rw [Part.spell, List.singleton_append, undressed_cons here.2, Part.spell, List.singleton_append,
        undressed_cons here.2, ih later]
    | keyword s => rw [Part.spell, undressed_keyword named here, Part.spell, undressed_keyword also here, ih later]

/-- The parts of a text without keywords. -/
def bytes (t : Text) : List Part := t.map .byte

theorem bytes_spell (o : Options ι) (t : Text) : (bytes t).flatMap (Part.spell o) = t := by
  induction t with
  | nil => rfl
  | cons b t ih => exact congrArg (b :: ·) ih

theorem bytes_sound {t : Text} (fine : ∀ b ∈ t, b < 0x80 ∧ b ≠ 0x1b) : ∀ part ∈ bytes t, part.Sound := by
  intro part member
  obtain ⟨b, inside, rfl⟩ := List.mem_map.mp member
  exact fine b inside

end Parts

end Galley.Keyword.Lettering
