import Galley.Text.Basic

/-!
Reading and writing UTF-8. A text that is not well formed can still be read: a byte that starts no
well-formed sequence counts as one replacement character. Spelling the characters of a text by
their own bytes gives the text back.
-/

namespace Galley.Text

/-- A character read from a text, with the bytes that spell it there. -/
structure Glyph where
  code : Nat
  bytes : Text
  deriving Repr, DecidableEq

/-- The character read in place of what is not well formed. -/
def replacement : Nat := 0xfffd

/-- Whether a byte lies in a range. -/
def between (lo hi : UInt8) (b : UInt8) : Bool := lo ≤ b && b ≤ hi

def low6 (b : UInt8) : Nat := b.toNat % 0x40

/-- The character at the start of a text that begins with `lead`, and how many bytes after `lead`
belong to it. -/
def readCode (lead : UInt8) (rest : Text) : Nat × Nat :=
  if lead < 0x80 then (lead.toNat, 0)
  else if between 0xc2 0xdf lead then
    match rest with
    | b :: _ =>
      if between 0x80 0xbf b then (lead.toNat % 0x20 * 0x40 + low6 b, 1) else (replacement, 0)
    | [] => (replacement, 0)
  else if between 0xe0 0xef lead then
    match rest with
    | b :: c :: _ =>
      let lo := if lead = 0xe0 then 0xa0 else 0x80
      let hi := if lead = 0xed then 0x9f else 0xbf
      if between lo hi b && between 0x80 0xbf c then
        (lead.toNat % 0x10 * 0x1000 + low6 b * 0x40 + low6 c, 2)
      else (replacement, 0)
    | _ => (replacement, 0)
  else if between 0xf0 0xf4 lead then
    match rest with
    | b :: c :: d :: _ =>
      let lo := if lead = 0xf0 then 0x90 else 0x80
      let hi := if lead = 0xf4 then 0x8f else 0xbf
      if between lo hi b && between 0x80 0xbf c && between 0x80 0xbf d then
        (lead.toNat % 0x08 * 0x40000 + low6 b * 0x1000 + low6 c * 0x40 + low6 d, 3)
      else (replacement, 0)
    | _ => (replacement, 0)
  else (replacement, 0)

/-- The characters of a text after the next `skip` bytes, which belong to the character before. -/
def glyphsAfter : Nat → Text → List Glyph
  | _, [] => []
  | skip + 1, _ :: t => glyphsAfter skip t
  | 0, b :: t =>
    let (code, more) := readCode b t
    ⟨code, b :: t.take more⟩ :: glyphsAfter more t

/-- The characters of a text. -/
def glyphs (t : Text) : List Glyph := glyphsAfter 0 t

/-- The code points of a text. -/
def codes (t : Text) : List Nat := t.glyphs.map Glyph.code

/-- The text that some characters spell with their own bytes. -/
def ofGlyphs (gs : List Glyph) : Text := gs.flatMap Glyph.bytes

private theorem ofGlyphs_glyphsAfter (skip : Nat) (t : Text) : ofGlyphs (glyphsAfter skip t) = t.drop skip := by
  induction t generalizing skip with
  | nil => cases skip <;> rfl
  | cons b t ih =>
    cases skip with
    | zero =>
      have tail := ih (readCode b t).2
      simp only [ofGlyphs] at tail
      simp [glyphsAfter, ofGlyphs, tail]
    | succ skip => exact ih skip

/-- Spelling the characters of a text gives the text back. -/
theorem ofGlyphs_glyphs (t : Text) : ofGlyphs t.glyphs = t := ofGlyphs_glyphsAfter 0 t

/-- Whether a byte goes on with a sequence that another one starts. -/
def isTail (b : UInt8) : Bool := between 0x80 0xbf b

private theorem between_lead {lo hi b : UInt8} (lead : isTail b = false) (low : 0x80 ≤ lo) (high : hi ≤ 0xbf) :
    between lo hi b = false := by
  simp only [isTail, between, Bool.and_eq_false_iff, decide_eq_false_iff_not] at lead ⊢
  rcases lead with below | above
  · exact .inl fun inside => below (UInt8.le_trans low inside)
  · exact .inr fun inside => above (UInt8.le_trans inside high)

/-- No sequence runs past the end of a text into a byte that starts one. -/
private theorem readCode_lead {b : UInt8} (starts : isTail b = false) (lead : UInt8) (t rest : Text) :
    readCode lead (t ++ b :: rest) = readCode lead t ∧ (readCode lead t).2 ≤ t.length := by
  have plain : between 0x80 0xbf b = false := starts
  have second : between (if lead = 0xe0 then 0xa0 else 0x80) (if lead = 0xed then 0x9f else 0xbf) b = false :=
    between_lead starts (by split <;> decide) (by split <;> decide)
  have other : between (if lead = 0xf0 then 0x90 else 0x80) (if lead = 0xf4 then 0x8f else 0xbf) b = false :=
    between_lead starts (by split <;> decide) (by split <;> decide)
  unfold readCode
  match t with
  | [] => cases rest <;> grind
  | [x] => cases rest <;> grind
  | [x, y] => grind
  | x :: y :: z :: t => grind

private theorem glyphsAfter_lead {b : UInt8} (starts : isTail b = false) (t rest : Text) (skip : Nat)
    (within : skip ≤ t.length) :
    glyphsAfter skip (t ++ b :: rest) = glyphsAfter skip t ++ glyphs (b :: rest) := by
  induction t generalizing skip with
  | nil =>
    obtain rfl := Nat.le_zero.mp within
    rfl
  | cons a t ih =>
    cases skip with
    | zero =>
      obtain ⟨same, short⟩ := readCode_lead starts a t rest
      simp only [List.cons_append, glyphsAfter, same, ih _ short, List.take_append_of_le_length short]
    | succ skip => exact ih skip (Nat.le_of_succ_le_succ within)

/-- A byte that starts a sequence cuts a text in two that are read apart. -/
theorem glyphs_lead {b : UInt8} (starts : isTail b = false) (t rest : Text) :
    glyphs (t ++ b :: rest) = t.glyphs ++ glyphs (b :: rest) :=
  glyphsAfter_lead starts t rest 0 (Nat.zero_le _)

/-- An ASCII character is read as itself, and cuts a text in two that are read apart. -/
theorem glyphs_ascii {b : UInt8} (ascii : b < 0x80) (t rest : Text) :
    glyphs (t ++ b :: rest) = t.glyphs ++ ⟨b.toNat, [b]⟩ :: rest.glyphs := by
  have starts : isTail b = false := by
    simp [isTail, between, UInt8.not_le.mpr ascii]
  rw [glyphs_lead starts]
  simp [glyphs, glyphsAfter, readCode, ascii]

/-- Whether a character stands for a byte that is not well-formed UTF-8. -/
def Glyph.malformed (g : Glyph) : Bool := g.code == replacement && g.bytes.length == 1

/-- Whether a text is well-formed UTF-8. -/
def wellFormed (t : Text) : Bool := t.glyphs.all fun g => !g.malformed

def tail6 (n : Nat) : UInt8 := UInt8.ofNat (0x80 + n % 0x40)

/-- The spelling of a code point; what is no character is spelt as the replacement. -/
def encode (c : Nat) : Text :=
  if c < 0x80 then [UInt8.ofNat c]
  else if c < 0x800 then [UInt8.ofNat (0xc0 + c / 0x40), tail6 c]
  else if 0xd800 ≤ c && c < 0xe000 || 0x110000 ≤ c then [0xef, 0xbf, 0xbd]
  else if c < 0x10000 then [UInt8.ofNat (0xe0 + c / 0x1000), tail6 (c / 0x40), tail6 c]
  else [UInt8.ofNat (0xf0 + c / 0x40000), tail6 (c / 0x1000), tail6 (c / 0x40), tail6 c]

/-- The text that spells some code points. -/
def ofCodes (cs : List Nat) : Text := cs.flatMap encode

/-- A text as a string, with replacement characters for what is not well formed. -/
def toString (t : Text) : String := String.ofList (t.codes.map Char.ofNat)

end Galley.Text
