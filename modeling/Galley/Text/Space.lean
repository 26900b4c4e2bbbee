import Galley.Text.Utf8

/-!
White space: which characters it is, and texts cut at it.
-/

namespace Galley.Text

/-- The white space characters. -/
def isSpace (c : Nat) : Bool :=
  if c < 0x100 then 0x09 ≤ c && c ≤ 0x0d || c == 0x20 || c == 0x85 || c == 0xa0
  else c == 0x1680 || 0x2000 ≤ c && c ≤ 0x200a || c == 0x2028 || c == 0x2029 || c == 0x202f ||
    c == 0x205f || c == 0x3000

/-- Whether a character is white space. -/
def Glyph.isSpace (g : Glyph) : Bool := Text.isSpace g.code

/-- The text without the white space at its end. -/
def trimRight (t : Text) : Text :=
  ofGlyphs (t.glyphs.reverse.dropWhile Glyph.isSpace).reverse

/-- No white space is trimmed before an ASCII character that is none. -/
theorem trimRight_ascii {b : UInt8} (ascii : b < 0x80) (visible : isSpace b.toNat = false) (t rest : Text) :
    trimRight (t ++ b :: rest) = t ++ b :: trimRight rest := by
  have stops (gs : List Glyph) : (gs ++ ⟨b.toNat, [b]⟩ :: t.glyphs.reverse).dropWhile Glyph.isSpace =
      gs.dropWhile Glyph.isSpace ++ ⟨b.toNat, [b]⟩ :: t.glyphs.reverse := by
    induction gs with
    | nil => simp [Glyph.isSpace, visible]
    | cons g gs ih => by_cases space : g.isSpace = true <;> simp [space, ih]
  have before := ofGlyphs_glyphs t
  simp only [ofGlyphs] at before
  simp [trimRight, glyphs_ascii ascii, stops, ofGlyphs, before]

/-- The text without the white space at either end. -/
def trim (t : Text) : Text :=
  ofGlyphs ((t.glyphs.dropWhile Glyph.isSpace).reverse.dropWhile Glyph.isSpace).reverse

/-- Whether a text holds nothing but white space. -/
def isBlank (t : Text) : Bool := t.glyphs.all Glyph.isSpace

/-- Collects the words of a text; `word` is the one being read, backwards. -/
private def wordsFrom (word : List Glyph) : List Glyph → List Text
  | [] => if word.isEmpty then [] else [ofGlyphs word.reverse]
  | g :: gs =>
    if g.isSpace then
      if word.isEmpty then wordsFrom [] gs else ofGlyphs word.reverse :: wordsFrom [] gs
    else wordsFrom (g :: word) gs

/-- The words of a text: its longest parts without white space. -/
def words (t : Text) : List Text := wordsFrom [] t.glyphs

end Galley.Text
