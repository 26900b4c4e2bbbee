import Galley.Text.Cluster
import Galley.Text.Quoted.Ranges

/-!
Texts between double quotes, with escapes for what cannot be shown.
-/

namespace Galley.Text

/-- Whether a quoted text shows a character as it is. -/
def isPrintable (c : Nat) : Bool :=
  if c < 0x80 then 0x20 ≤ c && c < 0x7f else inRanges printableRanges c

/-- A hexadecimal digit. -/
def hexDigit (upper : Bool) (n : Nat) : UInt8 :=
  if n < 10 then UInt8.ofNat (0x30 + n)
  else UInt8.ofNat ((if upper then 0x41 else 0x61) + (n - 10))

/-- The last `digits` hexadecimal digits of a number. -/
def hexWith (upper : Bool) : Nat → Nat → Text
  | 0, _ => []
  | digits + 1, n => hexWith upper digits (n / 16) ++ [hexDigit upper (n % 16)]

/-- The last `digits` hexadecimal digits of a number, in lower case. -/
def hex (digits n : Nat) : Text := hexWith false digits n

/-- The last `digits` hexadecimal digits of a number, in upper case. -/
def hexUpper (digits n : Nat) : Text := hexWith true digits n

/-- The spelling of a character inside double quotes. -/
def quoteGlyph (g : Glyph) : Text :=
  if g.malformed then ("\\x" : Text) ++ hex 2 (g.bytes.headD 0).toNat
  else if g.code == 0x22 then "\\\""
  else if g.code == 0x5c then "\\\\"
  else if isPrintable g.code then g.bytes
  else if g.code == 0x07 then "\\a"
  else if g.code == 0x08 then "\\b"
  else if g.code == 0x0c then "\\f"
  else if g.code == 0x0a then "\\n"
  else if g.code == 0x0d then "\\r"
  else if g.code == 0x09 then "\\t"
  else if g.code == 0x0b then "\\v"
  else if g.code < 0x20 || g.code == 0x7f then ("\\x" : Text) ++ hex 2 g.code
  else if g.code < 0x10000 then ("\\u" : Text) ++ hex 4 g.code
  else ("\\U" : Text) ++ hex 8 g.code

/-- A text in double quotes. -/
def quoted (t : Text) : Text :=
  ("\"" : Text) ++ t.glyphs.flatMap quoteGlyph ++ ("\"" : Text)

/-- A text as part of a message: its trailing blanks are cut off, angle quotes are masked, and a mark
stands where it ends in the middle of a character. -/
def masked (t : Text) : Text :=
  let t : Text := (t.reverse.dropWhile fun b => b == 0x0a || b == 0x20).reverse
  let shown := t.glyphs.flatMap fun g =>
    if g.code == 0x2039 || g.code == 0x203a then [0x3f] else g.bytes
  if (t.glyphs.getLast?.map (·.malformed)).getD false then shown ++ [0x3f] else shown

/-- A character in single quotes. -/
def quotedCode (c : Nat) : Text :=
  let inside : Text :=
    if c == 0x27 then "\\'"
    else if c == 0x22 then "\""
    else quoteGlyph ⟨c, encode c⟩
  ("'" : Text) ++ inside ++ ("'" : Text)

end Galley.Text
