import Galley.Sql.Name
import Galley.Text.Quoted

/-!
How strings are spelt in SQL. One that holds more than printable ASCII is spelt with escapes.
-/

namespace Galley.Sql

/-- The letter that escapes a byte. -/
def escapeLetter (b : UInt8) : Option UInt8 :=
  [(0x08, 0x62), (0x0c, 0x66), (0x0a, 0x6e), (0x0d, 0x72), (0x09, 0x74), (0x5c, 0x5c),
    (0x27, 0x27)].lookup b

/-- A byte as two hexadecimal digits. -/
def hexByte (b : UInt8) : Text := [0x5c, 0x78] ++ Text.hex 2 b.toNat

/-- A byte inside a string. -/
def byteText (b : UInt8) : Text :=
  match escapeLetter b with
  | some c => [0x5c, c]
  | none => if 0x20 ≤ b && b < 0x7f then [b] else hexByte b

/-- A character inside a string. -/
def glyphText (g : Text.Glyph) : Text :=
  if g.code = Text.replacement then g.bytes.flatMap hexByte
  else
    match g.bytes with
    | [b] => byteText b
    | [_, _] => [0x5c, 0x75] ++ Text.hexUpper 4 g.code
    | _ => [0x5c, 0x55] ++ Text.hexUpper 8 g.code

/-- A string: without escapes if it is printable ASCII without quotes and backslashes. -/
def stringText (v : Text) : Text :=
  if v.all fun b => byteText b == [b] then [0x27] ++ v ++ [0x27]
  else [0x65, 0x27] ++ v.glyphs.flatMap glyphText ++ [0x27]

/-- A string of bytes. -/
def bytesText (v : Text) : Text := [0x62, 0x27] ++ v.flatMap byteText ++ [0x27]

/-- Texts with commas between them. -/
def commaList (ts : List Text) : Text := Text.join [0x2c, 0x20] ts

end Galley.Sql
