/-!
Texts as sequences of bytes. Most texts are UTF-8, but nothing here asks for it: a text is written
out byte for byte as it came in.
-/

namespace Galley

/-- A sequence of bytes, most often the UTF-8 spelling of some characters. -/
abbrev Text := List UInt8

namespace Text

/-- The UTF-8 spelling of a string. -/
def ofString (s : String) : Text := s.toUTF8.data.toList

instance : Coe String Text := ⟨ofString⟩

/-- The decimal spelling of a natural number. -/
def ofNat (n : Nat) : Text := ofString (Nat.repr n)

/-- The decimal spelling of an integer, with a sign only when it is negative. -/
def ofInt (n : Int) : Text := ofString (Int.repr n)

/-- The decimal spelling of an integer, always with a sign. -/
def ofIntSigned (n : Int) : Text := if n < 0 then ofInt n else ofString "+" ++ ofInt n

/-- The text of `n` spaces. -/
def spaces (n : Nat) : Text := List.replicate n 0x20

/-- Whether a text starts with another. -/
def startsWith (t start : Text) : Bool := start.isPrefixOf t

/-- Whether a text ends with another. -/
def endsWith (t stop : Text) : Bool := stop.reverse.isPrefixOf t.reverse

/-- The text without the given start, if it has it. -/
def dropStart (t start : Text) : Text := if t.startsWith start then t.drop start.length else t

/-- Whether a text occurs inside another. -/
def includes : Text → Text → Bool
  | [], part => part.isEmpty
  | b :: t, part => part.isPrefixOf (b :: t) || includes t part

/-- The pieces of a text between the given byte. There is always at least one. -/
def splitOn (sep : UInt8) : Text → List Text
  | [] => [[]]
  | b :: t =>
    match splitOn sep t with
    | [] => [[b]]
    | piece :: rest => if b = sep then [] :: piece :: rest else (b :: piece) :: rest

/-- The lines of a text: its pieces between newlines. -/
def lines (t : Text) : List Text := splitOn 0x0a t

/-- Texts joined with a separator between neighbours. -/
def join (sep : Text) : List Text → Text
  | [] => []
  | [t] => t
  | t :: rest => t ++ sep ++ join sep rest

/-- Lines as one text, with newlines between them. -/
def ofLines (lines : List String) : Text := join [0x0a] (lines.map ofString)

/-- The first line of a text and what stands after its newline; nothing stands after a line that
has none. -/
def cutLine (t : Text) : Text × Text :=
  (t.takeWhile (· ≠ 0x0a), (t.dropWhile (· ≠ 0x0a)).drop 1)

/-- A byte as the ASCII or Latin-1 character of the same number. -/
def toChar (b : UInt8) : Char := Char.ofNat b.toNat

end Text

end Galley
