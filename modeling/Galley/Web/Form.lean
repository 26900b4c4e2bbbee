import Galley.Text.Numeral

/-!
Forms as they are sent: pairs of a name and a value, divided by ampersands, with percent signs
before the hexadecimal numbers of bytes.
-/

namespace Galley.Web

/-- The value of a hexadecimal digit. -/
def hexDigit (b : UInt8) : Option Nat := (Text.digit b).filter (· < 16)

/-- What a part of a form spells: a plus sign is a space, and a percent sign stands before the
number of a byte. There is nothing it spells if a number is missing. -/
def unescape : Text → Option Text
  | [] => some []
  | 0x25 :: a :: b :: t => do
    let high ← hexDigit a
    let low ← hexDigit b
    let rest ← unescape t
    return UInt8.ofNat (high * 16 + low) :: rest
  | 0x25 :: _ => none
  | b :: t => do
    let rest ← unescape t
    return (if b = 0x2b then 0x20 else b) :: rest

/-- Names and values in the order in which they were sent. -/
abbrev Form := List (Text × Text)

namespace Form

/-- Reads a pair; a name may stand without a value. A semicolon divides nothing and is not let
through unescaped. -/
def readPair (t : Text) : Option (Text × Text) :=
  if t.isEmpty || t.contains 0x3b then none
  else do
    let name ← unescape (t.takeWhile (· ≠ 0x3d))
    let value ← unescape ((t.dropWhile (· ≠ 0x3d)).drop 1)
    return (name, value)

/-- Reads a form. What is no pair is left out. -/
def ofText (t : Text) : Form := (Text.splitOn 0x26 t).filterMap readPair

/-- The first value of a name, or nothing. -/
def value (f : Form) (name : Text) : Text := (f.lookup name).getD []

end Form

end Galley.Web
