import Galley.Text.Letter
import Galley.Text.Quoted

/-!
The tokens of SQL.
-/

namespace Galley.Sql

/-- A decimal digit. -/
def Token.isDigit (b : UInt8) : Bool := 0x30 ≤ b && b ≤ 0x39

/-- A number as it is written. It begins with a digit, or with a point. -/
structure Numeral where
  lead : UInt8
  rest : Text
  numeric : (Token.isDigit lead || lead == 0x2e) = true
  deriving DecidableEq, Repr

namespace Numeral

/-- The text of a number. -/
def text (n : Numeral) : Text := n.lead :: n.rest

/-- A text as a number, if it begins like one. -/
def ofText? : Text → Option Numeral
  | [] => none
  | b :: t =>
    if numeric : (Token.isDigit b || b == 0x2e) = true then some ⟨b, t, numeric⟩ else none

end Numeral

/-- What a token is. -/
inductive TokenKind where
  /-- A name or keyword without quotes, in lower case. -/
  | word (w : String)
  /-- A name in quotes. -/
  | quotedName (name : Text)
  /-- A whole number, in decimal or hexadecimal digits. -/
  | integer (n : Numeral)
  /-- A number with a point or an exponent. -/
  | decimal (n : Numeral)
  | string (value : Text)
  | bytes (value : Text)
  | bits (digits : Text)
  | placeholder (index : Nat)
  /-- Punctuation or an operator. -/
  | sign (s : String)
  /-- What is no token. -/
  | fault (cause : Text)
  deriving DecidableEq, Repr

/-- A token, and how a message shows it. -/
structure Token where
  kind : TokenKind
  shown : Text
  deriving DecidableEq, Repr

end Galley.Sql
