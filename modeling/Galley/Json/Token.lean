import Galley.Json.Value

/-!
Reading JSON tokens off a text. Where a token is not well formed the offset stays where it
starts, except in a string with escapes, where it moves to the first of them.
-/

namespace Galley.Json

/-- A lexical token. -/
inductive Token where
  /-- One of the six structural characters. -/
  | punctuation (b : UInt8)
  | null
  | bool (b : Bool)
  | number (t : Text)
  | string (s : Text)
  deriving DecidableEq, Repr

/-- A place in a text: how many bytes come before it, and what follows. -/
structure Cursor where
  offset : Nat
  rest : Text

namespace Cursor

/-- The place `n` bytes later. -/
def forward (c : Cursor) (n : Nat) : Cursor := ⟨c.offset + n, c.rest.drop n⟩

end Cursor

/-- White space between tokens. -/
def isSpace (b : UInt8) : Bool := b == 0x20 || b == 0x09 || b == 0x0a || b == 0x0d

/-- A structural character. -/
def isPunctuation (b : UInt8) : Bool :=
  b == 0x7b || b == 0x7d || b == 0x5b || b == 0x5d || b == 0x3a || b == 0x2c

/-- A decimal digit. -/
def isDigit (b : UInt8) : Bool := 0x30 ≤ b && b ≤ 0x39

/-- The number of digits at the start of a text. -/
def digitCount (t : Text) : Nat := (t.takeWhile isDigit).length

/-- The length of the number at the start of a text, if there is one. -/
def numberLength? (t : Text) : Option Nat :=
  let sign := if t.head? = some 0x2d then 1 else 0
  let t := t.drop sign
  let whole := if t.head? = some 0x30 then 1 else digitCount t
  if whole = 0 then none
  else
    let t := t.drop whole
    let point := t.head? = some 0x2e
    let fraction := if point then digitCount (t.drop 1) else 0
    if point ∧ fraction = 0 then none
    else
      let t := if point then t.drop (fraction + 1) else t
      let here := sign + whole + if point then fraction + 1 else 0
      if t.head? = some 0x65 ∨ t.head? = some 0x45 then
        let t := t.drop 1
        let mark := if t.head? = some 0x2b ∨ t.head? = some 0x2d then 1 else 0
        let power := digitCount (t.drop mark)
        if power = 0 then none else some (here + 1 + mark + power)
      else some here

private def hexValue? (b : UInt8) : Option Nat :=
  if isDigit b then some (b.toNat - 0x30)
  else if 0x61 ≤ b && b ≤ 0x66 then some (b.toNat - 0x61 + 10)
  else if 0x41 ≤ b && b ≤ 0x46 then some (b.toNat - 0x41 + 10)
  else none

/-- The number four hexadecimal digits stand for. -/
private def hex4? (a b c d : UInt8) : Option Nat := do
  return ((← hexValue? a) * 16 + (← hexValue? b)) * 256 + (← hexValue? c) * 16 + (← hexValue? d)

/-- What a one-letter escape stands for. -/
def simpleEscape? (b : UInt8) : Option UInt8 :=
  match Text.toChar b with
  | '"' | '\\' | '/' | '\'' => some b
  | 'b' => some 0x08
  | 'f' => some 0x0c
  | 'n' => some 0x0a
  | 'r' => some 0x0d
  | 't' => some 0x09
  | _ => none

/-- Reads the inside of a string up to its closing quote: what it stands for, and the number of
bytes read, the quote included. -/
def stringBody? : Text → Option (Text × Nat)
  | [] => none
  | 0x22 :: _ => some ([], 1)
  | 0x5c :: 0x75 :: a :: b :: c :: d :: 0x5c :: 0x75 :: a' :: b' :: c' :: d' :: t =>
    match hex4? a b c d with
    | none => none
    | some high =>
      if 0xd800 ≤ high && high < 0xdc00 then
        match hex4? a' b' c' d' with
        | none => none
        | some low =>
          if 0xdc00 ≤ low && low < 0xe000 then
            let code := 0x10000 + (high - 0xd800) * 0x400 + (low - 0xdc00)
            (stringBody? t).map fun (s, n) => (Text.encode code ++ s, n + 12)
          else none
      else if 0xdc00 ≤ high && high < 0xe000 then none
      else
        (stringBody? (0x5c :: 0x75 :: a' :: b' :: c' :: d' :: t)).map fun (s, n) =>
          (Text.encode high ++ s, n + 6)
  | 0x5c :: 0x75 :: a :: b :: c :: d :: t =>
    match hex4? a b c d with
    | none => none
    | some code =>
      if 0xd800 ≤ code && code < 0xe000 then none
      else (stringBody? t).map fun (s, n) => (Text.encode code ++ s, n + 6)
  | 0x5c :: b :: t =>
    match simpleEscape? b with
    | some e => (stringBody? t).map fun (s, n) => (e :: s, n + 2)
    | none => none
  | b :: t => if b < 0x20 || b == 0x5c then none else (stringBody? t).map fun (s, n) => (b :: s, n + 1)

/-- Reads a string whose opening quote stands at the cursor. -/
def readString (c : Cursor) : Option Token × Cursor :=
  let body := c.rest.drop 1
  match stringBody? body with
  | some (s, n) => (some (.string s), c.forward (n + 1))
  | none =>
    let plain := (body.takeWhile fun b => b ≠ 0x22 && b ≠ 0x5c && 0x20 ≤ b).length
    if body[plain]? = some 0x5c then (none, c.forward (plain + 1)) else (none, c)

/-- Reads a word. -/
private def readWord (c : Cursor) (word : Text) (t : Token) : Option Token × Cursor :=
  if c.rest.startsWith word then (some t, c.forward word.length) else (none, c)

/-- Reads the next token, if there is a well-formed one, and gives the place after it. -/
def nextToken (c : Cursor) : Option Token × Cursor :=
  let c := c.forward (c.rest.takeWhile isSpace).length
  match c.rest with
  | [] => (none, c)
  | b :: _ =>
    if isPunctuation b then (some (.punctuation b), c.forward 1)
    else if b == 0x74 then readWord c "true" (.bool true)
    else if b == 0x66 then readWord c "false" (.bool false)
    else if b == 0x6e then readWord c "null" .null
    else if b == 0x22 then readString c
    else
      match numberLength? c.rest with
      | some n => (some (.number (c.rest.take n)), c.forward n)
      | none => (none, c)

end Galley.Json
