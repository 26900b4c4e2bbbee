import Galley.Text.Quoted

/-!
Numbers and truth values as users write them, and what is said about a text that is none.
-/

namespace Galley.Text

/-- Why a text is not taken for a value. -/
inductive Misreading where
  | malformed
  /-- The number does not fit into 64 bits. -/
  | outOfRange
  deriving DecidableEq, Repr

/-- The wording of a misreading by the named reader. -/
def Misreading.message (reader : Text) (t : Text) (m : Misreading) : Text :=
  ("strconv." : Text) ++ reader ++ (": parsing " : Text) ++ t.quoted ++
    match m with
    | .malformed => (": invalid syntax" : Text)
    | .outOfRange => ": value out of range"

/-- Reads a truth value. -/
def readBool (t : Text) : Except Text Bool :=
  if ["1", "t", "T", "true", "TRUE", "True"].any fun s => ofString s = t then .ok true
  else if ["0", "f", "F", "false", "FALSE", "False"].any fun s => ofString s = t then .ok false
  else .error (Misreading.malformed.message "ParseBool" t)

/-- A letter in lower case. No other byte becomes a letter. -/
private def lowerCase (b : UInt8) : UInt8 := b ||| 0x20

/-- The value of a digit, of up to 36. -/
def digit (b : UInt8) : Option Nat :=
  if 0x30 ≤ b && b ≤ 0x39 then some (b.toNat - 0x30)
  else if 0x61 ≤ lowerCase b && lowerCase b ≤ 0x7a then some ((lowerCase b).toNat - 0x61 + 10)
  else none

/-- Reads digits after those that make up `n`. Reading stops at the first byte that is no digit or
where the number leaves 64 bits. -/
def readDigits (base : Nat) (underscores : Bool) : Nat → Text → Except Misreading Nat
  | n, [] => .ok n
  | n, b :: t =>
    if underscores && b == 0x5f then readDigits base underscores n t
    else
      match digit b with
      | none => .error .malformed
      | some d =>
        if base ≤ d then .error .malformed
        else
          let n := n * base + d
          if 0x10000000000000000 ≤ n then .error .outOfRange else readDigits base underscores n t

/-- What stands before a place in a number. -/
private inductive Before where
  | start
  | digit
  | underscore
  | other

/-- Whether every underscore from here on stands between two digits. -/
private def underscoresDivide (hexadecimal : Bool) : Before → Text → Bool
  | .underscore, [] => false
  | _, [] => true
  | before, b :: t =>
    if 0x30 ≤ b && b ≤ 0x39 || hexadecimal && 0x61 ≤ lowerCase b && lowerCase b ≤ 0x66 then
      underscoresDivide hexadecimal .digit t
    else if b == 0x5f then
      match before with
      | .digit => underscoresDivide hexadecimal .underscore t
      | _ => false
    else
      match before with
      | .underscore => false
      | _ => underscoresDivide hexadecimal .other t

/-- The base that a number announces, and what stands after the announcement. -/
private def announcedBase : Text → Nat × Text
  | 0x30 :: b :: c :: t =>
    if lowerCase b == 0x62 then (2, c :: t)
    else if lowerCase b == 0x6f then (8, c :: t)
    else if lowerCase b == 0x78 then (16, c :: t)
    else (8, b :: c :: t)
  | 0x30 :: t => (8, t)
  | t => (10, t)

/-- Whether underscores stand only between digits; an announced base counts as a digit. -/
private def underscoresAllowed (t : Text) : Bool :=
  match t with
  | 0x30 :: b :: rest =>
    if lowerCase b == 0x78 then underscoresDivide true .digit rest
    else if lowerCase b == 0x62 || lowerCase b == 0x6f then underscoresDivide false .digit rest
    else underscoresDivide false .start t
  | _ => underscoresDivide false .start t

/-- Reads a number without a sign in decimal. -/
def readDecimal (t : Text) : Except Misreading Nat :=
  if t.isEmpty then .error .malformed else readDigits 10 false 0 t

/-- Reads a number without a sign in the base that it announces. Its digits may be divided by
underscores. -/
def readAnnounced (t : Text) : Except Misreading Nat :=
  if t.isEmpty then .error .malformed
  else do
    let (base, digits) := announcedBase t
    let n ← readDigits base true 0 digits
    if t.contains 0x5f && !underscoresAllowed t then .error .malformed else .ok n

/-- A number of 64 bits with its sign. -/
def signed (negative : Bool) (n : Nat) : Except Misreading Int :=
  if negative then if 0x8000000000000000 < n then .error .outOfRange else .ok (-(n : Int))
  else if 0x8000000000000000 ≤ n then .error .outOfRange
  else .ok n

/-- Reads a number with or without a sign, as one of 64 bits. -/
def readSigned (magnitude : Text → Except Misreading Nat) : Text → Except Misreading Int
  | 0x2d :: t => magnitude t >>= signed true
  | 0x2b :: t => magnitude t >>= signed false
  | t => magnitude t >>= signed false

/-- Reads a decimal number. -/
def readInt (t : Text) : Except Text Int :=
  (readSigned readDecimal t).mapError (·.message "Atoi" t)

/-- Reads a number in the base that it announces. -/
def readIntAnyBase (t : Text) : Except Text Int :=
  (readSigned readAnnounced t).mapError (·.message "ParseInt" t)

end Galley.Text
