import Galley.Text.Quoted

/-!
Decimal numbers as they are written: a coefficient and a power of ten. Digits after the point are
kept, so that `1.50` and `1.5` are different texts of one number.
-/

namespace Galley.Json

/-- The number `coefficient * 10 ^ exponent`, negated if `negative`. -/
structure Decimal where
  negative : Bool
  coefficient : Nat
  exponent : Int
  deriving DecidableEq, Repr

/-- Why the text of a number stands for none. -/
inductive Decimal.Problem where
  /-- An exponent beyond what can be counted. -/
  | exponentText (t : Text)
  /-- An exponent beyond what is allowed. -/
  | exponentRange
  deriving DecidableEq, Repr

namespace Decimal

/-- The largest exponent, and the negation of the smallest. -/
def maxExponent : Int := 100000

/-- The wording of a problem. -/
def Problem.message : Problem → Text
  | .exponentText t =>
    ("parse exponent: " : Text) ++ t ++ (": strconv.ParseInt: parsing " : Text) ++ t.quoted
      ++ (": value out of range" : Text)
  | .exponentRange => "exponent out of range"

/-- The number some decimal digits stand for. -/
def ofDigits (t : Text) : Nat := t.foldl (fun n b => n * 10 + (b.toNat - 0x30)) 0

/-- The digits of the coefficient; a coefficient of zero has one. -/
def digits (d : Decimal) : Text := Text.ofNat d.coefficient

/-- The exponent when one digit stands before the point. -/
def adjusted (d : Decimal) : Int := d.exponent + d.digits.length - 1

/-- Whether an exponent is allowed. -/
def inRange (n : Int) : Bool := -maxExponent ≤ n && n ≤ maxExponent

/-- Reads the exponent of a number, which may have a sign. -/
def readExponent (t : Text) : Except Problem Int :=
  let n : Int := match t with
    | 0x2d :: ds => -(ofDigits ds : Int)
    | 0x2b :: ds => ofDigits ds
    | ds => ofDigits ds
  if n < -0x80000000 ∨ 0x80000000 ≤ n then .error (.exponentText t) else .ok n

/-- Reads a number. The text has the form of one: a sign, digits, digits after a point, and an
exponent after `e` or `E`, all but the first digits optional. -/
def ofText (t : Text) : Except Problem Decimal := do
  let (negative, t) := match t with
    | 0x2d :: t => (true, t)
    | t => (false, t)
  let isMark := fun (b : UInt8) => b == 0x65 || b == 0x45
  let mantissa := t.takeWhile (!isMark ·)
  let power := t.dropWhile (!isMark ·)
  let exponent ← if power.isEmpty then pure 0 else readExponent (power.drop 1)
  let whole := mantissa.takeWhile (· ≠ 0x2e)
  let fraction := (mantissa.dropWhile (· ≠ 0x2e)).drop 1
  let d : Decimal := ⟨negative, ofDigits (whole ++ fraction), exponent - fraction.length⟩
  if inRange exponent && inRange (-fraction.length) && inRange d.adjusted then return d
  else throw .exponentRange

/-- The text of a number: plain unless the exponent is positive or the number very small. -/
def toText (d : Decimal) : Text :=
  let sign : Text := if d.negative then "-" else []
  let ds := d.digits
  if d.exponent ≤ 0 ∧ -6 ≤ d.adjusted then
    let places := (-d.exponent).toNat
    if places = 0 then sign ++ ds
    else
      let ds := List.replicate (places + 1 - ds.length) 0x30 ++ ds
      sign ++ ds.take (ds.length - places) ++ (0x2e :: ds.drop (ds.length - places))
  else
    let fraction := if ds.length = 1 then [] else 0x2e :: ds.drop 1
    sign ++ ds.take 1 ++ fraction ++ (0x45 :: Text.ofIntSigned d.adjusted)

end Decimal

end Galley.Json
