import Galley.Text.Space
import Galley.Text.Letter.Runs

/-!
Letters in upper, lower and title case. Every mapping is of one character to one character.
-/

namespace Galley.Text

/-- The image of a code point under the first run that holds it. -/
def CaseRun.map? (runs : List CaseRun) (c : Nat) : Option Nat :=
  (runs.find? fun r => r.first ≤ c && c ≤ r.last && (c - r.first) % r.step == 0).map fun r =>
    ((c : Int) + r.shift).toNat

/-- The upper case of a code point. -/
def upperCode (c : Nat) : Nat :=
  if c < 0x80 then if 0x61 ≤ c && c ≤ 0x7a then c - 0x20 else c
  else (CaseRun.map? upperRuns c).getD c

/-- The lower case of a code point. -/
def lowerCode (c : Nat) : Nat :=
  if c < 0x80 then if 0x41 ≤ c && c ≤ 0x5a then c + 0x20 else c
  else (CaseRun.map? lowerRuns c).getD c

/-- The title case of a code point. -/
def titleCode (c : Nat) : Nat := (CaseRun.map? titleRuns c).getD (upperCode c)

/-- A text in upper case. -/
def upper (t : Text) : Text := ofCodes (t.codes.map upperCode)

/-- A text in lower case. -/
def lower (t : Text) : Text := ofCodes (t.codes.map lowerCode)

/-- Whether a word starts after a character: beyond ASCII only after white space. -/
def separates (c : Nat) : Bool :=
  if c < 0x80 then
    !(0x30 ≤ c && c ≤ 0x39 || 0x41 ≤ c && c ≤ 0x5a || 0x61 ≤ c && c ≤ 0x7a || c == 0x5f)
  else isSpace c

/-- Code points with the first letter of every word in title case, after the code point `before`. -/
def titleAfter (before : Nat) : List Nat → List Nat
  | [] => []
  | c :: cs => (if separates before then titleCode c else c) :: titleAfter c cs

/-- A text in lower case with the first letter of every word in title case. -/
def title (t : Text) : Text := ofCodes (titleAfter 0x20 t.lower.codes)

end Galley.Text
