import Galley.Text.Composed.Pairs
import Galley.Text.Utf8

/-!
The composed form of texts, in which canonically equivalent texts are the same: characters are taken
apart, marks are put in order, and what can be composed is composed.
-/

namespace Galley.Text

/-- The class of a combining mark, which is zero for all other characters. -/
def markClass (c : Nat) : Nat :=
  match markRuns.find? fun (first, last, _) => first ≤ c && c ≤ last with
  | some (_, _, k) => k
  | none => 0

/-! ## Taking apart -/

/-- The parts of a syllable block. -/
def syllableParts (c : Nat) : List Nat :=
  let s := c - 0xac00
  let last := s % 28
  [0x1100 + s / 588, 0x1161 + s % 588 / 28] ++ if last = 0 then [] else [0x11a7 + last]

/-- The parts of a character, taken apart `n` times at most. -/
def partsOf : Nat → Nat → List Nat
  | 0, c => [c]
  | n + 1, c =>
    if c < 0x80 then [c]
    else if 0xac00 ≤ c && c ≤ 0xd7a3 then syllableParts c
    else
      match (composedPairs ++ splitPairs).find? fun (whole, _) => whole == c with
      | some (_, a, b) => partsOf n a ++ if b = 0 then [] else partsOf n b
      | none => [c]

/-- Puts a character after others, of which the last comes first. A mark moves before those of a
higher class. -/
def insertMark (c : Nat) : List Nat → List Nat
  | [] => [c]
  | d :: rest =>
    if markClass c ≠ 0 && markClass c < markClass d then d :: insertMark c rest
    else c :: d :: rest

/-- The parts of characters, with their marks in order. -/
def decomposed (cs : List Nat) : List Nat :=
  ((cs.flatMap (partsOf 4)).foldl (fun acc c => insertMark c acc) []).reverse

/-! ## Putting together -/

/-- The character that two others compose. -/
def compose? (a b : Nat) : Option Nat :=
  if 0x1100 ≤ a && a ≤ 0x1112 && 0x1161 ≤ b && b ≤ 0x1175 then
    some (0xac00 + (a - 0x1100) * 588 + (b - 0x1161) * 28)
  else if 0xac00 ≤ a && a ≤ 0xd7a3 && (a - 0xac00) % 28 == 0 && 0x11a8 ≤ b && b ≤ 0x11c2 then
    some (a + (b - 0x11a7))
  else (composedPairs.find? fun (_, x, y) => x == a && y == b).map (·.1)

/-- Composes a character with those that follow it, and these with each other. The marks that were
passed over, the last one first, stand between them; one of the same class keeps a mark apart. -/
def composeFrom (base : Nat) (passed : List Nat) : List Nat → List Nat
  | [] => base :: passed.reverse
  | c :: rest =>
    let isApart := match passed with
      | [] => false
      | m :: _ => markClass c ≤ markClass m
    match if isApart then none else compose? base c with
    | some whole => composeFrom whole passed rest
    | none =>
      if markClass c = 0 then base :: passed.reverse ++ composeFrom c [] rest
      else composeFrom base (c :: passed) rest

/-- The composed form of a text. -/
def composed (t : Text) : Text :=
  if t.all (· < 0x80) then t
  else
    match decomposed t.codes with
    | [] => []
    | c :: rest => ofCodes (composeFrom c [] rest)

end Galley.Text
