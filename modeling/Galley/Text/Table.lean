import Galley.Text.Basic

/-!
Tables of numbers in short: as lines of text, hexadecimal digits with spaces between the numbers, and ranges as
the distances between them.
-/

namespace Galley.Text

/-- Adds a byte of a table to the numbers read so far, the last one first. -/
def tableStep (acc : List Nat) (b : UInt8) : List Nat :=
  if b == 0x20 then 0 :: acc
  else
    let d := if b < 0x3a then b.toNat - 0x30 else b.toNat - 0x57
    match acc with
    | n :: rest => (n * 16 + d) :: rest
    | [] => [d]

/-- The numbers in the lines of a table. -/
def tableNumbers (lines : List String) : List Nat :=
  ((lines.map ofString).flatMap fun l => (l.foldl tableStep [0]).reverse)

/-- Ranges from how far each starts after the last one, and how far it goes. -/
def spacedRanges (last : Nat) : List Nat → List (Nat × Nat)
  | gap :: span :: rest => (last + gap, last + gap + span) :: spacedRanges (last + gap + span) rest
  | _ => []

end Galley.Text
