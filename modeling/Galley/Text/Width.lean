import Galley.Text.Cluster
import Galley.Text.Width.Ranges

/-!
How many columns a text takes on a terminal: plainly, cluster by cluster, or with escape sequences
left out of account, character by character.
-/

namespace Galley.Text

/-- The columns a character takes on its own. -/
def codeWidth (c : Nat) : Nat :=
  if c < 0x20 || 0x7f ≤ c && c ≤ 0x9f || c == 0xad then 0
  else if c < 0x300 then 1
  else if inRanges narrowRanges c then 1
  else if inRanges hiddenRanges c || inRanges combiningRanges c then 0
  else if inRanges wideRanges c then 2
  else 1

/-- The columns a cluster takes: those of its first character that takes any. -/
def clusterWidth (cs : List Nat) : Nat :=
  ((cs.map codeWidth).find? (0 < ·)).getD 0

/-- The columns a text takes when every byte of it is shown. -/
def plainWidth (t : Text) : Nat := (clusters t.codes).foldr (fun c n => clusterWidth c + n) 0

/-- The character that starts an escape sequence. -/
def escape : Nat := 0x1b

/-- Whether a character ends an escape sequence. -/
def endsEscape (c : Nat) : Bool := 0x40 ≤ c && c ≤ 0x5a || 0x61 ≤ c && c ≤ 0x7a

/-- The columns of some characters; `inside` tells whether an escape sequence is open. -/
def shownWidthOf (inside : Bool) : List Nat → Nat
  | [] => 0
  | c :: cs =>
    if c == escape then shownWidthOf true cs
    else if inside then shownWidthOf (!endsEscape c) cs
    else codeWidth c + shownWidthOf false cs

/-- The columns a text takes when escape sequences are obeyed rather than shown. -/
def shownWidth (t : Text) : Nat := shownWidthOf false t.codes

end Galley.Text
