import Galley.Comment.Basic
import Galley.Comment.Wrap

/-!
How comments are written again: which blank lines are kept, and where long comments are wrapped.
-/

namespace Galley.Comment

/-- How comments are written again. -/
structure Policy where
  /-- The longest run of blank lines kept. -/
  maxBlankLines : Int
  /-- Comments are wrapped to this many columns when it is positive. -/
  wrapWidth : Int
  deriving DecidableEq, Repr

namespace Policy

/-- Single blank lines, no wrapping. -/
def standard : Policy := ⟨1, 0⟩

/-- A comment as the comments it is wrapped into. -/
def wrap (pol : Policy) (c : Comment) : List Comment :=
  let body := c.text.trim
  let limit := pol.wrapWidth - c.marker.length - 1
  if pol.wrapWidth ≤ 0 ∨ limit < 1 ∨ (c.marker.length + c.text.length : Int) ≤ pol.wrapWidth ∨
      body.isEmpty then [c]
  else (wrapText limit.toNat body).map fun l => .line c.marker (0x20 :: l.trim)

/-- Items after a run of `run` blank lines. -/
def normalizeAfter (pol : Policy) (run : Nat) : List Comment → List Comment
  | [] => []
  | c :: rest =>
    if c.blank then
      let kept := pol.normalizeAfter (run + 1) rest
      if (run + 1 : Int) ≤ pol.maxBlankLines then c :: kept else kept
    else pol.wrap c ++ pol.normalizeAfter 0 rest

/-- Shortens runs of blank lines and wraps long comments. -/
def normalize (pol : Policy) (items : List Comment) : List Comment := pol.normalizeAfter 0 items

/-- Asks for items at the start of a line, each on its own. -/
def calls {ι : Type} (pol : Policy) (items : List Comment) : List (Layout.Call ι) :=
  lineCalls (pol.normalize items)

end Policy

end Galley.Comment
