import Galley.Text.Space
import Galley.Layout.Printer

/-!
Comments and blank lines of a source, kept so that they can be written again around what they
belong to.
-/

namespace Galley

/-- A comment line, or a blank line. -/
structure Comment where
  /-- What marks the line as a comment, like `--` or `#`. -/
  marker : Text
  text : Text
  blank : Bool
  deriving DecidableEq, Repr

namespace Comment

/-- A blank line. -/
def blankLine : Comment := ⟨[], [], true⟩

/-- A comment line. -/
def line (marker text : Text) : Comment := ⟨marker, text, false⟩

/-- The line itself. -/
def toText (c : Comment) : Text := if c.blank then [] else c.marker ++ c.text

/-- The items without the blank lines at either end. -/
def trimBlank (items : List Comment) : List Comment :=
  ((items.dropWhile (·.blank)).reverse.dropWhile (·.blank)).reverse

/-- Items that stand at the start of a line, each on its own: a comment is followed by a hard
break, and a blank line is one more hard break. -/
def lineCalls {ι : Type} (items : List Comment) : List (Layout.Call ι) :=
  items.flatMap fun c => if c.blank then [.hardBreak] else [.text c.toText, .hardBreak]

end Comment

end Galley
