import Galley.Comment.Policy
import Galley.Text.Numeral

/-!
The options of the formatters.
-/

namespace Galley

open Layout (Breaks Columns Config)

/-- What a formatter may be told. -/
structure Options (ι : Type) where
  layout : Config ι
  /-- Applied to keywords; without it they stay in upper case. -/
  keywordCase : Option (Text → Text)
  /-- Every element of a broken list stands on its own line. -/
  expanded : Bool
  /-- Keywords are highlighted with escape sequences. -/
  color : Bool
  comments : Comment.Policy

namespace Options

variable {ι : Type} [Columns ι]

/-- The standard layout and comments, nothing else. -/
def standard : Options ι := ⟨.standard, none, false, false, .standard⟩

/-- The layout to print with: colours are escape sequences, which have no width. -/
def config (o : Options ι) : Config ι :=
  { o.layout with ansi := o.layout.ansi || o.color }

/-- How lists break. -/
def listBreaks (o : Options ι) : Breaks := if o.expanded then .consistent else .inconsistent

/-- Starts the highlighting of a keyword. -/
def colorKeyword : Text := "\x1b[34m"

/-- Ends the highlighting of a keyword. -/
def colorReset : Text := "\x1b[0m"

/-- A keyword as it is written. -/
def keyword (o : Options ι) (s : Text) : Text :=
  let s := match o.keywordCase with
    | some f => f s
    | none => s
  if o.color then colorKeyword ++ s ++ colorReset else s

/-- Reads a switch, which may also be spelled `on` or `off`. -/
def readSwitch (t : Text) : Except Text Bool :=
  if t = Text.ofString "on" then .ok true
  else if t = Text.ofString "off" then .ok false
  else Text.readBool t

end Options

end Galley
