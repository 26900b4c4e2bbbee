import Galley.Text.Width
import Galley.Layout.Columns

/-!
The options of a layout: how wide lines may be, how deep an indentation level is, and how text is
measured.
-/

namespace Galley.Layout

variable {ι : Type} [Columns ι]

/-- The width of a hard break, and of what is known not to fit on the current line. -/
def infiniteWidth : ι := Columns.ofNat 0xffff

/-- The widest margin. A hard break never fits within it. -/
def maxMargin : ι := Columns.ofNat 0xfffe

/-- The layout options of a single render. -/
structure Config (ι : Type) where
  /-- The desired number of columns per line. -/
  margin : ι
  /-- The columns of one indentation level, and of a tab where tabs are used. -/
  unit : ι
  /-- Leading indentation is written with tabs. -/
  tabs : Bool
  /-- Escape sequences are left out when text is measured. -/
  ansi : Bool
  deriving Repr

/-- Why a configuration is refused by `Config.validate`. -/
inductive Config.Problem where
  | marginTooSmall (margin : Int)
  | marginTooLarge (margin : Int)
  | unitTooSmall (unit : Int)
  deriving DecidableEq, Repr

/-- The wording of a problem. -/
def Config.Problem.message : Config.Problem → Text
  | .marginTooSmall n => ("line length must be > 0: " : Text) ++ Text.ofInt n
  | .marginTooLarge n => ("line length must be <= 65534: " : Text) ++ Text.ofInt n
  | .unitTooSmall n => ("indent width must be > 0: " : Text) ++ Text.ofInt n

namespace Config

/-- Lines of 80 columns, levels of 4. -/
def standard : Config ι := ⟨Columns.ofNat 80, Columns.ofNat 4, false, false⟩

/-- Refuses what a user should not ask for. -/
def validate (c : Config ι) : Except Problem Unit :=
  if c.margin < 1 then .error (.marginTooSmall (Columns.toInt c.margin))
  else if maxMargin < c.margin then .error (.marginTooLarge (Columns.toInt c.margin))
  else if c.unit < 1 then .error (.unitTooSmall (Columns.toInt c.unit))
  else .ok ()

/-- The configuration with standard values for a margin or unit of zero. -/
def withDefaults (c : Config ι) : Config ι :=
  { c with
    margin := if c.margin = 0 then standard.margin else c.margin
    unit := if c.unit = 0 then standard.unit else c.unit }

/-- The columns a text takes. -/
def width (c : Config ι) (t : Text) : ι :=
  Columns.ofNat (if c.ansi then t.shownWidth else t.plainWidth)

end Config

end Galley.Layout
