import Galley.Text.Utf8

/-!
Messages in which a percent sign starts a directive: flags, a width and a precision, then the verb.
There is nothing to fill a directive with, so each one is replaced by a note that says so; a
doubled percent sign stands for one.
-/

namespace Galley.Text

/-- What of a directive may still come. -/
private inductive Part where
  /-- Nothing: there is no directive. -/
  | outside
  | flags
  | width
  /-- What follows the width. -/
  | point
  | precision
  /-- More digits of the precision. -/
  | precisionDigits
  | verb

private def Glyph.isFlag (g : Glyph) : Bool := [0x23, 0x30, 0x2b, 0x2d, 0x20].contains g.code

private def Glyph.isDigit (g : Glyph) : Bool := 0x30 ≤ g.code && g.code ≤ 0x39

/-- What a verb is replaced by. -/
private def Glyph.asVerb (g : Glyph) : Text :=
  if g.code == 0x25 then [0x25]
  else ("%!" : Text) ++ encode g.code ++ ("(MISSING)" : Text)

/-- A message from a place on. -/
private def unfilledFrom : Part → List Glyph → Text
  | .outside, [] => []
  | _, [] => "%!(NOVERB)"
  | part, g :: gs =>
    let verb := g.asVerb ++ unfilledFrom .outside gs
    match part with
    | .outside =>
      if g.code == 0x25 then unfilledFrom .flags gs else g.bytes ++ unfilledFrom .outside gs
    | .flags =>
      if g.isFlag then unfilledFrom .flags gs
      else if g.code == 0x2a then ("%!(BADWIDTH)" : Text) ++ unfilledFrom .point gs
      else if g.isDigit then unfilledFrom .width gs
      else if g.code == 0x2e then unfilledFrom .precision gs
      else verb
    | .width =>
      if g.isDigit then unfilledFrom .width gs
      else if g.code == 0x2e then unfilledFrom .precision gs
      else verb
    | .point => if g.code == 0x2e then unfilledFrom .precision gs else verb
    | .precision =>
      if g.code == 0x2a then ("%!(BADPREC)" : Text) ++ unfilledFrom .verb gs
      else if g.isDigit then unfilledFrom .precisionDigits gs
      else verb
    | .precisionDigits => if g.isDigit then unfilledFrom .precisionDigits gs else verb
    | .verb => verb

/-- A message whose directives are left unfilled. -/
def unfilled (t : Text) : Text := unfilledFrom .outside t.glyphs

end Galley.Text
