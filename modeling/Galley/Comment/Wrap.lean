import Galley.Text.Width
import Galley.Text.Space

/-!
Wrapping of running text at a limit of columns. Words are kept whole; a hyphen may end a line.
-/

namespace Galley.Comment

open Galley.Text (isSpace escape endsEscape)

/-- The state of a wrap: what is written, and the blanks and the word that are not yet. -/
structure Wrap where
  /-- What has been written, last piece first. -/
  pieces : List Text
  /-- The columns written on the current line. -/
  column : Nat
  space : List Nat
  word : List Nat
  /-- Whether an escape sequence is open. -/
  escaped : Bool

namespace Wrap

/-- Nothing read yet. -/
def start : Wrap := ⟨[], 0, [], [], false⟩

/-- Everything written. -/
def text (w : Wrap) : Text := w.pieces.reverse.flatten

/-- The bytes of the blanks held back. -/
def spaceLength (w : Wrap) : Nat := (Text.ofCodes w.space).length

/-- The columns of the word held back. -/
def wordWidth (w : Wrap) : Nat := Text.shownWidthOf false w.word

/-- Writes the blanks. -/
def addSpace (w : Wrap) : Wrap :=
  { w with
    pieces := Text.ofCodes w.space :: w.pieces, column := w.column + w.spaceLength, space := [] }

/-- Writes the word, and the blanks before it. -/
def addWord (w : Wrap) : Wrap :=
  if w.word.isEmpty then w
  else
    let v := w.addSpace
    { v with
      pieces := Text.ofCodes w.word :: v.pieces, column := v.column + w.wordWidth, word := [] }

/-- Ends the line. Blanks before its end are dropped. -/
def addLine (w : Wrap) : Wrap := { w with pieces := [0x0a] :: w.pieces, column := 0, space := [] }

/-- Reads a character. -/
def step (limit : Nat) (w : Wrap) (c : Nat) : Wrap :=
  if c == escape then { w with word := w.word ++ [c], escaped := true }
  else if w.escaped then { w with word := w.word ++ [c], escaped := !endsEscape c }
  else if c == 0x0a then
    let w := if w.word.isEmpty then
        if limit < w.column + w.spaceLength then { w with column := 0, space := [] }
        else { w with pieces := Text.ofCodes w.space :: w.pieces, space := [] }
      else w
    w.addWord.addLine
  else if isSpace c then
    let w := w.addWord
    { w with space := w.space ++ [c] }
  else if c == 0x2d then
    let w := w.addSpace.addWord
    { w with pieces := [0x2d] :: w.pieces }
  else
    let w := { w with word := w.word ++ [c] }
    if limit < w.column + w.spaceLength + w.wordWidth ∧ w.wordWidth < limit then w.addLine else w

end Wrap

/-- The lines of a text wrapped at `limit` columns. -/
def wrapText (limit : Nat) (t : Text) : List Text :=
  (t.codes.foldl (Wrap.step limit) Wrap.start).addWord.text.lines

end Galley.Comment
