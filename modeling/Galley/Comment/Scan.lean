import Galley.Comment.Basic

/-!
Reading comments from a source.
-/

namespace Galley.Comment

/-- A line that holds only a comment, white space around it aside. -/
def ofLine? (marker line : Text) : Option Comment :=
  let trimmed := line.trim
  if trimmed.startsWith marker then some (.line marker (trimmed.drop marker.length)) else none

/-- Reads comment lines and blank lines off the front of some lines, up to the first that is
neither. The last line has no newline: if it is blank it is not a line at all. -/
def scanLines (marker : Text) : List Text → List Comment × List Text
  | [] => ([], [])
  | l :: rest =>
    if l.trim.isEmpty then
      if rest.isEmpty then ([], [])
      else
        let (items, left) := scanLines marker rest
        (blankLine :: items, left)
    else
      match ofLine? marker l with
      | some c =>
        let (items, left) := scanLines marker rest
        (c :: items, left)
      | none => ([], l :: rest)

/-- Reads the comment lines and blank lines at the start of a source. The rest begins with the
first line that is neither. -/
def scan (marker src : Text) : List Comment × Text :=
  let (items, left) := scanLines marker src.lines
  (items, Text.join [0x0a] left)

/-- Looks at the rest of the current line. If it holds only a comment, that comment is taken and
the rest starts on the next line; if it holds only white space, the rest starts on the next line;
else nothing is taken. -/
def splitTrailing (marker src : Text) : Option Comment × Text :=
  let (line, next) := src.cutLine
  if line.trim.isEmpty then (none, next)
  else
    match ofLine? marker line with
    | some c => (some c, next)
    | none => (none, src)

end Galley.Comment
