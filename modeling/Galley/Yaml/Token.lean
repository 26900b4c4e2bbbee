import Galley.Yaml.Source

/-!
The tokens of a YAML source, the places they stand at, and what can be wrong with a source.
-/

namespace Galley.Yaml

/-- A place in a source: the number of characters, lines, and characters of the line before it. -/
structure Mark where
  index : Int := 0
  line : Nat := 0
  column : Nat := 0
  deriving DecidableEq, Repr, Inhabited

/-- How a scalar is written. -/
inductive Style where
  | plain
  | singleQuoted
  | doubleQuoted
  | literal
  | folded
  deriving DecidableEq, Repr

/-- What a token is. -/
inductive TokenKind where
  | streamStart
  | streamEnd
  | version (major minor : Nat)
  | shorthand (handle start : Text)
  | documentStart
  | documentEnd
  | blockSequenceStart
  | blockMappingStart
  | blockEnd
  | flowSequenceStart
  | flowSequenceEnd
  | flowMappingStart
  | flowMappingEnd
  | blockEntry
  | flowEntry
  | key
  | value
  | reference (name : Text)
  | anchor (name : Text)
  | tag (handle suffix : Text)
  | scalar (value : Text) (style : Style)
  deriving DecidableEq, Repr

/-- A token with the places where it starts and stops. -/
structure Token where
  kind : TokenKind
  start : Mark
  stop : Mark
  deriving DecidableEq, Repr

/-- What is wrong with a source. -/
inductive Problem where
  /-- Its bytes are no text. -/
  | miscoded (f : Miscoding)
  /-- No token can be read at a place, after what started at another. -/
  | lexical (cause : Text) (context place : Mark)
  /-- A token stands out of place, in what started at `context`. -/
  | structural (cause : Text) (context place : Mark)
  /-- A reference has no node. -/
  | unknownAnchor (name : Text)
  deriving DecidableEq, Repr

namespace Problem

/-- The line that a message names: that of the context, or of the place if the context is in the
first line, and none if both are. A line is counted from one where no token can be read, and from
zero where a token is out of place. -/
def line (first : Nat) (context place : Mark) : Text :=
  let n := if context.line ≠ 0 then context.line else place.line
  if n = 0 then [] else ("line " : Text) ++ Text.ofNat (n + first) ++ (": " : Text)

/-- The wording of a problem. -/
def message : Problem → Text
  | .miscoded f => ("yaml: " : Text) ++ f.message
  | .lexical cause context place => ("yaml: " : Text) ++ line 1 context place ++ cause
  | .structural cause context place => ("yaml: " : Text) ++ line 0 context place ++ cause
  | .unknownAnchor name =>
    ("yaml: unknown anchor '" : Text) ++ name ++ ("' referenced" : Text)

end Problem

end Galley.Yaml
