import Galley.Json.Decimal

/-!
JSON values and their compact text.
-/

namespace Galley

/-- A JSON value. The members of an object are sorted by name, and no name is repeated. -/
inductive Json where
  | null
  | bool (b : Bool)
  | number (d : Json.Decimal)
  | string (s : Text)
  | array (elements : List Json)
  | object (members : List (Text × Json))
  deriving Repr

namespace Json

instance : Inhabited Json := ⟨.null⟩

/-- The spelling of a character inside a string. -/
def stringGlyph (g : Text.Glyph) : Text :=
  if g.malformed then "\\ufffd"
  else if g.code == 0x22 then "\\\""
  else if g.code == 0x5c then "\\\\"
  else if g.code == 0x0a then "\\n"
  else if g.code == 0x0d then "\\r"
  else if g.code == 0x09 then "\\t"
  else if g.code < 0x20 then ("\\u" : Text) ++ Text.hex 4 g.code
  else g.bytes

/-- The text of a string. -/
def stringText (s : Text) : Text :=
  ("\"" : Text) ++ s.glyphs.flatMap stringGlyph ++ ("\"" : Text)

/-- The text of a value that has no parts. -/
def leafText : Json → Text
  | .null => "null"
  | .bool true => "true"
  | .bool false => "false"
  | .number d => d.toText
  | .string s => stringText s
  | .array _ => "[]"
  | .object _ => "\x7b\x7d"

/-- Whether a text comes before another, byte by byte. -/
def before : Text → Text → Bool
  | _, [] => false
  | [], _ :: _ => true
  | a :: s, b :: t => a < b || a == b && before s t

/-- Members with one more. It takes the place of a member of the same name. -/
def insert (name : Text) (value : Json) : List (Text × Json) → List (Text × Json)
  | [] => [(name, value)]
  | (n, v) :: rest =>
    if n = name then (name, value) :: rest
    else if before name n then (name, value) :: (n, v) :: rest
    else (n, v) :: insert name value rest

/-- The object with the given members, of which the later win. -/
def ofMembers (members : List (Text × Json)) : Json :=
  .object (members.foldl (fun sorted (n, v) => insert n v sorted) [])

end Json

end Galley
