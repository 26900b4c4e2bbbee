import Galley.Sql.Keyword
import Galley.Text.Composed
import Galley.Text.Letter

/-!
The names of SQL. Names without quotes are read in lower case, whatever way they are written, and a
name is written without quotes where it reads back as itself.
-/

namespace Galley.Sql

/-- The lower case of a code point in a name. An `i` is one with its dot or without. -/
def foldCode (c : Nat) : Nat := if c = 0x130 || c = 0x131 then 0x69 else Text.lowerCode c

/-- The name that is meant by a text without quotes. -/
def folded (t : Text) : Text := Text.composed (Text.ofCodes ((Text.codes t).map foldCode))

/-- Whether a name is read back as it stands: it starts with a small letter or underscore, goes on
with these, digits and dollar signs, and is its own folded form. -/
def isBare (name : Text) : Bool :=
  let start := fun (b : UInt8) => (0x61 ≤ b && b ≤ 0x7a) || b == 0x5f || 0x80 ≤ b
  match name with
  | [] => false
  | b :: rest =>
    start b && rest.all (fun c => start c || (0x30 ≤ c && c ≤ 0x39) || c == 0x24) &&
      (name.all (· < 0x80) || folded name == name)

/-- A name in quotes. -/
def quotedName (name : Text) : Text :=
  [0x22] ++ name.flatMap (fun b => if b = 0x22 then [0x22, 0x22] else [b]) ++ [0x22]

/-- A name as it is spelt where keywords may stand. -/
def nameText (name : Text) : Text :=
  if isBare name && !needsQuotes name.toString then name else quotedName name

/-- A name as it is spelt where no keyword may stand. -/
def labelText (name : Text) : Text := if isBare name then name else quotedName name

/-- A name of several parts. Only the first stands where a keyword might. -/
def pathText : List Text → Text
  | [] => []
  | first :: more => Text.join [0x2e] (nameText first :: more.map labelText)

/-- A name of several parts, each of which may be mistaken for a keyword. -/
def objectText (parts : List Text) : Text := Text.join [0x2e] (parts.map nameText)

end Galley.Sql
