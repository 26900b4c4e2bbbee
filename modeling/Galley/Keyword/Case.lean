import Galley.Keyword.Generator
import Galley.Text.Letter
import Galley.Text.Quoted

/-!
The letter case of keywords.
-/

namespace Galley.Keyword

/-- How keywords are spelt. -/
inductive Case where
  | lower
  | spongebob
  | title
  | upper
  deriving DecidableEq, Repr

namespace Case

/-- All cases, by name in alphabetical order. -/
def all : List Case := [.lower, .spongebob, .title, .upper]

/-- The name of a case. -/
def name : Case → Text
  | .lower => "lower"
  | .spongebob => "spongebob"
  | .title => "title"
  | .upper => "upper"

/-- The message for a name that is no case. -/
def unknownMessage (name : Text) : Text :=
  ("unknown case " : Text) ++ name.quoted ++ (", want one of " : Text)
    ++ Text.join (", " : Text) (all.map Case.name)

/-- The case of a name. -/
def ofName (name : Text) : Except Text Case :=
  match all.find? fun c => c.name = name with
  | some c => .ok c
  | none => .error (unknownMessage name)

/-- The seed of a text: equal texts come out equal. -/
def seed (t : Text) : Int64 :=
  t.codes.foldl (fun s c => s * 31 + Int64.ofNat c) (Int64.ofNat t.length)

/-- Every letter in upper or lower case as a coin falls. -/
def tossed (g : Generator) : List Nat → List Nat
  | [] => []
  | c :: cs =>
    let (heads, g) := g.toss
    (if heads then Text.lowerCode c else Text.upperCode c) :: tossed g cs

/-- A text in a case. -/
def apply : Case → Text → Text
  | .lower, t => t.lower
  | .spongebob, t => Text.ofCodes (tossed (Generator.ofSeed (seed t)) t.codes)
  | .title, t => t.title
  | .upper, t => t.upper

end Case

end Galley.Keyword
