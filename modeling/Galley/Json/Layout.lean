import Galley.Failure
import Galley.Json.Reader
import Galley.Layout.Doc
import Galley.Options

/-!
The layout of JSON values.
-/

namespace Galley.Json

open Layout (Columns Doc)

variable {ι : Type} [Columns ι]

/-- Elements between brackets, or the brackets alone. -/
def bracketed (left : Text) (elements : List (Doc ι)) (right : Text) : Doc ι :=
  if elements.isEmpty then .text (left ++ right)
  else Doc.bracket left (Doc.join [0x2c] elements) right

/-- A value as far as its layout shows it: only its names and the values without parts have a text of their own. -/
inductive Shape where
  | leaf (text : Text)
  | array (elements : List Shape)
  | object (members : List (Text × Shape))

namespace Shape

mutual

/-- The layout of a value. -/
def doc : Shape → Doc ι
  | .leaf t => .text t
  | .array elements => bracketed [0x5b] (elementDocs elements) [0x5d]
  | .object members => bracketed [0x7b] (memberDocs members) [0x7d]

/-- The layouts of the elements of an array. -/
def elementDocs : List Shape → List (Doc ι)
  | [] => []
  | s :: rest => s.doc :: elementDocs rest

/-- The layouts of the members of an object: a value stands after its name or under it. -/
def memberDocs : List (Text × Shape) → List (Doc ι)
  | [] => []
  | (name, s) :: rest => Doc.nestUnder (.text (name ++ [0x3a])) s.doc :: memberDocs rest

end

end Shape

mutual

/-- The shape of a value. -/
def shape : Json → Shape
  | .object members => .object (memberShapes members)
  | .array (v :: rest) => .array (elementShapes (v :: rest))
  | v => .leaf v.leafText

/-- The shapes of the elements of an array. -/
def elementShapes : List Json → List Shape
  | [] => []
  | v :: rest => v.shape :: elementShapes rest

/-- The shapes of the members of an object. -/
def memberShapes : List (Text × Json) → List (Text × Shape)
  | [] => []
  | (name, v) :: rest => (stringText name, v.shape) :: memberShapes rest

end

/-- The layout of a value. -/
def doc (v : Json) : Doc ι := v.shape.doc

/-- The shape of the value that a text stands for, or a message that says why there is none. -/
def readShape (src : Text) : Except Text Shape :=
  match parse src with
  | .error e => .error (e.message src)
  | .ok v => .ok v.shape

/-- What was read, laid out. -/
def formatRead (o : Options ι) (read : Except Text Shape) : Except Failure Text :=
  match read with
  | .error message => .error (.source message)
  | .ok s => Failure.ofLayout (s.doc.render o.config)

/-- A JSON document, laid out. -/
def format (o : Options ι) (src : Text) : Except Failure Text := formatRead o (readShape src)

end Galley.Json
