import Galley.Keyword.Case
import Galley.Language
import Galley.Web.Cache
import Galley.Web.Form
import Galley.Web.Page
import Galley.Web.Path

/-!
The formatter as a service. Results are kept by the query that asked for them, so that a query
that is sent again is answered with the result it had, whatever else is sent with it.
-/

namespace Galley.Web

open Layout (Columns Config Fault)

/-- A request. -/
structure Request where
  method : Text
  path : Text
  /-- What stands after the question mark, as it was sent. -/
  query : Text
  /-- The form in the body, if there is one. -/
  body : Option Text

/-- An answer. -/
structure Reply where
  code : Nat
  /-- The type of the body; empty if none is given. -/
  type : Text
  body : Text
  deriving DecidableEq, Repr

/-- What came of formatting: the text, or the message of what failed. -/
structure Result where
  data : Text
  failed : Bool
  deriving DecidableEq, Repr

/-! ## Formatting -/

/-- Whether the body of a request is read. -/
def Request.hasBody (r : Request) : Bool :=
  ["POST", "PUT", "PATCH"].any fun m => Text.ofString m = r.method

/-- The form of a request: its body comes before its query. -/
def Request.form (r : Request) : Form :=
  (if r.hasBody then Form.ofText (r.body.getD []) else []) ++ Form.ofText r.query

namespace Form

/-- Reads the value of a name, unless it has none. -/
def readOr {α : Type} (f : Form) (name : Text) (read : Text → Except Text α) (otherwise : α) :
    Except Text α :=
  let v := f.value name
  if v.isEmpty then .ok otherwise
  else (read v).mapError fun m => name ++ (": " : Text) ++ m

/-- What is formatted. -/
def source (f : Form) : Text :=
  let sql := f.value "sql"
  if sql.isEmpty then f.value "src" else sql

/-- The name of the language. -/
def language (f : Form) : Text :=
  let name := f.value "lang"
  if name.isEmpty then "sql" else name

/-- The options that a form asks for. Lines are indented with tabs unless it asks for spaces. -/
def options (ι : Type) [Columns ι] (f : Form) : Except Text (Options ι) := do
  let standard : Config ι := .standard
  let margin ← f.readOr "n" Text.readInt (Columns.toInt standard.margin)
  let unit ← f.readOr "indent" Text.readInt (Columns.toInt standard.unit)
  let expanded ← f.readOr "expanded" Options.readSwitch false
  let spaces ← f.readOr "spaces" Options.readSwitch false
  let layout : Config ι :=
    { standard with margin := Columns.ofInt margin, unit := Columns.ofInt unit, tabs := !spaces }
  layout.validate.mapError (·.message)
  let name := f.value "case"
  let keywordCase ← if name.isEmpty then pure none else (some ·.apply) <$> Keyword.Case.ofName name
  return { (Options.standard : Options ι) with layout, keywordCase, expanded }

/-- The source of a form, laid out as the form asks for. -/
def format (ι : Type) [Columns ι] (f : Form) : Except Failure Text :=
  match f.options ι with
  | .error m => .error (.source m)
  | .ok o => Galley.format o f.language [f.source]

/-- The result for a form. -/
def result (ι : Type) [Columns ι] (f : Form) : Except Fault Result :=
  match f.format ι with
  | .ok t => .ok ⟨t, false⟩
  | .error (.source m) => .ok ⟨m, true⟩
  | .error (.layout e) => .error e

end Form

/-! ## Answers -/

/-- The spelling of a character inside a string that may stand on a page. -/
def safeGlyph (g : Text.Glyph) : Text :=
  if g.code == 0x08 then "\\b"
  else if g.code == 0x0c then "\\f"
  else if [0x26, 0x3c, 0x3e, 0x2028, 0x2029].contains g.code then
    ("\\u" : Text) ++ Text.hex 4 g.code
  else Json.stringGlyph g

/-- A result as a JSON object. -/
def Result.json (r : Result) : Text :=
  ("\x7b\"Data\":\"" : Text) ++ r.data.glyphs.flatMap safeGlyph ++ ("\",\"Error\":" : Text) ++
    (if r.failed then "true" else "false" : String) ++ ("\x7d\n" : Text)

/-- The answer to a form with a result: an object if the form asks for one, else the plain text. -/
def Result.reply (r : Result) (f : Form) : Reply :=
  if (f.value "json").isEmpty then ⟨if r.failed then 400 else 200, "text/plain", r.data⟩
  else ⟨200, "application/json", r.json⟩

/-- The type of a page. -/
def pageType : Text := "text/html; charset=utf-8"

/-- The answer to a request for a path that is not clean: the clean one is to be asked for. -/
def Request.redirection (r : Request) (path : Text) : Reply :=
  let isGet := r.method = Text.ofString "GET"
  let address := escapePath path ++ if r.query.isEmpty then [] else 0x3f :: r.query
  { code := 301
    type := if isGet || r.method = Text.ofString "HEAD" then pageType else []
    body := if isGet then
        ("<a href=\"" : Text) ++ markup address ++ ("\">Moved Permanently</a>.\n\n" : Text)
      else [] }

/-- A service. -/
structure Server where
  results : Cache Text Result

namespace Server

/-- A service that keeps up to `capacity` results, of which there must be one. -/
def ofCapacity (capacity : Int) : Except Text Server :=
  if 0 < capacity then .ok ⟨.empty capacity.toNat⟩
  else .error "result cache: must provide a positive size"

/-- The result for a request: the one kept for its query, or else that for its form. -/
def result (ι : Type) [Columns ι] (s : Server) (r : Request) : Except Fault (Result × Server) := do
  let result ← match s.results.get? r.query with
    | some known => .ok known
    | none => r.form.result ι
  return (result, ⟨s.results.put r.query result⟩)

/-- The answer to a request. -/
def answer (ι : Type) [Columns ι] (s : Server) (r : Request) : Except Fault (Reply × Server) :=
  let path := cleanPath r.path
  if path ≠ r.path then .ok (r.redirection path, s)
  else if path = Text.ofString "/fmt" then do
    let (result, s) ← s.result ι r
    return (result.reply r.form, s)
  else if path = Text.ofString "/about" then .ok (⟨200, pageType, Page.about⟩, s)
  else .ok (⟨200, pageType, Page.index⟩, s)

/-- The answers to requests, one after the other, each with the number of results kept then. -/
def answers (ι : Type) [Columns ι] : Server → List Request → Except Fault (List (Reply × Nat))
  | _, [] => .ok []
  | s, r :: rest => do
    let (reply, s) ← s.answer ι r
    let more ← s.answers ι rest
    return (reply, s.results.size) :: more

end Server

end Galley.Web
