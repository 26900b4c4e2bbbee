import Galley.Json.Layout
import Galley.Sql.Source
import Galley.Yaml.Layout

/-!
The languages there are formatters for.
-/

namespace Galley

open Layout (Columns)

variable {ι : Type} [Columns ι]

/-- A language that can be formatted. -/
inductive Language where
  | sql
  | json
  | yaml
  deriving DecidableEq, Repr

namespace Language

/-- The language of a name. -/
def ofName (name : Text) : Except Text Language :=
  if name = Text.ofString "sql" then .ok .sql
  else if name = Text.ofString "json" then .ok .json
  else if name = Text.ofString "yaml" then .ok .yaml
  else .error (("unknown language " : Text) ++ name.quoted)

/-- Sources of a language, laid out. The statements of SQL sources stand together; other documents
are laid out one by one, each on lines of its own. -/
def format (o : Options ι) (srcs : List Text) : Language → Except Failure Text
  | .sql => Sql.format o srcs
  | .json => Text.join [0x0a] <$> srcs.mapM (Json.format o)
  | .yaml => Text.join [0x0a] <$> srcs.mapM (Yaml.format o)

end Language

/-- Sources of a named language, laid out. -/
def format (o : Options ι) (language : Text) (srcs : List Text) : Except Failure Text :=
  match Language.ofName language with
  | .ok l => l.format o srcs
  | .error m => .error (.source m)

end Galley
