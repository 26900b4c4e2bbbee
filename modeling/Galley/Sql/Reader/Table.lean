import Galley.Sql.Reader.Select

/-!
The definitions of tables: columns, constraints and indexes.
-/

namespace Galley.Sql.Read

variable (g : Grammar)

/-- Words that follow a name if it is not there yet. -/
def ifNotExists? : Read Text := do
  if ← acceptWord "if" then
    words ["not", "exists"]
    return "IF NOT EXISTS "
  return []

/-- Words that stand before names that may be missing. -/
def ifExists? : Read Text := do
  if ← acceptWord "if" then
    word "exists"
    return "IF EXISTS "
  return []

/-- What happens to what depends on something that is dropped. -/
def dropBehavior? : Read Text := do
  if ← acceptWord "cascade" then return " CASCADE"
  if ← acceptWord "restrict" then return " RESTRICT"
  return []

/-- A key of an index. -/
def indexKey : Read Text := do
  let key ←
    if ← atSign "(" then do pure (Expr.parens (← inParens (exprText g)))
    else do
      let e ← named g
      pure e.text
  let direction : Text ←
    if ← acceptWord "asc" then pure " ASC"
    else if ← acceptWord "desc" then pure " DESC"
    else pure []
  return key ++ direction

/-- The keys of an index, in parentheses. -/
def indexKeys : Read Text := do
  return Expr.parens (commaList (← inParens (listOf (indexKey g))))

/-- The columns that are stored with an index, if any are given. -/
def storing? : Read Text := do
  match ← wordAt 0 with
  | some w =>
    if ["storing", "covering", "include"].elem w then
      advance
      return (" STORING " : Text) ++ (← nameList)
    return []
  | none => return []

/-- What happens to rows that refer to a row. -/
def referenceAction : Read Text := do
  if ← acceptWord "cascade" then return "CASCADE"
  if ← acceptWord "restrict" then return "RESTRICT"
  if ← acceptWord "no" then
    word "action"
    return "NO ACTION"
  word "set"
  return ("SET " : Text) ++ Text.upper (← oneOf ["null", "default"])

/-- What happens to rows that refer to a row when that is deleted and updated. -/
structure ReferenceActions where
  onDelete : Text := []
  onUpdate : Text := []

/-- The text of what happens. That nothing happens is not said. -/
def ReferenceActions.text (a : ReferenceActions) : Text :=
  let clause : Text → Text → Text := fun event action =>
    if action.isEmpty || action = Text.ofString "NO ACTION" then []
    else (" ON " : Text) ++ event ++ [0x20] ++ action
  clause "DELETE" a.onDelete ++ clause "UPDATE" a.onUpdate

/-- What happens to rows that refer to a row, where anything is said about it. -/
def referenceActions : Nat → ReferenceActions → Read ReferenceActions
  | 0, a => return a
  | n + 1, a => do
    if (← atWord "on") && (← wordAt 1) == some "delete" && a.onDelete.isEmpty then
      words ["on", "delete"]
      referenceActions n { a with onDelete := ← referenceAction }
    else if (← atWord "on") && (← wordAt 1) == some "update" && a.onUpdate.isEmpty then
      words ["on", "update"]
      referenceActions n { a with onUpdate := ← referenceAction }
    else return a

/-- How missing values match a key. That they match as usual is not said. -/
def keyMatch? : Read Text := do
  if !(← acceptWord "match") then return []
  match ← oneOf ["simple", "full", "partial"] with
  | "simple" => return []
  | "full" => return " MATCH FULL"
  | _ => objectHere .unsupported

/-- The table and the columns that are referred to. -/
def reference : Read Text := do
  let t ← tableName
  let columns ← if ← atSign "(" then do pure ([0x20] ++ (← nameList)) else pure []
  let how ← keyMatch?
  return ("REFERENCES " : Text) ++ t ++ columns ++ how ++ (← referenceActions 2 {}).text

/-- A column with what is said about it, sorted into the order in which it is written. -/
structure ColumnRules where
  nullability : Text := []
  key : Text := []
  fallback : Text := []
  checks : Text := []
  references : Text := []
  computed : Text := []

/-- The name of a constraint, if one is given. -/
def constraintName? : Read Text := do
  if ← acceptWord "constraint" then return (" CONSTRAINT " : Text) ++ nameText (← name)
  return []

/-- Reads what is said about a column. -/
def columnRules : Nat → ColumnRules → Read ColumnRules
  | 0, r => return r
  | n + 1, r => do
    let c ← constraintName?
    if ← acceptWord "not" then
      word "null"
      columnRules n { r with nullability := c ++ (" NOT NULL" : Text) }
    else if ← acceptWord "null" then
      columnRules n { r with nullability := c ++ (" NULL" : Text) }
    else if ← acceptWord "primary" then
      word "key"
      columnRules n { r with key := c ++ (" PRIMARY KEY" : Text) }
    else if ← acceptWord "unique" then
      columnRules n { r with key := c ++ (" UNIQUE" : Text) }
    else if ← acceptWord "default" then
      let e ← g.expr 0 true
      columnRules n { r with fallback := c ++ (" DEFAULT " : Text) ++ e.text }
    else if ← acceptWord "check" then
      let e ← inParens (exprText g)
      columnRules n { r with checks := r.checks ++ c ++ (" CHECK " : Text) ++ Expr.parens e }
    else if ← acceptWord "references" then
      let t ← reference
      columnRules n { r with references := c ++ [0x20] ++ t }
    else if ← acceptWord "as" then
      let e ← inParens (exprText g)
      let how ← oneOf ["stored", "virtual"]
      columnRules n { r with
        computed := (" AS " : Text) ++ Expr.parens e ++ [0x20] ++ Text.upper how }
    else if c.isEmpty then return r
    else misfit

/-- The definition of a column. -/
def columnDef : Read Text := do
  let n ← name
  let type ← typeName
  let collation : Text ←
    if ← acceptWord "collate" then do pure ((" COLLATE " : Text) ++ labelText (← anyName))
    else pure []
  let r ← columnRules g (← get).rest.length {}
  return nameText n ++ [0x20] ++ type ++ collation ++ r.nullability ++ r.key ++ r.fallback ++
    r.checks ++ r.references ++ r.computed

/-- A constraint of a table. -/
def tableConstraint : Read Text := do
  let c ← if ← acceptWord "constraint" then
      do pure (("CONSTRAINT " : Text) ++ nameText (← name) ++ [0x20])
    else pure []
  if ← acceptWord "primary" then
    word "key"
    return c ++ ("PRIMARY KEY " : Text) ++ (← indexKeys g)
  if ← acceptWord "unique" then
    return c ++ ("UNIQUE " : Text) ++ (← indexKeys g) ++ (← storing?)
  if ← acceptWord "check" then
    return c ++ ("CHECK " : Text) ++ Expr.parens (← inParens (exprText g))
  word "foreign"
  word "key"
  let columns ← nameList
  word "references"
  return c ++ ("FOREIGN KEY " : Text) ++ columns ++ [0x20] ++ (← reference)

/-- An index of a table. -/
def tableIndex : Read Text := do
  let unique : Text ← if ← acceptWord "unique" then pure "UNIQUE " else pure []
  word "index"
  let n ← if ← atName then do pure (nameText (← name) ++ [0x20]) else pure []
  return unique ++ ("INDEX " : Text) ++ n ++ (← indexKeys g) ++ (← storing?)

/-- A family of columns. -/
def tableFamily : Read Text := do
  word "family"
  let n ← if ← atName then do pure (nameText (← name) ++ [0x20]) else pure []
  return ("FAMILY " : Text) ++ n ++ (← nameList)

/-- An element of the definition of a table. -/
def tableElement : Read Text := do
  match ← wordAt 0, ← wordAt 1 with
  | some "index", _ | some "unique", some "index" => tableIndex g
  | some "family", _ => tableFamily
  | some w, _ =>
    if ["constraint", "primary", "unique", "check", "foreign"].elem w then tableConstraint g
    else columnDef g
  | none, _ => columnDef g

end Galley.Sql.Read
