import Galley.Sql.Reader.Table

/-!
Statements. Those that select are kept apart into their clauses, all others are text.
-/

namespace Galley.Sql

namespace Read

variable (g : Grammar)

/-! ## Changes of rows -/

/-- What is returned of the rows that are changed. -/
def returning? : Read Text := do
  if !(← acceptWord "returning") then return []
  if ← acceptWord "nothing" then return " RETURNING NOTHING"
  return (" RETURNING " : Text) ++ commaList (← listOf (column g))

/-- An order, as it is written after something. -/
def orderText? : Read Text := do return optionalList "ORDER BY" (← orderBy? g true)

/-- A number of rows, as it is written after something. -/
def countText? : Read Text := do
  match ← count? g with
  | some c => return [0x20] ++ Limit.text ⟨some c, none⟩
  | none => return []

/-- A condition, as it is written after something. -/
def whereText? : Read Text := do
  return optionalText "WHERE" ((← condition? g "where").map Expr.text)

/-- The name of a column whose value is given. Parts of columns have no meaning yet. -/
def targetColumn : Read Text := do
  let n ← name
  if ← acceptSign "." then objectNext .unsupported
  return nameText n

/-- The names of columns whose values are given, in parentheses. -/
def targetColumns : Read Text := do
  return Expr.parens (commaList (← inParens (listOf targetColumn)))

/-- A column and its new value, or several and theirs. -/
def assignment : Read Text := do
  if ← atSign "(" then
    let columns ← targetColumns
    sign "="
    return columns ++ (" = " : Text) ++ (← inOperand g)
  let n ← targetColumn
  sign "="
  return n ++ (" = " : Text) ++ (← exprText g)

/-- A table whose rows are changed, with another name for it. -/
def changedTable : Read Text := do
  if ← acceptSign "[" then return (← numberedTable).text
  discard (acceptWord "only")
  let t ← tableName
  let flags ← hints?
  discard (acceptSign "*")
  if ← acceptWord "as" then
    return t ++ flags ++ optionalText "AS" (some (nameText (← name)))
  if (← atName) && !(← atWord "set") then
    return t ++ flags ++ optionalText "AS" (some (nameText (← name)))
  return t ++ flags

/-- What is done with a row that is there already. -/
def conflictAction : Read Text := do
  word "do"
  if ← acceptWord "nothing" then return " DO NOTHING"
  words ["update", "set"]
  let sets ← listOf (assignment g)
  return (" DO UPDATE SET " : Text) ++ commaList sets ++ (← whereText? g)

/-- What happens to rows that are there already, if anything is said about it. -/
def conflict? : Read Text := do
  if !(← acceptWord "on") then return []
  word "conflict"
  let start : Text := " ON CONFLICT"
  if ← acceptWord "on" then
    word "constraint"
    let n ← name
    return start ++ (" ON CONSTRAINT " : Text) ++ nameText n ++ (← conflictAction g)
  if ← atSign "(" then
    let columns ← nameList
    let arbiter ← whereText? g
    return start ++ [0x20] ++ columns ++ arbiter ++ (← conflictAction g)
  words ["do", "nothing"]
  return start ++ (" DO NOTHING" : Text)

/-- The insertion of rows. -/
def insertion (verb : Text) (ctes : Text) : Read Text := do
  advance
  word "into"
  let t ← tableName
  let asName ← if ← acceptWord "as" then do pure (some (nameText (← name))) else pure none
  let columns ←
    if (← atSign "(") && !(← atSelection) then targetColumns else pure []
  let rows : Text ←
    if ← acceptWord "default" then
      word "values"
      pure " DEFAULT VALUES"
    else do pure ([0x20] ++ (← g.select).text)
  let conflict ← if verb = Text.ofString "INSERT" then conflict? g else pure []
  let back ← returning? g
  return ctes ++ verb ++ (" INTO " : Text) ++ t ++ optionalText "AS" asName ++ columns ++ rows ++
    conflict ++ back

/-- The change of rows. -/
def update (ctes : Text) : Read Text := do
  advance
  let t ← changedTable
  word "set"
  let sets ← listOf (assignment g)
  let tables ← if ← acceptWord "from" then listOf (table g) else pure []
  let rest : Text := (← whereText? g) ++ (← orderText? g) ++ (← countText? g) ++ (← returning? g)
  return ctes ++ ("UPDATE " : Text) ++ t ++ (" SET " : Text) ++ commaList sets ++
    optionalList "FROM" (tables.map Table.text) ++ rest

/-- The deletion of rows. -/
def deletion (ctes : Text) : Read Text := do
  advance
  word "from"
  let t ← changedTable
  let tables ← if ← acceptWord "using" then listOf (table g) else pure []
  let rest : Text := (← whereText? g) ++ (← orderText? g) ++ (← countText? g) ++ (← returning? g)
  return ctes ++ ("DELETE FROM " : Text) ++ t ++ optionalList "USING" (tables.map Table.text) ++ rest

/-! ## Changes of tables -/

/-- The creation of a table. -/
def createTable : Read Text := do
  let guarded ← ifNotExists?
  let t ← tableName
  if ← acceptWord "as" then
    return ("CREATE TABLE " : Text) ++ guarded ++ t ++ (" AS " : Text) ++ (← g.select).text
  let items ← inParens do
    if ← atSign ")" then return []
    listOf (tableElement g)
  return ("CREATE TABLE " : Text) ++ guarded ++ t ++ [0x20] ++ Expr.parens (commaList items)

/-- The creation of an index. -/
def createIndex (unique : Text) : Read Text := do
  let quietly : Text ← if ← acceptWord "concurrently" then pure "CONCURRENTLY " else pure []
  let guarded ← ifNotExists?
  let n ← if ← atName then do pure (nameText (← name) ++ [0x20]) else pure []
  word "on"
  let t ← tableName
  return ("CREATE " : Text) ++ unique ++ ("INDEX " : Text) ++ quietly ++ guarded ++ n ++
    ("ON " : Text) ++ t ++ [0x20] ++ (← indexKeys g) ++ (← storing?) ++ (← whereText? g)

/-- The creation of a view. -/
def createView (how : Text) : Read Text := do
  let guarded ← ifNotExists?
  let t ← tableName
  let columns ← if ← atSign "(" then do pure ([0x20] ++ (← nameList)) else pure []
  word "as"
  return ("CREATE " : Text) ++ how ++ ("VIEW " : Text) ++ guarded ++ t ++ columns ++
    (" AS " : Text) ++ (← g.select).text

/-- The creation of something with nothing but a name. -/
def createNamed (what : Text) (spelt : Read Text) : Read Text := do
  let guarded ← ifNotExists?
  return ("CREATE " : Text) ++ what ++ [0x20] ++ guarded ++ (← spelt)

/-- The name of something, as it is written. -/
def plainName : Read Text := do return nameText (← name)

/-- A creation. -/
def creation : Read Text := do
  advance
  match ← oneOf ["table", "unique", "index", "view", "materialized", "database", "schema",
      "sequence", "user", "role"] with
  | "table" => createTable g
  | "unique" =>
    word "index"
    createIndex g "UNIQUE "
  | "index" => createIndex g []
  | "view" => createView g []
  | "materialized" =>
    word "view"
    createView g "MATERIALIZED "
  | "database" => createNamed "DATABASE" plainName
  | "schema" => createNamed "SCHEMA" tableName
  | "sequence" => createNamed "SEQUENCE" tableName
  | "user" => createNamed "USER" plainName
  | _ => createNamed "ROLE" plainName

/-- The removal of something. -/
def removal : Read Text := do
  advance
  let what ← oneOf ["table", "view", "sequence", "database", "schema", "index", "type", "user",
    "role"]
  let guarded ← ifExists?
  let item : Read Text :=
    match what with
    | "index" => do
      let t ← tableName
      if ← acceptSign "@" then return t ++ [0x40] ++ nameText (← name)
      return t
    | "database" | "user" | "role" => plainName
    | _ => tableName
  let names ← if what = "database" then do pure [← item] else listOf item
  return ("DROP " : Text) ++ Text.upper what ++ [0x20] ++ guarded ++ commaList names ++
    (← dropBehavior?)

/-- A change of a column. -/
def columnChange (n : Text) : Read Text := do
  let column : Text := ("ALTER COLUMN " : Text) ++ n
  if ← acceptWord "set" then
    if ← acceptWord "default" then
      return column ++ (" SET DEFAULT " : Text) ++ (← exprText g)
    if ← acceptWords ["data", "type"] then
      return column ++ (" SET DATA TYPE " : Text) ++ (← typeName)
    words ["not", "null"]
    return column ++ (" SET NOT NULL" : Text)
  if ← acceptWord "drop" then
    if ← acceptWord "default" then return column ++ (" DROP DEFAULT" : Text)
    words ["not", "null"]
    return column ++ (" DROP NOT NULL" : Text)
  word "type"
  return column ++ (" SET DATA TYPE " : Text) ++ (← typeName)

/-- A change of a table. -/
def tableChange : Read Text := do
  match ← oneOf ["add", "drop", "alter", "rename"] with
  | "add" =>
    match ← wordAt 0 with
    | some w =>
      if ["constraint", "primary", "unique", "check", "foreign"].elem w then
        return ("ADD " : Text) ++ (← tableConstraint g)
    | none => pure ()
    discard (acceptWord "column")
    let guarded ← ifNotExists?
    return ("ADD COLUMN " : Text) ++ guarded ++ (← columnDef g)
  | "drop" =>
    if ← acceptWord "constraint" then
      let guarded ← ifExists?
      return ("DROP CONSTRAINT " : Text) ++ guarded ++ (← plainName) ++ (← dropBehavior?)
    discard (acceptWord "column")
    let guarded ← ifExists?
    return ("DROP COLUMN " : Text) ++ guarded ++ (← plainName) ++ (← dropBehavior?)
  | "alter" =>
    discard (acceptWord "column")
    columnChange g (← plainName)
  | _ =>
    if ← acceptWord "to" then return ("RENAME TO " : Text) ++ (← tableName)
    if ← acceptWord "constraint" then
      let old ← plainName
      word "to"
      return ("RENAME CONSTRAINT " : Text) ++ old ++ (" TO " : Text) ++ (← plainName)
    discard (acceptWord "column")
    let old ← plainName
    word "to"
    return ("RENAME COLUMN " : Text) ++ old ++ (" TO " : Text) ++ (← plainName)

/-- A change of something that is there. -/
def alteration : Read Text := do
  advance
  word "table"
  let guarded ← ifExists?
  let t ← tableName
  return ("ALTER TABLE " : Text) ++ guarded ++ t ++ [0x20] ++ commaList (← listOf (tableChange g))

/-- The removal of all rows. -/
def truncation : Read Text := do
  advance
  discard (acceptWord "table")
  let item : Read Text := do
    if ← acceptWord "only" then
      if ← atSign "(" then inParens tableName else tableName
    else
      let t ← tableName
      discard (acceptSign "*")
      return t
  return ("TRUNCATE TABLE " : Text) ++ commaList (← listOf item) ++ (← dropBehavior?)

/-! ## Rights -/

/-- What rights are given on: tables, unless another kind is named. -/
def rightsOn : Read Text := do
  if ← acceptWord "database" then return " ON DATABASE "
  if ← acceptWord "schema" then return " ON SCHEMA "
  if ← acceptWord "type" then return " ON TYPE "
  discard (acceptWord "table")
  return " ON TABLE "

/-- The granting or withdrawal of rights on something, or of roles. -/
def rights (verb joiner : String) : Read Text := do
  advance
  let names ←
    if ← acceptWord "all" then
      discard (acceptWord "privileges")
      pure [Text.ofString "all"]
    else listOf anyName
  let who : Read Text := do
    word joiner
    return [0x20] ++ Text.upper joiner ++ [0x20] ++ commaList (← listOf plainName)
  if ← acceptWord "on" then
    let what ← rightsOn
    let targets ← listOf tableName
    return (verb : Text) ++ [0x20] ++ commaList (names.map Text.upper) ++ what ++
      commaList targets ++ (← who)
  return (verb : Text) ++ [0x20] ++ commaList (names.map nameText) ++ (← who)

/-! ## Sessions -/

/-- A value that a setting is given. -/
def settingValue : Read Text := do
  if ← acceptWord "on" then return nameText "on"
  exprText g

/-- The values that a setting is given. -/
def settingValues : Read Text := do return commaList (← listOf (settingValue g))

/-- The giving of a value to a setting. -/
def setting : Read Text := do
  advance
  let scope : Text ←
    if ← acceptWord "local" then pure "LOCAL "
    else
      discard (acceptWord "session")
      pure []
  if ← acceptWords ["time", "zone"] then
    return ("SET " : Text) ++ scope ++ ("timezone = " : Text) ++ (← settingValues g)
  let n ← name
  let more ← moreParts 2
  if !(← acceptSign "=") then word "to"
  return ("SET " : Text) ++ scope ++ nameText (Text.join [0x2e] (n :: more)) ++
    (" = " : Text) ++ (← settingValues g)

/-- How a transaction is run. -/
structure Modes where
  isolation : Option Text := none
  priority : Option Text := none
  access : Option Text := none
  asOf : Option Text := none
  deferrable : Option Text := none

/-- The text of how a transaction is run, after it. -/
def Modes.text (m : Modes) : Text :=
  let clause : Text → Option Text → List Text := fun start t => (t.map (start ++ ·)).toList
  let all := clause " ISOLATION LEVEL " m.isolation ++ clause " PRIORITY " m.priority ++
    clause " READ " m.access ++ clause " AS OF SYSTEM TIME " m.asOf ++ clause " " m.deferrable
  Text.join [0x2c] all

/-- How far a transaction is kept from others. -/
def isolation : Read Text := do
  match ← oneOf ["read", "repeatable", "snapshot", "serializable"] with
  | "read" => return ("READ " : Text) ++ Text.upper (← oneOf ["uncommitted", "committed"])
  | "repeatable" =>
    word "read"
    return "REPEATABLE READ"
  | w => return Text.upper w

/-- The words that start something about how a transaction is run. -/
def modeWords : List String := ["isolation", "priority", "read", "as", "deferrable", "not"]

/-- One thing about how a transaction is run. -/
def mode (m : Modes) : Read Modes := do
  match ← wordAt 0 with
  | some "isolation" =>
    words ["isolation", "level"]
    return { m with isolation := some (← isolation) }
  | some "priority" =>
    advance
    return { m with priority := some (Text.upper (← oneOf ["low", "normal", "high"])) }
  | some "read" =>
    advance
    return { m with access := some (Text.upper (← oneOf ["only", "write"])) }
  | some "as" =>
    words ["as", "of", "system", "time"]
    return { m with asOf := some (← exprText g) }
  | some "deferrable" =>
    advance
    return { m with deferrable := some "DEFERRABLE" }
  | some "not" =>
    words ["not", "deferrable"]
    return { m with deferrable := some "NOT DEFERRABLE" }
  | _ => misfit

/-- Further things about how a transaction is run, `n` at most. Commas between them may be left
out. -/
def moreModes : Nat → Modes → Read Modes
  | 0, m => return m
  | n + 1, m => do
    if ← acceptSign "," then moreModes n (← mode g m)
    else if modeWords.elem ((← wordAt 0).getD "") then moreModes n (← mode g m)
    else return m

/-- How a transaction is run, if anything is said about it. -/
def modes? : Read Text := do
  if modeWords.elem ((← wordAt 0).getD "") then
    return (← moreModes g (← get).rest.length (← mode g {})).text
  return []

/-- The start of a transaction, after its first word. -/
def transactionStart : Read Text := do return ("BEGIN TRANSACTION" : Text) ++ (← modes? g)

/-- A place in a transaction. -/
def savepoint : Read Text := do
  discard (acceptWord "savepoint")
  plainName

/-- The end of a transaction without its changes. -/
def rollback : Read Text := do
  discard (acceptWord "transaction")
  if ← acceptWord "to" then
    return ("ROLLBACK TRANSACTION TO SAVEPOINT " : Text) ++ (← savepoint)
  return "ROLLBACK TRANSACTION"

/-- Lists that can be shown by a word, of what and whether it may be limited to a database. -/
def shownLists : List String :=
  ["tables", "databases", "schemas", "sequences", "types", "users", "roles", "queries", "sessions",
    "jobs", "functions"]

/-- The showing of something. -/
def showing : Read Text := do
  advance
  match ← wordAt 0 with
  | some w =>
    if shownLists.elem w then
      advance
      let origin ← if ← acceptWord "from" then do pure (some (← tableName)) else pure none
      return ("SHOW " : Text) ++ Text.upper w ++ optionalText "FROM" origin
    if ["columns", "indexes", "constraints"].elem w then
      advance
      word "from"
      return ("SHOW " : Text) ++ Text.upper w ++ (" FROM " : Text) ++ (← tableName)
    if w = "create" then
      advance
      let what ← if ["table", "view", "sequence", "database"].elem ((← wordAt 0).getD "") then
          do pure (Text.upper (← anyName) ++ [0x20])
        else pure []
      return ("SHOW CREATE " : Text) ++ what ++ (← tableName)
    discard (acceptWord "session")
    return ("SHOW " : Text) ++ nameText (← anyName)
  | none => return ("SHOW " : Text) ++ nameText (← name)

/-- What an explanation may be about. Plans need not be asked for. -/
def explainModes : List Text :=
  ["PLAN", "DISTSQL", "OPT", "VEC", "DEBUG", "DDL", "GIST"]

/-- What else can be asked of an explanation, in the order in which it is written. -/
def explainFlags : List Text :=
  ["VERBOSE", "TYPES", "ENV", "CATALOG", "JSON", "MEMO", "SHAPE", "REDACT"]

/-- The options of an explanation, in parentheses. -/
def explainOptions : Read Text := do
  let given := (← inParens (listOf (nameBut isReserved))).map Text.upper
  let about := given.filter fun o => explainModes.drop 1 |>.elem o
  let flags := explainFlags.filter given.elem
  let known := about.reverse.take 1 ++ flags
  return if known.isEmpty then [] else Expr.parens (commaList known) ++ [0x20]

/-- The explanation of a statement. -/
def explanation : Read Text := do
  advance
  let isRun ← do
    if ← acceptWord "analyze" then pure true else acceptWord "analyse"
  let options ← if (← atSign "(") && !(← atSelection) then explainOptions else pure []
  return (if isRun then "EXPLAIN ANALYZE " else "EXPLAIN " : Text) ++ options ++
    (← g.statement).text

/-- The preparation of a statement. -/
def preparation : Read Text := do
  advance
  let n ← plainName
  let types ←
    if ← atSign "(" then
      do pure ([0x20] ++ Expr.parens (commaList (← inParens (listOf typeName))))
    else pure []
  word "as"
  return ("PREPARE " : Text) ++ n ++ types ++ (" AS " : Text) ++ (← g.statement).text

/-- The execution of a statement that was prepared. -/
def execution : Read Text := do
  advance
  let n ← plainName
  let args ←
    if ← atSign "(" then
      do pure ([0x20] ++ Expr.parens (← inParens (exprsText g)))
    else pure []
  return ("EXECUTE " : Text) ++ n ++ args

/-- The dropping of a statement that was prepared. -/
def deallocation : Read Text := do
  advance
  discard (acceptWord "prepare")
  if ← acceptWord "all" then return "DEALLOCATE ALL"
  return ("DEALLOCATE " : Text) ++ (← plainName)

/-! ## Statements -/

/-- A statement after what is named before it. -/
def statementAfter (ctes : Option Text) : Read Statement := do
  match ← wordAt 0 with
  | some "insert" => return .verbatim (← insertion g "INSERT" (ctes.getD []))
  | some "upsert" => return .verbatim (← insertion g "UPSERT" (ctes.getD []))
  | some "update" => return .verbatim (← update g (ctes.getD []))
  | some "delete" => return .verbatim (← deletion g (ctes.getD []))
  | _ => return .select (← selectAfter g ctes)

/-- A statement that starts with a word of its own. -/
def wordStatement (w : String) : Option (Read Text) :=
  match w with
  | "create" => some (creation g)
  | "drop" => some removal
  | "alter" => some (alteration g)
  | "truncate" => some truncation
  | "grant" => some (rights "GRANT" "to")
  | "revoke" => some (rights "REVOKE" "from")
  | "set" => some (setting g)
  | "use" => some do
    advance
    return ("SET database = " : Text) ++ (← exprText g)
  | "reset" => some do
    advance
    return ("RESET " : Text) ++ (← plainName)
  | "begin" => some do
    advance
    discard (acceptWord "transaction")
    transactionStart g
  | "start" => some do
    advance
    word "transaction"
    transactionStart g
  | "commit" | "end" => some do
    advance
    discard (acceptWord "transaction")
    return "COMMIT TRANSACTION"
  | "rollback" => some do
    advance
    rollback
  | "abort" => some do
    advance
    if !(← acceptWord "transaction") then discard (acceptWord "work")
    return "ROLLBACK TRANSACTION"
  | "savepoint" => some do
    advance
    return ("SAVEPOINT " : Text) ++ (← plainName)
  | "release" => some do
    advance
    return ("RELEASE SAVEPOINT " : Text) ++ (← savepoint)
  | "show" => some showing
  | "explain" => some (explanation g)
  | "prepare" => some (preparation g)
  | "execute" => some (execution g)
  | "deallocate" => some deallocation
  | _ => none

/-- A statement. -/
def statementOf : Read Statement := do
  match (← wordAt 0).bind (wordStatement g) with
  | some p => return .verbatim (← p)
  | none => statementAfter g (← ctes? g)

end Read

/-- The grammar, nested `n` deep at most. -/
def Grammar.ofDepth : Nat → Grammar
  | 0 => ⟨fun _ _ => Read.misfit, Read.misfit, Read.misfit⟩
  | n + 1 =>
    let g := Grammar.ofDepth n
    ⟨fun level bare => Read.exprOf g level bare, Read.selectOf g, Read.statementOf g⟩

/-- Why a statement cannot be read. -/
inductive Problem where
  | lexical (cause : Text)
  /-- A token does not fit, or there is an objection at it. -/
  | misplaced (shown : Text) (objection : Option Objection)
  /-- Help is asked for instead of a token. -/
  | help (p : Problem)
  /-- Help is asked for instead of a statement. -/
  | helpOnly

/-- The wording of a problem. -/
def Problem.message : Problem → Text
  | .lexical cause => ("lexical error: " : Text) ++ cause.masked
  | .misplaced shown objection =>
    ("at or near \"" : Text) ++ shown.masked ++ ("\": syntax error" : Text) ++
      match objection with
      | some o => (": " : Text) ++ o.message
      | none => []
  | .help p => ("help token in input: " : Text) ++ p.message
  | .helpOnly => "help token in input: help upon syntax error"

/-- The problem with a token, or with the end. -/
def Problem.ofToken (objection : Option Objection) : Option Token → Problem
  | some ⟨.fault cause, _⟩ => .lexical cause
  | some ⟨.sign "??", shown⟩ => .help (.misplaced shown objection)
  | some t => .misplaced t.shown objection
  | none => .misplaced "EOF" objection

/-- The problem with tokens that were read in vain. -/
def Problem.ofCursor (tokens : List Token) (c : Cursor) : Problem :=
  match c.objection with
  | some (place, o) => .ofToken (some o) tokens[place]?
  | none =>
    if c.furthest = 0 && (tokens.head?.map (·.kind)) == some (.sign "??") then .helpOnly
    else .ofToken none tokens[c.furthest]?

/-- The statement that tokens spell. -/
def Statement.ofTokens (tokens : List Token) : Except Problem Statement :=
  let whole : Read Statement := do
    let s ← (Grammar.ofDepth (4 * tokens.length + 16)).statement
    if (← get).rest.isEmpty then return s else Read.misfit
  match whole.run.run { rest := tokens } with
  | (some s, _) => .ok s
  | (none, c) => .error (.ofCursor tokens c)

/-- The statements of a text, in which a semicolon may stand only at the end. -/
def Statement.parse (t : Text) : Except Problem (List Statement) :=
  match Token.statement t with
  | [] => .ok []
  | tokens => (Statement.ofTokens tokens).map fun s => [s]

end Galley.Sql
