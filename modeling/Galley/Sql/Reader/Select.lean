import Galley.Sql.Reader.TableRef

/-!
Selections.
-/

namespace Galley.Sql.Read

variable (g : Grammar)

/-! ## Clauses -/

/-- A column of the result. -/
def column : Read Text := do
  if ← acceptSign "*" then return [0x2a]
  let e := (← resultExpr g).text
  if ← atAs then
    advance
    return e ++ (" AS " : Text) ++ labelText (← anyName)
  match ← kindAt 0 with
  | some (.word w) =>
    if labelWords.elem w then return e
    advance
    return e ++ (" AS " : Text) ++ labelText w
  | some (.quotedName n) =>
    advance
    return e ++ (" AS " : Text) ++ labelText n
  | _ => return e

/-- A condition after a keyword, if one is given. -/
def condition? (keyword : String) : Read (Option Expr) := do
  if ← acceptWord keyword then return some (← anyExpr g)
  return none

/-- An expression that rows are grouped by. Sets of such expressions have no meaning yet. -/
def groupKey : Read Text := do
  match ← wordAt 0, ← wordAt 1 with
  | some "grouping", some "sets" =>
    words ["grouping", "sets"]
    objectNext .unsupported
  | some "rollup", _ | some "cube", _ =>
    if (← kindAt 1) == some (.sign "(") then
      advance
      advance
      objectNext .unsupported
    exprText g
  | _, _ => exprText g

/-- The expressions that rows are grouped by. -/
def groupBy? : Read (List Text) := do
  if !(← acceptWord "group") then return []
  word "by"
  listOf (groupKey g)

/-- The time as of which tables are read, if one is given. -/
def asOf? : Read (Option Text) := do
  if ← acceptWords ["as", "of", "system"] then
    word "time"
    return some (← exprText g)
  return none

/-- A window with its name. -/
def namedWindow : Read Text := do
  let n ← name
  word "as"
  return nameText n ++ (" AS " : Text) ++ (← windowSpec g)

/-- How rows that are the same are treated. -/
inductive Distinct where
  | all
  | distinct
  | on (keys : Text)

/-- How rows that are the same are treated. -/
def distinct? : Read Distinct := do
  if ← acceptWord "distinct" then
    if ← acceptWord "on" then return .on (← inParens (exprsText g))
    return .distinct
  discard (acceptWord "all")
  return .all

/-- A selection from tables. -/
def selectClause : Read Body := do
  word "select"
  let sameness ← distinct? g
  let columns ← listOf (column g)
  let hasTables ← acceptWord "from"
  let tables ← if hasTables then listOf (table g) else pure []
  let asOf ← if hasTables then asOf? g else pure none
  let condition ← condition? g "where"
  let groupBy ← groupBy? g
  let having ← condition? g "having"
  let windows ← if ← acceptWord "window" then listOf (namedWindow g) else pure []
  let verbatim := fun (intro : Text) => Body.verbatim
    (intro ++ commaList columns ++ optionalList "FROM" (tables.map Table.text) ++
      optionalText "AS OF SYSTEM TIME" asOf ++ optionalText "WHERE" (condition.map Expr.text) ++
      optionalList "GROUP BY" groupBy ++ optionalText "HAVING" (having.map Expr.text) ++
      optionalList "WINDOW" windows)
  match sameness with
  | .on keys => return verbatim (("SELECT DISTINCT ON (" : Text) ++ keys ++ (") " : Text))
  | d =>
    let isDistinct := match d with
      | .distinct => true
      | _ => false
    if asOf.isSome || !windows.isEmpty then
      return verbatim (if isDistinct then "SELECT DISTINCT " else "SELECT ")
    return .clause isDistinct columns tables condition groupBy having

/-- Rows of values. -/
def valuesClause : Read Body := do
  word "values"
  let rows ← listOf (inParens (exprsText g))
  return .verbatim (("VALUES " : Text) ++ commaList (rows.map Expr.parens))

/-- A body that is no combination of others. -/
def bodyItem : Read Body := do
  match ← kindAt 0 with
  | some (.sign "(") => return .parens (← parenSelect g)
  | some (.word "select") => selectClause g
  | some (.word "values") => valuesClause g
  | some (.word "table") =>
    advance
    return .verbatim (("TABLE " : Text) ++ (← table g).text)
  | _ => misfit

/-- A selection with nothing around its body. -/
def plainSelect (b : Body) : Select := .mk none b [] none []

/-- Whether rows that are the same are kept by a set operation. -/
def keepsAll : Read Bool := do
  if ← acceptWord "all" then return true
  discard (acceptWord "distinct")
  return false

/-- Bodies combined by set operations that are given by keywords, left to right. -/
def combined (ops : List (String × SetOperation)) (item : Read Body) : Nat → Body → Read Body
  | 0, b => return b
  | n + 1, b => do
    match (← wordAt 0).bind fun w => ops.lookup w with
    | none => return b
    | some op =>
      advance
      let all ← keepsAll
      let c ← item
      combined ops item n (.combined op all (plainSelect b) (plainSelect c))

/-- A body. Intersections bind tighter than unions and differences. -/
def body : Read Body := do
  let size := (← get).rest.length
  let tight : Read Body := do
    combined [("intersect", .intersect)] (bodyItem g) size (← bodyItem g)
  combined [("union", .union), ("except", .except)] tight size (← tight)

/-! ## Selections -/

/-- A selection or other statement that is given a name. -/
def cte : Read Text := do
  let n ← name
  let columns ← if ← atSign "(" then do pure ([0x20] ++ (← nameList)) else pure []
  word "as"
  let kept : Text ←
    if ← acceptWord "materialized" then pure "MATERIALIZED "
    else if ← acceptWord "not" then
      word "materialized"
      pure "NOT MATERIALIZED "
    else pure []
  let s ← inParens g.statement
  return nameText n ++ columns ++ (" AS " : Text) ++ kept ++ Expr.parens s.text

/-- The named selections before a statement, if any are given. A space follows them. -/
def ctes? : Read (Option Text) := do
  if !(← acceptWord "with") then return none
  let recursive : Text ← if ← acceptWord "recursive" then pure "RECURSIVE " else pure []
  let items ← listOf (cte g)
  return some (("WITH " : Text) ++ recursive ++ commaList items ++ [0x20])

/-- Moves past the word for rows. -/
def rowsWord : Read Unit := do discard (oneOf ["row", "rows"])

/-- A number of rows before the word for rows: a number with a sign, or an expression without
operators. -/
def rowCount : Read Text := do
  let constant : Read Text := do
    match ← kindAt 0 with
    | some (.integer n) | some (.decimal n) =>
      advance
      return n.text
    | _ => misfit
  if ← acceptSign "+" then constant
  else if ← acceptSign "-" then
    return [0x2d] ++ (← constant)
  else return (← primary g).text

/-- A number of rows, if one is given. -/
def count? : Read (Option Count) := do
  if ← acceptWord "limit" then
    if ← acceptWord "all" then return some .all
    return some (.rows (← exprText g))
  if ← acceptWord "fetch" then
    discard (oneOf ["first", "next"])
    let isOne := ["row", "rows"].elem ((← wordAt 0).getD "") && (← wordAt 1) == some "only"
    let n ← if isOne then pure [0x31] else rowCount g
    rowsWord
    word "only"
    return some (.rows n)
  return none

/-- A number of rows that are left out, if one is given. -/
def offset? : Read (Option Text) := do
  if !(← acceptWord "offset") then return none
  let counted : Read Text := do
    let n ← rowCount g
    rowsWord
    return n
  return some (← either counted (exprText g))

/-- Which rows are kept, if anything is said about it. -/
def limit? : Read (Option Limit) := do
  match ← count? g with
  | some c => return some ⟨some c, ← offset? g⟩
  | none =>
    match ← offset? g with
    | none => return none
    | some o => return some ⟨← count? g, some o⟩

/-- How the rows are locked, after the word before it. -/
def lock : Read Text := do
  let strength : Text ← match ← oneOf ["update", "share", "key", "no"] with
    | "update" => pure " FOR UPDATE"
    | "share" => pure " FOR SHARE"
    | "key" =>
      word "share"
      pure " FOR KEY SHARE"
    | _ =>
      words ["key", "update"]
      pure " FOR NO KEY UPDATE"
  let targets ← if ← acceptWord "of" then listOf tableName else pure []
  let wait : Text ←
    if ← acceptWord "nowait" then pure " NOWAIT"
    else if ← acceptWord "skip" then
      word "locked"
      pure " SKIP LOCKED"
    else pure []
  return strength ++ optionalList "OF" targets ++ wait

/-- How the rows are locked, if anything is said about it. Rows that are only read are not. -/
def locks? : Read Text := do
  if !(← acceptWord "for") then return []
  if ← acceptWord "read" then
    word "only"
    return []
  let first ← lock
  let more ← manyAt "for" (do
    word "for"
    lock) (← get).rest.length
  return (first :: more).flatten

/-- A selection after what is named before it. -/
def selectAfter (ctes : Option Text) : Read Select := do
  let b ← body g
  let keys ← orderBy? g true
  if ← atWord "for" then
    let locks ← locks?
    let limit ← limit? g
    return .mk ctes b keys limit locks
  let limit ← limit? g
  let locks ← locks?
  return .mk ctes b keys limit locks

/-- A selection. -/
def selectOf : Read Select := do selectAfter g (← ctes? g)

end Galley.Sql.Read
