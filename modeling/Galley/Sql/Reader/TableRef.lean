import Galley.Sql.Hint
import Galley.Sql.Reader.Expr

/-!
Tables that are selected from: by name, made by functions or selections, and joined.
-/

namespace Galley.Sql.Read

variable (g : Grammar)

/-! ## Names for tables -/

/-- Whether a table is given another name. -/
def given? : Read Bool := do
  if ← atAs then
    advance
    return true
  atName

/-- The name that a table is given, with those of its columns. A name that is empty is none. -/
def asName (columns : Read Text) : Read (Option Text) := do
  let n ← name
  let columns ← if ← atSign "(" then do pure ([0x20] ++ (← columns)) else pure []
  return if n.isEmpty then none else some (nameText n ++ columns)

/-- The name that a table is given, if it is. -/
def asName? : Read (Option Text) := do
  if ← given? then asName nameList else return none

/-- A column of what a function returns, which may have a type. -/
def columnOf : Read Text := do
  let n ← name
  match ← kindAt 0 with
  | some (.sign ",") | some (.sign ")") => return nameText n
  | _ => return nameText n ++ [0x20] ++ (← typeName)

/-- The name that the rows of a function are given, if they are. -/
def functionAsName? : Read (Option Text) := do
  if ← given? then
    asName do return Expr.parens (commaList (← inParens (listOf columnOf)))
  else return none

/-- Whether the rows of a table are numbered. -/
def ordinality? : Read Bool := acceptWords ["with", "ordinality"]

/-! ## Hints -/

/-- An index, by its name or its number. -/
def indexRef : Read IndexRef := do
  if ← acceptSign "[" then
    let n ← int64
    sign "]"
    return .number n
  return .name (← anyName)

/-- A hint in braces. -/
def hint : Read Hints := do
  match ← oneOf ["force_index", "asc", "desc", "no_index_join", "no_zigzag_join", "no_full_scan",
      "ignore_foreign_keys", "force_zigzag"] with
  | "force_index" =>
    sign "="
    return { index := some (← indexRef) }
  | "asc" => return { direction := some "ASC" }
  | "desc" => return { direction := some "DESC" }
  | "no_index_join" => return { noIndexJoin := true }
  | "no_zigzag_join" => return { noZigzagJoin := true }
  | "no_full_scan" => return { noFullScan := true }
  | "ignore_foreign_keys" => return { ignoreForeignKeys := true }
  | _ =>
    if ← acceptSign "=" then return { zigzagIndexes := [← indexRef] }
    return { zigzag := true }

/-- Further hints, each after a comma, `n` at most. -/
def moreHints : Nat → Hints → Read Hints
  | 0, h => return h
  | n + 1, h => do
    if ← acceptSign "," then
      let more ← hint
      match h.clash? more with
      | some o => if more.zigzag then objectNext o else objectHere o
      | none => moreHints n (h.join more)
    else return h

/-- The hints at a table, if any are given. -/
def hints? : Read Text := do
  if !(← acceptSign "@") then return []
  if ← acceptSign "\x7b" then
    let h ← moreHints (← get).rest.length (← hint)
    sign "\x7d"
    match h.fault? with
    | some o => objectHere o
    | none => return h.text
  return Hints.text { index := some (← indexRef) }

/-! ## Tables -/

/-- A table as it is written, after what it is and before its name. -/
def tableText (lateral : Bool) (t flags : Text) (ordinal : Bool) (asName : Option Text) : Text :=
  (if lateral then ("LATERAL " : Text) else []) ++ t ++ flags ++
    (if ordinal then (" WITH ORDINALITY" : Text) else []) ++ optionalText "AS" asName

/-- A name in a list of tables: of a function that is called there, or of a table. -/
inductive Named where
  | call (t : Text)
  | table (parts : List Text)

/-- A function that is called by a keyword or its number, if one comes next. -/
def unnamedCall? : Read (Option Text) := do
  match ← specialCall? g with
  | some e => return some e.text
  | none =>
    if (← atSign "[") && (← wordAt 1) == some "function" then
      return some (← application g (← numberedFunction))
    return none

/-- A name in a list of tables. One of four parts can only be that of a function. -/
def calledOrNamed : Read Named := do
  let h : Head ← match ← kindAt 0 with
    | some (.word w) => if isReserved w then misfit else pure (headOf w)
    | some (.quotedName n) => pure ⟨n, true, true, true, true⟩
    | _ => misfit
  advance
  let more ← if h.isPath then moreParts 3 else pure []
  let parts := h.name :: more
  let mayCall := h.isFunction || !more.isEmpty
  if mayCall && (← atSign "(") then return .call (← application g (pathText parts))
  if !h.isPath || more.length = 3 then misfit
  return .table parts

/-- A call of a function whose rows are selected from. -/
def tableFunction : Read Text := do
  match ← unnamedCall? g with
  | some t => return t
  | none =>
    match ← calledOrNamed g with
    | .call t => return t
    | .table _ => misfit

/-- A function whose rows are selected from, after what is called. -/
def functionTable (lateral : Bool) (items : List Text) : Read Table := do
  let ordinal ← ordinality?
  let asName ← if lateral then asName? else functionAsName?
  return .verbatim (tableText lateral (("ROWS FROM " : Text) ++ Expr.parens (commaList items)) []
    ordinal asName)

/-- Functions whose rows are selected from side by side, if they come next. -/
def functions? : Read (Option (List Text)) := do
  if ← acceptWords ["rows", "from"] then
    return some (← inParens (listOf (tableFunction g)))
  return none

/-- A selection that is selected from. -/
def selectionTable (lateral : Bool) : Read Table := do
  let s ← parenSelect g
  let ordinal ← ordinality?
  let asName ← asName?
  if lateral || ordinal then
    return .verbatim (tableText lateral (Expr.parens s.text) [] ordinal asName)
  return .selection s asName

/-- A table by its number, after its opening bracket. -/
def numberedTable : Read Table := do
  let n ← int64
  let columns : Text ←
    if ← acceptSign "(" then
      let ns ← if ← atSign ")" then pure [] else listOf int64
      sign ")"
      pure (Expr.parens (commaList (ns.map Text.ofNat)))
    else pure []
  if ← atAs then advance
  let t ← asName nameList
  sign "]"
  let flags ← hints?
  let ordinal ← ordinality?
  let other ← asName?
  return .verbatim (tableText false
    ([0x5b] ++ Text.ofNat n ++ columns ++ optionalText "AS" t ++ [0x5d]) flags ordinal other)

/-- The words that start a statement whose rows can be selected from. -/
def rowStatements : List String :=
  ["delete", "explain", "insert", "select", "show", "update", "upsert", "values", "with", "table"]

/-- A statement whose rows are selected from, after its opening bracket. -/
def statementTable : Read Table := do
  match ← kindAt 0 with
  | some (.word w) => if !rowStatements.elem w then misfit
  | some (.sign "(") => pure ()
  | _ => misfit
  let s ← g.statement
  sign "]"
  let ordinal ← ordinality?
  let asName ← asName?
  return .verbatim (tableText false ([0x5b] ++ s.text ++ [0x5d]) [] ordinal asName)

/-- A table by its name, after that. -/
def namedTable (t : Text) : Read Table := do
  let flags ← hints?
  let ordinal ← ordinality?
  let asName ← asName?
  return .verbatim (tableText false t flags ordinal asName)

/-- A join in parentheses, and whether it has no name, so that it is still a join. Rows are numbered
only where it has one. -/
def parenJoin (joined : Read (Table × Bool)) : Read (Table × Bool) := do
  sign "("
  let (t, isJoin) ← joined
  if !isJoin then misfit
  sign ")"
  let ordinal ← ordinality?
  let asName ← asName?
  if ordinal && asName.isNone then misfit
  return (.verbatim (tableText false (Expr.parens t.text) [] ordinal asName), asName.isNone)

/-- A table that is not joined, and whether it is a join in parentheses. -/
def tableItem (joined : Read (Table × Bool)) : Read (Table × Bool) := do
  let whole := fun (t : Table) => (t, false)
  match ← kindAt 0 with
  | some (.sign "(") =>
    if ← atSelection then
      match ← attempt? (selectionTable g false) with
      | some t => return whole t
      | none => parenJoin joined
    else parenJoin joined
  | some (.word "lateral") =>
    advance
    if ← atSign "(" then return whole (← selectionTable g true)
    let items ← match ← functions? g with
      | some ts => pure ts
      | none => do pure [← tableFunction g]
    return whole (← functionTable true items)
  | _ =>
    match ← functions? g with
    | some ts => return whole (← functionTable false ts)
    | none => pure ()
    match ← unnamedCall? g with
    | some t => return whole (← functionTable false [t])
    | none => pure ()
    if ← acceptSign "[" then
      match ← kindAt 0 with
      | some (.integer _) => return whole (← numberedTable)
      | _ => return whole (← statementTable g)
    if ← acceptWord "only" then
      let t ← if ← atSign "(" then inParens tableName else tableName
      return whole (← namedTable t)
    match ← calledOrNamed g with
    | .call t => return whole (← functionTable false [t])
    | .table parts =>
      discard (acceptSign "*")
      return whole (← namedTable (objectText parts))

/-! ## Joins -/

/-- The condition of a join. -/
def joinCondition : Read Text := do
  if ← acceptWord "using" then return (" USING " : Text) ++ (← nameList)
  word "on"
  return (" ON " : Text) ++ (← exprText g)

/-- The way in which a join is to be made, if one is given. -/
def joinHint? : Read Text := do
  match ← wordAt 0 with
  | some w =>
    if ["hash", "merge", "lookup", "inverted", "straight"].elem w then
      advance
      return Text.upper w ++ [0x20]
    return []
  | none => return []

/-- The kind of a join before its keyword, if a join comes next. -/
def joinKind? : Read (Option Text) := do
  match ← wordAt 0 with
  | some "join" => return some []
  | some "inner" =>
    advance
    return some (("INNER " : Text) ++ (← joinHint?))
  | some w =>
    if ["left", "right", "full"].elem w then
      advance
      discard (acceptWord "outer")
      return some (Text.upper w ++ [0x20] ++ (← joinHint?))
    return none
  | none => return none

/-- Joins further tables to one, `n` at most. -/
def joins (joined : Read (Table × Bool)) : Nat → Table × Bool → Read (Table × Bool)
  | 0, t => return t
  | n + 1, (t, isJoin) => do
    if ← acceptWord "cross" then
      let hint ← joinHint?
      word "join"
      let (u, _) ← tableItem g joined
      joins joined n (.verbatim (t.text ++ (" CROSS " : Text) ++ hint ++ ("JOIN " : Text) ++ u.text),
        true)
    else if ← acceptWord "natural" then
      let kind ← match ← joinKind? with
        | some k => pure k
        | none => misfit
      word "join"
      let (u, _) ← tableItem g joined
      joins joined n
        (.verbatim (t.text ++ (" NATURAL " : Text) ++ kind ++ ("JOIN " : Text) ++ u.text), true)
    else
      match ← joinKind? with
      | none => return (t, isJoin)
      | some kind =>
        word "join"
        let (u, _) ← joined
        let condition ← joinCondition g
        joins joined n
          (.verbatim (t.text ++ [0x20] ++ kind ++ ("JOIN " : Text) ++ u.text ++ condition), true)

/-- A table, which may be joined from others, and whether it is. Joins are nested `n` deep at
most. -/
def joinedTable : Nat → Read (Table × Bool)
  | 0 => misfit
  | n + 1 => do
    let t ← tableItem g (joinedTable n)
    joins g (joinedTable n) (← get).rest.length t

/-- A table that is selected from. -/
def table : Read Table := do return (← joinedTable g (← get).rest.length).1

end Galley.Sql.Read
