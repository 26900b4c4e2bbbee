import Galley.Sql.Reader.Call

/-!
Expressions without operators: constants, columns, calls, rows, arrays and what stands in
parentheses.
-/

namespace Galley.Sql.Read

variable (g : Grammar)

/-! ## Cases -/

/-- A branch of a case. -/
def branch : Read Text := do
  word "when"
  let e ← exprText g
  word "then"
  return ("WHEN " : Text) ++ e ++ (" THEN " : Text) ++ (← exprText g) ++ [0x20]

/-- A case. -/
def caseExpr : Read Expr := do
  word "case"
  let subject : Text ←
    if ← atWord "when" then pure []
    else pure ((← exprText g) ++ [0x20])
  let first ← branch g
  let more ← manyAt "when" (branch g) (← get).rest.length
  let otherwise : Text ←
    if ← acceptWord "else" then pure (("ELSE " : Text) ++ (← exprText g) ++ [0x20])
    else pure []
  word "end"
  return .leaf .plain
    (("CASE " : Text) ++ subject ++ (first :: more).flatten ++ otherwise ++ ("END" : Text))

/-! ## Rows and arrays -/

/-- Whether a row comes next that starts with its word. -/
def atRow : Read Bool := do return (← atWord "row") && (← kindAt 1) == some (.sign "(")

/-- The elements of a row, which may be told from an expression in parentheses. -/
def row : Read (List Text) := do
  if ← atRow then
    word "row"
    inParens (exprsTo g ")")
  else
    sign "("
    if ← acceptSign ")" then return []
    let first ← exprText g
    sign ","
    let more ← exprsTo g ")"
    sign ")"
    return first :: more

/-- The elements of an array, which are all arrays themselves if the first one is. -/
def arrayItems : Nat → Read Text
  | 0 => misfit
  | n + 1 => do
    sign "["
    let items ←
      if (← atSign "[") && (← wordAt 1) != some "function" then listOf (arrayItems n)
      else exprsTo g "]"
    sign "]"
    return ("ARRAY[" : Text) ++ commaList items ++ ("]" : Text)

/-- An array. -/
def arrayExpr : Read Expr := do
  word "array"
  if ← atSign "[" then
    return .leaf .plain (← arrayItems g (← get).rest.length)
  let ofRow : Read Expr := do
    return .leaf .plain (("ARRAY[" : Text) ++ commaList (← row g) ++ ("]" : Text))
  if ← atSelection then
    either (do return .leaf .plain (("ARRAY " : Text) ++ Expr.parens (← parenSelect g).text)) ofRow
  else ofRow

/-- The field of an expression in parentheses, if one is taken. -/
def field? : Read Text := do
  if !(← acceptSign ".") then return []
  if ← acceptSign "*" then return ".*"
  if ← acceptSign "@" then return (".@" : Text) ++ Text.ofNat (← int32)
  return [0x2e] ++ nameText (← anyName)

/-- What stands in parentheses: a row, which may have labels, or another expression. -/
def parenExpr : Read Expr := do
  sign "("
  if ← acceptSign ")" then return .tuple []
  let e ← anyExpr g
  if ← acceptSign "," then
    let more ← exprsTo g ")"
    sign ")"
    return .tuple (e.text :: more)
  match e with
  | .tuple items =>
    if ← atAs then
      word "as"
      let labels ← listOf name
      sign ")"
      return .leaf .plain
        (Expr.parens (Expr.tupleText items ++ (" AS " : Text) ++ commaList (labels.map nameText)))
  | _ => pure ()
  sign ")"
  return .leaf .plain (Expr.parens e.text ++ (← field?))

/-! ## Names and strings with types -/

/-- An interval. -/
def intervalLiteral : Read Expr := do
  word "interval"
  if ← atSign "(" then
    let size ← precision?
    let v ← string
    return .leaf .cast (stringText v ++ ("::INTERVAL" : Text) ++ precisionText size)
  let v ← string
  return .leaf .cast (stringText v ++ ("::INTERVAL" : Text) ++ (← intervalFields?))

/-- A string of a type. -/
def typedString (type v : Text) : Expr := .leaf .cast (type ++ [0x20] ++ stringText v)

/-- A string with a type before it that is named like a function. -/
def namedLiteral (parts : List Text) : Read Expr := do
  let v ← string
  match parts with
  | [n] =>
    if isMissingType n then objectHere .unsupported
    return typedString ((namedType? n).getD (nameText n)) v
  | _ =>
    if 3 < parts.length then objectHere (.longName (pathText parts))
    return typedString (pathText parts) v

/-- Reads further parts of a column name, and whether a star ends it. -/
def columnParts : Nat → Read (List Text × Bool)
  | 0 => return ([], false)
  | n + 1 => do
    if ← acceptSign "." then
      if ← acceptSign "*" then return ([], true)
      let part ← anyName
      let (more, star) ← columnParts n
      return (part :: more, star)
    return ([], false)

/-- A name and what it names by itself. -/
structure Head where
  name : Text
  /-- Whether it names a column. -/
  isColumn : Bool
  /-- Whether it names a function. -/
  isFunction : Bool
  /-- Whether it names a type. -/
  isType : Bool
  /-- Whether more parts may follow it. -/
  isPath : Bool

/-- The first part of a name, by the kind of word that it is. -/
def headOf (w : String) : Head :=
  let n : Text := w
  if isFunctionWord w then ⟨n, false, true, w ≠ "family", w = "family"⟩
  else if isColumnWord w then ⟨n, true, false, false, true⟩
  else ⟨n, true, true, true, true⟩

/-- A column, a call of a function, or a string with a type. -/
def named : Read Expr := do
  let h : Head ← match ← kindAt 0 with
    | some (.word w) => if isReserved w then misfit else pure (headOf w)
    | some (.quotedName n) => pure ⟨n, true, true, true, true⟩
    | _ => misfit
  advance
  let (more, star) ← if h.isPath then columnParts 3 else pure ([], false)
  let parts := h.name :: more
  if star then
    return .leaf .plain (pathText parts ++ (".*" : Text))
  let isPath := !more.isEmpty
  match ← kindAt 0 with
  | some (.sign "(") => if isPath || h.isFunction then call g (pathText parts) else misfit
  | some (.string _) => if isPath || h.isType then namedLiteral parts else misfit
  | _ => if isPath || h.isColumn then return .leaf .plain (pathText parts) else misfit

/-- A string with a type before it that is named by a keyword, or a column of that name. -/
def typedOrNamed (type : Read Text) : Read Expr :=
  either (do
    let type ← type
    return typedString type (← string)) (named g)

/-! ## Expressions without operators -/

/-- An expression that starts with a word. -/
def wordExpr (w : String) : Read Expr := do
  match ← specialCall? g with
  | some e => return e
  | none => pure ()
  let atCall := (← kindAt 1) == some (.sign "(")
  match w with
  | "true" | "false" =>
    advance
    return .leaf .constant w
  | "null" =>
    advance
    return .leaf .constant "NULL"
  | "array" => arrayExpr g
  | "row" => if atCall then return .tuple (← row g) else named g
  | "grouping" =>
    if atCall then
      advance
      discard (inParens (exprs g))
      objectHere .unsupported
    named g
  | "interval" =>
    match ← kindAt 1 with
    | some (.string _) | some (.sign "(") => intervalLiteral
    | _ => named g
  | _ =>
    match ← atKeywordType with
    | some type => typedOrNamed g type
    | none => named g

/-- Reads subscripts. -/
def subscripts : Nat → Read Text
  | 0 => return []
  | n + 1 => do
    if ← acceptSign "[" then
      let first ← if ← atSign ":" then pure [] else exprText g
      let range : Text ←
        if ← acceptSign ":" then
          let last ← if ← atSign "]" then pure [] else exprText g
          pure ([0x3a] ++ last)
        else pure []
      sign "]"
      return [0x5b] ++ first ++ range ++ [0x5d] ++ (← subscripts n)
    return []

/-- An expression without operators that may have subscripts. -/
def atom : Read Expr := do
  match ← kindAt 0 with
  | some (.integer n) | some (.decimal n) =>
    advance
    return .leaf .number n.text
  | some (.string v) =>
    advance
    return .leaf .constant (stringText v)
  | some (.bytes v) =>
    advance
    return .leaf .constant (bytesText v)
  | some (.bits v) =>
    advance
    return .leaf .constant (("B'" : Text) ++ v ++ [0x27])
  | some (.placeholder n) =>
    advance
    return .leaf .plain ([0x24] ++ Text.ofNat n)
  | some (.quotedName _) => named g
  | some (.word w) => wordExpr g w
  | some (.sign "(") =>
    if ← atSelection then
      either (do return .leaf .plain (Expr.parens (← parenSelect g).text)) (parenExpr g)
    else parenExpr g
  | some (.sign "@") =>
    advance
    let n ← int64
    if n = 0 then objectHere (.ordinal n)
    return .leaf .plain ([0x40] ++ Text.ofNat n)
  | some (.sign "[") => do call g (← numberedFunction)
  | _ => misfit

/-- An expression without operators. Cases and tests for rows have no subscripts. -/
def primary : Read Expr := do
  if ← atWord "case" then return ← caseExpr g
  if (← atWord "exists") && (← kindAt 1) == some (.sign "(") then
    advance
    let s ← parenSelect g
    return .leaf .plain (("EXISTS " : Text) ++ Expr.parens s.text)
  let e ← atom g
  let subs ← subscripts g (← get).rest.length
  if subs.isEmpty then return e
  let base := match e with
    | .leaf .cast t => Expr.parens t
    | e => e.operand
  return .leaf .plain (base ++ subs)

end Galley.Sql.Read
