import Galley.Sql.Reader.Window

/-!
Calls of functions. Functions with a grammar of their own become calls of functions without one.
-/

namespace Galley.Sql.Read

variable (g : Grammar)

/-! ## Calls by name -/

/-- The order inside the groups of an aggregate. It has one key. -/
def groupOrder : Read Text := do
  word "order"
  word "by"
  let key ← sortKey g true
  if ← acceptSign "," then
    discard (listOf (sortKey g true))
    objectNext .severalKeys
  return key

/-- What follows the arguments of a call. -/
def callEnd (call : Text) : Read Expr := do
  let group : Text ←
    if ← acceptWord "within" then
      word "group"
      pure ((" WITHIN GROUP (ORDER BY " : Text) ++ (← inParens (groupOrder g)) ++ (")" : Text))
    else pure []
  let filter : Text ←
    if ← acceptWord "filter" then
      let e ← inParens do
        word "where"
        exprText g
      pure ((" FILTER (WHERE " : Text) ++ e ++ (")" : Text))
    else pure []
  let window : Text ←
    if ← acceptWord "over" then
      if ← atSign "(" then pure ((" OVER " : Text) ++ (← windowSpec g))
      else pure ((" OVER " : Text) ++ nameText (← name))
    else pure []
  return .leaf .plain (call ++ group ++ filter ++ window)

/-- The arguments of a call and the closing parenthesis, as a list and the order after it. A list
that is spread out over the arguments has no meaning yet. -/
def spread : Read Text := do
  word "variadic"
  discard (exprText g)
  discard (orderBy? g false)
  sign ")"
  objectHere .unsupported

/-- Further arguments of a call, each after a comma, `n` at most. -/
def moreArgs : Nat → Read (List Text)
  | 0 => return []
  | n + 1 => do
    if ← acceptSign "," then
      if ← atWord "variadic" then discard (spread g)
      let e ← exprText g
      return e :: (← moreArgs n)
    return []

/-- The arguments of a call, after its opening parenthesis. -/
def callArgs : Read Text := do
  if ← acceptSign ")" then return []
  if ← acceptSign "*" then
    sign ")"
    return [0x2a]
  if ← atWord "variadic" then spread g
  else if ← acceptWord "distinct" then
    let args ← exprsText g
    sign ")"
    return ("DISTINCT " : Text) ++ args
  else
    let kind : Text ← if ← acceptWord "all" then pure "ALL " else pure []
    let first ← exprText g
    let more ← if kind.isEmpty then moreArgs g (← get).rest.length
      else moreOf (exprText g) (← get).rest.length
    let keys ← orderBy? g false
    sign ")"
    return kind ++ commaList (first :: more) ++ optionalList "ORDER BY" keys

/-- A call of a function without what may follow it, after the name of the function. -/
def application (function : Text) : Read Text := do
  sign "("
  return function ++ Expr.parens (← callArgs g)

/-- A call of a function, after its name. -/
def call (function : Text) : Read Expr := do callEnd g (← application g function)

/-- A function that is named by its number. -/
def numberedFunction : Read Text := do
  sign "["
  word "function"
  let n ← int32
  sign "]"
  return ("[FUNCTION " : Text) ++ Text.ofNat n ++ ("]" : Text)

/-! ## Arguments with words between them -/

/-- The fields of a time that are keywords. -/
def timeFields : List String := ["year", "month", "day", "hour", "minute", "second"]

/-- The name of a field that is extracted, if the next token names one. -/
def extractField? : Read (Option Text) := do
  if (← wordAt 1) != some "from" then return none
  match ← kindAt 0 with
  | some (.string t) => return some t
  | some (.quotedName t) => return some t
  | some (.word w) => return if timeFields.elem w || !isKeyword w then some w else none
  | _ => return none

/-- The field and the source of an extraction. -/
def extractArgs : Read (List Text) := do
  match ← extractField? with
  | some field =>
    advance
    word "from"
    return [stringText field.lower, ← exprText g]
  | none => exprs g

/-- The text to search for, after the text to search in. -/
def positionArgs : Read (List Text) := do
  if ← atSign ")" then return []
  let part ← bareText g
  word "in"
  return [← bareText g, part]

/-- A text, where its part starts, and how long it is. -/
def substringArgs : Read (List Text) := do
  if ← atSign ")" then return []
  let e ← exprText g
  if ← acceptWord "from" then
    let start ← exprText g
    if ← acceptWord "for" then return [e, start, ← exprText g]
    return [e, start]
  if ← acceptWord "for" then
    let length ← exprText g
    if ← acceptWord "from" then return [e, ← exprText g, length]
    return [e, [0x31], length]
  return e :: (← moreOf (exprText g) (← get).rest.length)

/-- A text, what is put in, where, and in place of how much. -/
def overlayArgs : Read (List Text) := do
  let e ← exprText g
  if ← acceptWord "placing" then
    let part ← exprText g
    word "from"
    let start ← exprText g
    if ← acceptWord "for" then return [e, part, start, ← exprText g]
    return [e, part, start]
  return e :: (← moreOf (exprText g) (← get).rest.length)

/-- A text, and what is cut off its ends. -/
def trimArgs : Read (List Text) := do
  if ← acceptWord "from" then return ← exprs g
  let e ← exprText g
  if ← acceptWord "from" then return (← exprs g) ++ [e]
  return e :: (← moreOf (exprText g) (← get).rest.length)

/-- The function that trims the end that is named, or both. -/
def trimFunction : Read Text := do
  if ← acceptWord "both" then return "btrim"
  if ← acceptWord "leading" then return "ltrim"
  if ← acceptWord "trailing" then return "rtrim"
  return "btrim"

/-- The trimming of a text, after its name. -/
def trimCall : Read Text := inParens do
  let function ← trimFunction
  return callText function (← trimArgs g)

/-! ## Calls by keyword -/

/-- From `least` to `most` arguments, one after the other. -/
def argsBetween : Nat → Nat → Read (List Text)
  | _, 0 => return []
  | least, most + 1 => do
    let e ← exprText g
    if least ≤ 1 then
      if (← atSign ",") && most ≠ 0 then
        advance
        return e :: (← argsBetween (least - 1) most)
      return [e]
    sign ","
    return e :: (← argsBetween (least - 1) most)

/-- A conversion to a type, after its name. -/
def castCall : Read Text := inParens do
  let e ← exprText g
  word "as"
  return ("CAST(" : Text) ++ e ++ (" AS " : Text) ++ (← typeName) ++ (")" : Text)

/-- The naming of a type, after its name. -/
def annotateCall : Read Text := inParens do
  let e ← exprText g
  sign ","
  return ("ANNOTATE_TYPE(" : Text) ++ e ++ (", " : Text) ++ (← typeName) ++ (")" : Text)

/-- The treatment as another type, which has no meaning yet. -/
def treatCall : Read Text := do
  inParens do
    discard (exprText g)
    word "as"
    discard typeName
  objectHere .unsupported

/-- A call by a keyword that names a column when no parenthesis follows it, after its name. -/
def keywordCall? (w : String) : Option (Read Text) :=
  let form := fun (args : Read (List Text)) => some do
    return callText (Text.upper w) (← inParens args)
  let plain := fun (function : Text) (args : Read (List Text)) => some do
    return callText function (← inParens args)
  match w with
  | "annotate_type" => some (annotateCall g)
  | "treat" => some (treatCall g)
  | "if" => form (argsBetween g 3 3)
  | "nullif" | "ifnull" => form (argsBetween g 2 2)
  | "iferror" => form (argsBetween g 2 3)
  | "iserror" => form (argsBetween g 1 2)
  | "coalesce" => form (exprs g)
  | "greatest" | "least" => plain w (exprs g)
  | "extract" | "extract_duration" => plain w (extractArgs g)
  | "overlay" => plain w (overlayArgs g)
  | "position" => plain "strpos" (positionArgs g)
  | "substring" => plain w (substringArgs g)
  | "trim" => some (trimCall g)
  | _ => none

/-- Functions that are called by their name alone, and may be followed by empty parentheses. -/
def emptyFunctions : List String :=
  ["current_date", "current_schema", "current_user", "session_user"]

/-- Functions that are called by their name alone, and may be followed by an argument. -/
def timeFunctions : List String :=
  ["current_time", "current_timestamp", "localtime", "localtimestamp"]

/-- Functions that are called by another name. -/
def renamedFunctions : List (String × String) :=
  [("current_catalog", "current_database"), ("current_role", "current_user"),
    ("user", "current_user")]

/-- A call with a grammar of its own, if one comes next. No window may follow it. -/
def specialCall? : Read (Option Expr) := do
  let plain := fun (t : Text) => some (Expr.leaf .plain t)
  match ← wordAt 0 with
  | some "cast" =>
    advance
    return some (.leaf .cast (← castCall g))
  | some "collation" =>
    if (← wordAt 1) == some "for" then
      words ["collation", "for"]
      return plain (callText "pg_collation_for" [← inParens (exprText g)])
    return none
  | some w =>
    if emptyFunctions.elem w then
      advance
      if ← acceptSign "(" then sign ")"
      return plain (callText w [])
    if timeFunctions.elem w then
      advance
      if !(← acceptSign "(") then return plain (callText w [])
      let args ← if ← atSign ")" then pure [] else do pure [← exprText g]
      sign ")"
      return plain (callText w args)
    match renamedFunctions.lookup w with
    | some function =>
      advance
      return plain (callText function [])
    | none =>
      if (← kindAt 1) == some (.sign "(") then
        match keywordCall? g w with
        | some p =>
          advance
          return plain (← p)
        | none => return none
      return none
  | none => return none

end Galley.Sql.Read
