import Galley.Sql.Reader.Grammar

/-!
Orders and windows.
-/

namespace Galley.Sql.Read

variable (g : Grammar)

/-! ## Orders -/

/-- The direction of an order, if one is given. -/
def direction? : Read Text := do
  if ← acceptWord "asc" then return " ASC"
  if ← acceptWord "desc" then return " DESC"
  return []

/-- The place of the missing values in an order, if one is given. -/
def nulls? : Read Text := do
  if ← acceptWords ["nulls", "first"] then return " NULLS FIRST"
  if ← acceptWords ["nulls", "last"] then return " NULLS LAST"
  return []

/-- Whether the order of an index is meant by the word for one. -/
def atIndexOrder : Read Bool := do
  if !(← atWord "index") then return false
  match ← wordAt 1, ← wordAt 2 with
  | some "nulls", some "first" | some "nulls", some "last" => return false
  | some "family", _ => return true
  | _, _ => nameAt 1

/-- A key of an order: an expression, or the order of a table by itself or by an index where that is
possible. -/
def sortKey (indexed : Bool) : Read Text := do
  if indexed && (← atWord "primary") then
    words ["primary", "key"]
    return ("PRIMARY KEY " : Text) ++ (← tableName) ++ (← direction?)
  if indexed && (← atIndexOrder) then
    advance
    let table ← tableName
    sign "@"
    return ("INDEX " : Text) ++ table ++ [0x40] ++ labelText (← anyName) ++ (← direction?)
  return (← exprText g) ++ (← direction?) ++ (← nulls?)

/-- An order, if one is given. -/
def orderBy? (indexed : Bool) : Read (List Text) := do
  if ← acceptWord "order" then
    word "by"
    listOf (sortKey g indexed)
  else return []

/-! ## Frames -/

/-- A bound of the frame of a window. -/
inductive Bound where
  | start
  | preceding (offset : Text)
  | current
  | following (offset : Text)
  | stop

/-- The text of a bound. -/
def Bound.text : Bound → Text
  | .start => "UNBOUNDED PRECEDING"
  | .preceding e => e ++ (" PRECEDING" : Text)
  | .current => "CURRENT ROW"
  | .following e => e ++ (" FOLLOWING" : Text)
  | .stop => "UNBOUNDED FOLLOWING"

/-- What is wrong with a frame from a bound to the current row. -/
def Bound.fault? : Bound → Option FrameFault
  | .stop => some .startsAtEnd
  | .following _ => some .followingToCurrent
  | _ => none

/-- What is wrong with a frame between two bounds. -/
def Bound.faultTo? (first last : Bound) : Option FrameFault :=
  match first, last with
  | .stop, _ => some .startsAtEnd
  | _, .start => some .endsAtStart
  | .current, .preceding _ => some .currentBeforePreceding
  | .following _, .preceding _ => some .followingBeforePreceding
  | .following _, .current => some .followingBeforePreceding
  | _, _ => none

/-- Whether rows before or after a bound are meant. -/
def side : Read Bool := do return (← oneOf ["preceding", "following"]) == "preceding"

/-- A bound of the frame of a window. -/
def bound : Read Bound := do
  let next ← wordAt 1
  if (← atWord "current") && next == some "row" then
    words ["current", "row"]
    return .current
  if (← atWord "unbounded") && (next == some "preceding" || next == some "following") then
    advance
    return if ← side then .start else .stop
  let e ← exprText g
  return if ← side then .preceding e else .following e

/-- Asks for a frame without a fault, after its last word. -/
def soundFrame (f : Option FrameFault) : Read Unit := do
  match f with
  | some f => objectHere (.frame f)
  | none => return

/-- The rows that are left out of a frame, if any are. -/
def exclusion? : Read Text := do
  if !(← acceptWord "exclude") then return []
  match ← oneOf ["current", "group", "ties", "no"] with
  | "current" =>
    word "row"
    return " EXCLUDE CURRENT ROW"
  | "group" => return " EXCLUDE GROUP"
  | "ties" => return " EXCLUDE TIES"
  | _ =>
    word "others"
    return []

/-- The frame of a window, after the word for what it counts. -/
def frame : Read Text := do
  if ← acceptWord "between" then
    let first ← bound g
    word "and"
    let last ← bound g
    soundFrame (first.faultTo? last)
    return ("BETWEEN " : Text) ++ first.text ++ (" AND " : Text) ++ last.text ++ (← exclusion?)
  let first ← bound g
  soundFrame first.fault?
  return first.text ++ (← exclusion?)

/-- The frame of a window, if one is given. -/
def frame? : Read (Option Text) := do
  match ← wordAt 0 with
  | some w =>
    if ["range", "rows", "groups"].elem w then
      advance
      return some (Text.upper w ++ [0x20] ++ (← frame g))
    return none
  | none => return none

/-! ## Windows -/

/-- The definition of a window, in parentheses. -/
def windowSpec : Read Text := inParens do
  let base : List Text ←
    if ["partition", "range", "rows", "groups"].elem ((← wordAt 0).getD "") then pure []
    else if ← atName then do pure [nameText (← name)]
    else pure []
  let parts : List Text ←
    if ← acceptWord "partition" then
      word "by"
      pure [("PARTITION BY " : Text) ++ (← exprsText g)]
    else pure []
  let keys ← orderBy? g false
  let order : List Text :=
    if keys.isEmpty then [] else [("ORDER BY " : Text) ++ commaList keys]
  let frame ← frame? g
  return Expr.parens (Text.join [0x20] (base ++ parts ++ order ++ frame.toList))

end Galley.Sql.Read
