import Galley.Sql.Objection
import Galley.Sql.Token.Lexer
import Galley.Sql.Tree

/-!
Reading a grammar off a list of tokens. What was tried in vain is remembered by the furthest token
that did not fit: that is the token at which a statement goes wrong. An objection ends the reading
for good, whatever else might be tried.
-/

namespace Galley.Sql

/-- Tokens that are left, the number of those before them, the number of those before the furthest
one that did not fit, and an objection with the number of tokens before its own. -/
structure Cursor where
  rest : List Token
  used : Nat := 0
  furthest : Nat := 0
  objection : Option (Nat × Objection) := none

/-- Reading that may fail, and then leaves the cursor where it failed. -/
abbrev Read := OptionT (StateM Cursor)

namespace Read

/-- The token at hand does not fit. -/
def misfit {α : Type} : Read α := do
  modify fun c => { c with furthest := max c.furthest c.used }
  failure

/-- Objects at the token that was read last. -/
def objectHere {α : Type} (o : Objection) : Read α := do
  modify fun c => { c with objection := some (c.used - 1, o) }
  failure

/-- Objects at the token at hand. -/
def objectNext {α : Type} (o : Objection) : Read α := do
  modify fun c => { c with objection := some (c.used, o) }
  failure

/-- Looks at a token ahead. -/
def kindAt (k : Nat) : Read (Option TokenKind) := do
  return ((← get).rest[k]?).map (·.kind)

/-- Moves past a token. -/
def advance : Read Unit := modify fun c => { c with rest := c.rest.tail, used := c.used + 1 }

/-- Tries to read something, and stays in place if that fails without an objection. -/
def attempt? {α : Type} (p : Read α) : Read (Option α) := do
  let start ← get
  let (r, c) := p.run.run start
  match r with
  | some a =>
    set c
    return some a
  | none =>
    let furthest := max start.furthest c.furthest
    if c.objection.isSome then
      set { c with furthest }
      failure
    set { start with furthest }
    return none

/-- Reads something in one way or another. -/
def either {α : Type} (p q : Read α) : Read α := do
  match ← attempt? p with
  | some a => return a
  | none => q

/-- The word ahead, if one is. -/
def wordAt (k : Nat) : Read (Option String) := do
  match ← kindAt k with
  | some (.word w) => return some w
  | _ => return none

/-- Whether a word comes next. -/
def atWord (w : String) : Read Bool := do return (← wordAt 0) == some w

/-- Whether a sign comes next. -/
def atSign (s : String) : Read Bool := do return (← kindAt 0) == some (.sign s)

/-- Moves past a word if it comes next. -/
def acceptWord (w : String) : Read Bool := do
  if ← atWord w then
    advance
    return true
  return false

/-- Moves past words if they come next, all of them. -/
def acceptWords (ws : List String) : Read Bool := do
  let ahead := (← get).rest.take ws.length |>.map (·.kind)
  if ahead = ws.map .word then
    modify fun c => { c with rest := c.rest.drop ws.length, used := c.used + ws.length }
    return true
  return false

/-- Moves past a sign if it comes next. -/
def acceptSign (s : String) : Read Bool := do
  if ← atSign s then
    advance
    return true
  return false

/-- Asks for a word. -/
def word (w : String) : Read Unit := do
  if !(← acceptWord w) then misfit

/-- Asks for words, one after the other. -/
def words : List String → Read Unit
  | [] => return
  | w :: ws => do
    word w
    words ws

/-- Asks for one of some words. -/
def oneOf (ws : List String) : Read String := do
  match ← wordAt 0 with
  | some w =>
    if ws.elem w then
      advance
      return w
    misfit
  | none => misfit

/-- Asks for a sign. -/
def sign (s : String) : Read Unit := do
  if !(← acceptSign s) then misfit

/-- Reads something between parentheses. -/
def inParens {α : Type} (p : Read α) : Read α := do
  sign "("
  let a ← p
  sign ")"
  return a

/-- Reads further elements of a list, each after a comma, `n` at most. -/
def moreOf {α : Type} (p : Read α) : Nat → Read (List α)
  | 0 => return []
  | n + 1 => do
    if ← acceptSign "," then
      let a ← p
      return a :: (← moreOf p n)
    return []

/-- Reads a list with commas between its elements. -/
def listOf {α : Type} (p : Read α) : Read (List α) := do
  let a ← p
  return a :: (← moreOf p (← get).rest.length)

/-- Reads things one after the other while a word comes next, `n` at most. -/
def manyAt {α : Type} (w : String) (p : Read α) : Nat → Read (List α)
  | 0 => return []
  | n + 1 => do
    if ← atWord w then
      let a ← p
      return a :: (← manyAt w p n)
    return []

/-! ## Names -/

/-- Asks for a name that is no keyword of some kinds. -/
def nameBut (excluded : String → Bool) : Read Text := do
  match ← kindAt 0 with
  | some (.word w) =>
    if excluded w then misfit
    advance
    return Text.ofString w
  | some (.quotedName n) =>
    advance
    return n
  | _ => misfit

/-- Whether a word names no column or table. -/
def namesNothing (w : String) : Bool := isReserved w || isFunctionWord w

/-- The name of a column, a table or the like. -/
def name : Read Text := nameBut namesNothing

/-- A name that may be any keyword. -/
def anyName : Read Text := nameBut fun _ => false

/-- Whether a name comes after `k` tokens. -/
def nameAt (k : Nat) : Read Bool := do
  match ← kindAt k with
  | some (.word w) => return !namesNothing w
  | some (.quotedName _) => return true
  | _ => return false

/-- Whether a name comes next. -/
def atName : Read Bool := nameAt 0

/-- Whether the word for another name comes next, and not the one for a time. -/
def atAs : Read Bool := do
  return (← atWord "as") && !((← wordAt 1) == some "of" && (← wordAt 2) == some "system")

/-- A list of names in parentheses, as it is written. -/
def nameList : Read Text := do
  let names ← inParens (listOf name)
  return Expr.parens (commaList (names.map nameText))

/-- Reads further parts of a name, each after a point. -/
def moreParts : Nat → Read (List Text)
  | 0 => return []
  | n + 1 => do
    if ← acceptSign "." then
      let part ← anyName
      return part :: (← moreParts n)
    return []

/-- The name of a table, of three parts at most, as it is written. -/
def tableName : Read Text := do
  let first ← nameBut fun w => namesNothing w && w ≠ "family"
  let more ← moreParts 2
  return objectText (first :: more)

/-! ## Constants -/

/-- The value of the digits of a whole number. -/
def integerValue (digits : Text) : Nat :=
  match digits with
  | 0x30 :: x :: rest =>
    if Token.isHexMark x then Token.digitsValue 16 (rest.filterMap Token.hexDigit?)
    else Token.digitsValue 10 (digits.filterMap Token.hexDigit?)
  | _ => Token.digitsValue 10 (digits.filterMap Token.hexDigit?)

/-- Asks for a whole number. -/
def integer : Read Nat := do
  match ← kindAt 0 with
  | some (.integer n) =>
    advance
    return integerValue n.text
  | _ => misfit

/-- Asks for a whole number of 32 bits. -/
def int32 : Read Nat := do
  let n ← integer
  if 2147483647 < n then objectHere .wideInt32
  return n

/-- Asks for a whole number of 64 bits. -/
def int64 : Read Nat := do
  let n ← integer
  if 9223372036854775807 < n then objectHere .wideInt64
  return n

/-- Asks for a string. -/
def string : Read Text := do
  match ← kindAt 0 with
  | some (.string t) =>
    advance
    return t
  | _ => misfit

end Read

end Galley.Sql
