import Galley.Sql.Operator
import Galley.Sql.Reader.Primary

/-!
Expressions with operators. Operators bind by level; on some levels they cannot be chained.
-/

namespace Galley.Sql

namespace Read

variable (g : Grammar)

/-! ## Operators before their operand -/

/-- Two operands with words between them. -/
def wordsText (l : Expr) (ws : Text) (r : Expr) : Expr :=
  operator (l.operand ++ [0x20] ++ ws ++ [0x20] ++ r.operand)

/-- The words that say how many elements of an array are compared. -/
def quantifiers : List String := ["any", "some", "all"]

/-- A quantifier, if one comes next. -/
def quantifier? : Read (Option Text) := do
  match ← wordAt 0 with
  | some w =>
    if quantifiers.elem w then
      advance
      return some (Text.upper w)
    return none
  | none => return none

/-- An operator that is a sign. -/
def signOperator : Read Operator := do
  match ← kindAt 0 with
  | some (.sign s) =>
    match Operator.ofSign? s with
    | some op =>
      if !op.isNameable then misfit
      advance
      return op
    | none => misfit
  | _ => misfit

/-- An operator that is named by `OPERATOR`. A schema may stand before it, but only that of the
operators that are there from the start. -/
def namedOperator : Read Operator := do
  word "operator"
  inParens do
    match ← kindAt 0 with
    | some (.sign _) => signOperator
    | _ =>
      let schema ← name
      sign "."
      let op ← signOperator
      if schema != Text.ofString "pg_catalog" then objectHere .unsupported
      return op

/-- Whether an operator that is named by `OPERATOR` comes next. -/
def atNamedOperator : Read Bool := do
  return (← atWord "operator") && (← kindAt 1) == some (.sign "(")

/-- An operand after an operator that is named. -/
def namedSigned : Read Expr := do
  let op ← namedOperator
  let e ← g.expr Level.explicit false
  let isSign := op.text = Text.ofString "+" || op.text = Text.ofString "-"
  match op.kind with
  | .unary | .either => return e.signed op.explicitText false
  | _ =>
    if isSign then return e.signed op.explicitText (op.text = Text.ofString "-")
    objectNext (.notUnary op.text)

/-- Whether two spans overlap, after the first. -/
def overlaps (first : List Text) : Read Expr := do
  word "overlaps"
  let second ← row g
  if first.length ≠ 2 then objectHere .leftOverlap
  if second.length ≠ 2 then objectHere .rightOverlap
  return .leaf .plain (callText "overlaps" (first ++ second))

/-- An expression that starts with an operator, or with none. -/
def signed (bare : Bool) : Read Expr := do
  match ← kindAt 0 with
  | some (.sign "+") =>
    advance
    match ← g.expr Level.sign bare with
    | .tuple items => return .leaf .plain (Expr.tupleText items)
    | e => return e
  | some (.sign "-") =>
    advance
    return (← g.expr Level.sign bare).negate
  | some (.sign "~") =>
    advance
    return (← g.expr Level.sign bare).signed [0x7e] false
  | _ =>
    if bare then return ← primary g
    match ← kindAt 0 with
    | some (.sign "|/") =>
      advance
      return (← g.expr (Level.shift + 1) false).signed "|/" false
    | some (.sign "||/") =>
      advance
      return (← g.expr (Level.shift + 1) false).signed "||/" false
    | some (.word "not") =>
      advance
      return operator (("NOT " : Text) ++ (← g.expr Level.not false).operand)
    | some (.word "default") =>
      advance
      return .leaf .plain "DEFAULT"
    | some (.word "unique") =>
      advance
      sign "("
      objectNext .unsupported
    | _ =>
      if ← atNamedOperator then return ← namedSigned g
      let e ← primary g
      match e with
      | .tuple items => if ← atWord "overlaps" then overlaps g items else return e
      | _ => return e

/-! ## Operators after their first operand -/

/-- What an operator makes of the expression before it. The operator is of a level, and what it
makes cannot be followed by another operator of the level returned. -/
structure Step where
  level : Nat
  apply : Expr → Read (Expr × Option Nat)

/-- A comparison with some or all elements of an array, after the quantifier. -/
def quantified (l : Expr) (op quantifier : Text) (isTruth : Bool) : Read (Expr × Option Nat) := do
  let r ← g.expr (Level.concat + 1) false
  if !isTruth then objectNext (.notBoolean op quantifier)
  return (wordsText l (op ++ [0x20] ++ quantifier) r, none)

/-- The rest of an operation after its operator. -/
def operatorStep (op : Operator) (bare : Bool) : Step :=
  ⟨op.level, fun l => do
    advance
    if op.isNameable && !bare then
      match ← quantifier? with
      | some q => return ← quantified g l op.text q (op.kind = .truth)
      | none => pure ()
    if op.kind = .unary then misfit
    let r ← g.expr (op.level + 1) bare
    return (op.apply l r, if op.chains then none else some op.level)⟩

/-- The rest of an operation whose operator is named. -/
def namedStep : Step :=
  ⟨Level.explicit, fun l => do
    let op ← namedOperator
    match ← quantifier? with
    | some q => quantified g l op.text q (op.kind = .truth)
    | none =>
      let r ← g.expr Level.explicit false
      if op.kind = .unary then objectNext (.notBinary op.text)
      return (op.between op.explicitText l r, none)⟩

/-- What an expression is compared with by `IN`. -/
def inOperand : Read Text := do
  let ofRow : Read Text := inParens do
    if ← atSign ")" then return Expr.tupleText []
    let first ← exprText g
    if !(← acceptSign ",") then return Expr.tupleText [first]
    return Expr.tupleText (first :: (← exprsTo g ")"))
  if ← atSelection then
    either (do return Expr.parens (← parenSelect g).text) ofRow
  else ofRow

/-- How two texts are matched. -/
structure Matching where
  ws : Text
  /-- The function that matches with an escape character. -/
  escaping : Text
  /-- Whether a quantifier may follow. -/
  quantifies : Bool := true

/-- A match with a pattern, which may have an escape character. -/
def matched (l : Expr) (m : Matching) : Read (Expr × Option Nat) := do
  if m.quantifies then
    match ← quantifier? with
    | some q => return ← quantified g l m.ws q true
    | none => pure ()
  let r ← g.expr (Level.matching + 1) false
  if ← acceptWord "escape" then
    let c ← g.expr (Level.escape + 1) false
    return (.leaf .plain (callText m.escaping [l.text, r.text, c.text]), none)
  return (wordsText l m.ws r, some Level.matching)

/-- The bounds that an expression is compared with by `BETWEEN`. -/
def bounds (l : Expr) (ws : Text) : Read (Expr × Option Nat) := do
  let symmetric ← acceptWord "symmetric"
  if !symmetric then discard (acceptWord "asymmetric")
  let low ← g.expr 0 true
  word "and"
  let high ← g.expr (Level.matching + 1) false
  let how : Text := if symmetric then " SYMMETRIC" else []
  return (operator (l.operand ++ [0x20] ++ ws ++ how ++ [0x20] ++ low.operand ++ (" AND " : Text) ++
    high.operand), some Level.matching)

/-- What follows `IS`. -/
def isWhat (l : Expr) (bare : Bool) : Read (Expr × Option Nat) := do
  let negated ← acceptWord "not"
  let after := fun (yes no : Text) =>
    (operator (l.operand ++ [0x20] ++ if negated then no else yes), (none : Option Nat))
  if ← acceptWord "distinct" then
    word "from"
    let r ← g.expr (Level.is + 1) bare
    let truth := r == .leaf .constant "true" || r == .leaf .constant "false"
    let ws : Text :=
      if truth then if negated then "IS" else "IS NOT"
      else if negated then "IS NOT DISTINCT FROM" else "IS DISTINCT FROM"
    return (wordsText l ws r, some Level.is)
  if ← acceptWord "of" then
    let types ← inParens (listOf typeName)
    let ws : Text := if negated then " IS NOT OF " else " IS OF "
    return (operator (l.operand ++ ws ++ Expr.parens (commaList types)), none)
  if bare then misfit
  match ← oneOf ["null", "unknown", "true", "false", "nan"] with
  | "true" => return after "IS true" "IS NOT true"
  | "false" => return after "IS false" "IS NOT false"
  | "nan" => return after "= 'NaN'" "!= 'NaN'"
  | "unknown" => return after "IS NOT DISTINCT FROM NULL" "IS DISTINCT FROM NULL"
  | _ => return after "IS NULL" "IS NOT NULL"

/-- The name of a collation. Hyphens in it are written as underscores. -/
def collation : Read Text := do
  return (← anyName).map fun b => if b = 0x2d then 0x5f else b

/-- An operator that is negated by a word before its own, which is one of a few. -/
def negatedStep? (next : Option String) : Option Step :=
  let after := fun (skipped : List String) (apply : Expr → Read (Expr × Option Nat)) =>
    some (⟨Level.matching, fun l => do
      words skipped
      apply l⟩ : Step)
  match next with
  | some "in" => after ["not", "in"] fun l => do
    return (operator (l.operand ++ (" NOT IN " : Text) ++ (← inOperand g)), none)
  | some "between" => after ["not", "between"] fun l => bounds g l "NOT BETWEEN"
  | some "like" => after ["not", "like"] fun l => matched g l ⟨"NOT LIKE", "not_like_escape", true⟩
  | some "ilike" =>
    after ["not", "ilike"] fun l => matched g l ⟨"NOT ILIKE", "not_ilike_escape", true⟩
  | some "similar" => after ["not", "similar", "to"] fun l =>
    matched g l ⟨"NOT SIMILAR TO", "not_similar_to_escape", false⟩
  | _ => none

/-- The operators that are words and make conditions, or change a value as a condition does. -/
def wordStep? (w : String) (next : Option String) : Option Step :=
  let after := fun (level : Nat) (apply : Expr → Read (Expr × Option Nat)) =>
    some (⟨level, fun l => do
      advance
      apply l⟩ : Step)
  match w with
  | "collate" => after Level.collate fun l => do
    return (.leaf .plain (l.operand ++ (" COLLATE " : Text) ++ (← collation)), none)
  | "at" => after Level.zone fun l => do
    words ["time", "zone"]
    let r ← g.expr (Level.zone + 1) false
    return (.leaf .plain (callText "timezone" [r.text, l.text]), none)
  | "and" => after Level.and fun l => do
    return (.and l (← g.expr (Level.and + 1) false), none)
  | "or" => after Level.or fun l => do
    return (.or l (← g.expr (Level.or + 1) false), none)
  | "isnull" => after Level.is fun l =>
    return (operator (l.operand ++ (" IS NULL" : Text)), none)
  | "notnull" => after Level.is fun l =>
    return (operator (l.operand ++ (" IS NOT NULL" : Text)), none)
  | "in" => after Level.matching fun l => do
    return (operator (l.operand ++ (" IN " : Text) ++ (← inOperand g)), none)
  | "between" => after Level.matching fun l => bounds g l "BETWEEN"
  | "like" => after Level.matching fun l => matched g l ⟨"LIKE", "like_escape", true⟩
  | "ilike" => after Level.matching fun l => matched g l ⟨"ILIKE", "ilike_escape", true⟩
  | "similar" => after Level.matching fun l => do
    word "to"
    matched g l ⟨"SIMILAR TO", "similar_to_escape", false⟩
  | "not" => negatedStep? g next
  | "operator" => some (namedStep g)
  | _ => none

/-- The operator that comes next, if one does. -/
def step? (bare : Bool) : Read (Option Step) := do
  match ← kindAt 0 with
  | some (.sign "::") => return some ⟨Level.cast, fun l => do
    advance
    return (.leaf .cast (l.operand ++ ("::" : Text) ++ (← typeName)), none)⟩
  | some (.sign ":::") => return some ⟨Level.annotate, fun l => do
    advance
    return (.leaf .plain (l.operand ++ (":::" : Text) ++ (← typeName)), none)⟩
  | some (.sign s) =>
    match Operator.ofSign? s with
    | some op => return if bare && !op.isBare then none else some (operatorStep g op bare)
    | none => return none
  | some (.word "is") => return some ⟨Level.is, fun l => do
    advance
    isWhat g l bare⟩
  | some (.word w) =>
    let next ← wordAt 1
    return if bare then none else wordStep? g w next
  | _ => return none

/-- Applies the operators of a level at least that follow an expression, until an expression may
end. After an operator of the level `last` none of the same level may follow. -/
def climb (ends : Read Bool) (least : Nat) (bare : Bool) : Nat → Option Nat → Expr → Read Expr
  | 0, _, e => return e
  | n + 1, last, e => do
    if ← ends then return e
    match ← step? g bare with
    | none => return e
    | some op =>
      if op.level < least then return e
      if last == some op.level then misfit
      let (e, last) ← op.apply e
      climb ends least bare n last e

/-- An expression of operators of a level at least. -/
def exprOf (least : Nat) (bare : Bool) : Read Expr := do
  let e ← signed g bare
  climb g (return false) least bare ((← get).rest.length + 1) none e

/-- The words that may follow the name of a result column. -/
def afterLabel : List String :=
  ["from", "where", "group", "having", "window", "union", "intersect", "except", "order", "limit",
    "offset", "fetch", "for", "returning", "on"]

/-- Whether a word that might be an operator names a result column instead: nothing follows it that
could be its operand. Any word is the name of a collation. -/
def atLabel : Read Bool := do
  match ← wordAt 0 with
  | some w =>
    if labelWords.elem w then return false
    match ← kindAt 1 with
    | none => return true
    | some (.sign s) => return [",", ")", "]"].elem s
    | some (.word v) => return w ≠ "collate" && afterLabel.elem v
    | _ => return false
  | none => return false

/-- The expression of a result column. -/
def resultExpr : Read Expr := do
  let e ← signed g false
  climb g atLabel 0 false ((← get).rest.length + 1) none e

end Read

end Galley.Sql
