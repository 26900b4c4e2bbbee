import Galley.Sql.Spelling

/-!
SQL statements as the layout sees them: the clauses of a selection and the chains of conditions in
it are apart, and everything inside them is text. The text of a whole statement is on one line.
-/

namespace Galley.Sql

/-! ## Expressions -/

/-- What matters about the text of an expression where it is part of another. -/
inductive Shape where
  /-- Nothing. -/
  | plain
  /-- It is a number: a minus sign before it belongs to it. -/
  | number
  /-- It is another constant. -/
  | constant
  /-- It ends in a type. -/
  | cast
  /-- It is made with an operator: as an operand it stands in parentheses. -/
  | operator
  deriving DecidableEq, Repr

/-- An expression. -/
inductive Expr where
  | and (left right : Expr)
  | or (left right : Expr)
  /-- A row of values. -/
  | tuple (items : List Text)
  | leaf (shape : Shape) (text : Text)
  deriving DecidableEq, Repr

namespace Expr

/-- Whether an expression is made with an operator. -/
def isOperator : Expr → Bool
  | .leaf .operator _ => true
  | .leaf _ _ => false
  | .tuple _ => false
  | _ => true

/-- A text in parentheses. -/
def parens (t : Text) : Text := [0x28] ++ t ++ [0x29]

/-- A text in parentheses if it needs them. -/
def parensIf (needed : Bool) (t : Text) : Text := if needed then parens t else t

/-- The text of a row of values. A row of one keeps its comma. -/
def tupleText (items : List Text) : Text :=
  parens (commaList items ++ if items.length = 1 then [0x2c] else [])

/-- The text of an expression. -/
def text : Expr → Text
  | .leaf _ t => t
  | .tuple items => tupleText items
  | .and l r =>
    parensIf l.isOperator l.text ++ (" AND " : Text) ++ parensIf r.isOperator r.text
  | .or l r =>
    parensIf l.isOperator l.text ++ (" OR " : Text) ++ parensIf r.isOperator r.text

/-- The text of an expression as an operand. -/
def operand (e : Expr) : Text := parensIf e.isOperator e.text

/-- The texts of expressions with commas between them. -/
def listText (es : List Expr) : Text := commaList (es.map text)

end Expr

/-! ## Selections -/

/-- How two selections are combined. -/
inductive SetOperation where
  | union
  | intersect
  | except
  deriving DecidableEq, Repr

/-- The keyword of a set operation. -/
def SetOperation.keyword : SetOperation → Text
  | .union => "UNION"
  | .intersect => "INTERSECT"
  | .except => "EXCEPT"

/-- How many rows are kept. -/
inductive Count where
  | all
  | rows (text : Text)
  deriving DecidableEq, Repr

/-- Which of the rows are kept. -/
structure Limit where
  count : Option Count
  offset : Option Text
  deriving DecidableEq, Repr

mutual

/-- A selection with what stands around its body. -/
inductive Select where
  | mk (ctes : Option Text) (body : Body) (orderBy : List Text) (limit : Option Limit)
    (locking : Text)

/-- The body of a selection. -/
inductive Body where
  | clause (distinct : Bool) (columns : List Text) (tables : List Table)
    (condition : Option Expr) (groupBy : List Text) (having : Option Expr)
  | parens (s : Select)
  | combined (op : SetOperation) (all : Bool) (left right : Select)
  /-- A body that is never broken up. -/
  | verbatim (text : Text)

/-- A table that is selected from. -/
inductive Table where
  | selection (s : Select) (asName : Option Text)
  /-- A table that is never broken up. -/
  | verbatim (text : Text)

end

/-- A statement. -/
inductive Statement where
  | select (s : Select)
  | parens (s : Select)
  /-- A statement that is never broken up. -/
  | verbatim (text : Text)

/-- A clause of a statement: a keyword and what it governs, after a space, if there is any. -/
def optionalText (keyword : Text) (t : Option Text) : Text :=
  match t with
  | some t => [0x20] ++ keyword ++ [0x20] ++ t
  | none => []

/-- A clause that holds a list, if it is not empty. -/
def optionalList (keyword : Text) (ts : List Text) : Text :=
  optionalText keyword (if ts.isEmpty then none else some (commaList ts))

/-- The text of a limit. -/
def Limit.text (l : Limit) : Text :=
  let count := l.count.map fun c =>
    match c with
    | .all => Text.ofString "ALL"
    | .rows t => t
  (optionalText "LIMIT" count ++ optionalText "OFFSET" l.offset).drop 1

mutual

/-- The text of a selection. -/
def Select.text : Select → Text
  | .mk ctes body orderBy limit locking =>
    ctes.getD [] ++ body.text ++ optionalList "ORDER BY" orderBy ++
      (match limit with
        | some l => [0x20] ++ l.text
        | none => []) ++ locking

/-- The text of the body of a selection. -/
def Body.text : Body → Text
  | .clause distinct columns tables condition groupBy having =>
    (if distinct then "SELECT DISTINCT " else "SELECT " : Text) ++ commaList columns ++
      (match tables with
        | [] => []
        | t :: rest => (" FROM " : Text) ++ t.text ++ Table.listTextAfter rest) ++
      optionalText "WHERE" (condition.map Expr.text) ++ optionalList "GROUP BY" groupBy ++
      optionalText "HAVING" (having.map Expr.text)
  | .parens s => Expr.parens s.text
  | .combined op all left right =>
    left.text ++ [0x20] ++ op.keyword ++ (if all then " ALL " else " " : Text) ++ right.text
  | .verbatim t => t

/-- The text of a table. -/
def Table.text : Table → Text
  | .selection s asName => Expr.parens s.text ++ optionalText "AS" asName
  | .verbatim t => t

/-- The texts of tables after others. -/
def Table.listTextAfter : List Table → Text
  | [] => []
  | t :: rest => [0x2c, 0x20] ++ t.text ++ Table.listTextAfter rest

end

/-- The text of a statement. -/
def Statement.text : Statement → Text
  | .select s => s.text
  | .parens s => Expr.parens s.text
  | .verbatim t => t

end Galley.Sql
