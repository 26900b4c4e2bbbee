import Galley.Comment.Scan
import Galley.Options
import Galley.Sql.Tree

/-!
The layout of SQL statements: each clause is a list that breaks on its own, inside a group that
puts every clause on its own line when the selection does not fit.
-/

namespace Galley.Sql

open Layout (Call Columns)

variable {ι : Type} [Columns ι]

/-! ## Conditions -/

/-- The operator of a chain of conditions. -/
inductive Junction where
  | and
  | or
  deriving DecidableEq, Repr

/-- The keyword of a junction. -/
def Junction.keyword : Junction → Text
  | .and => "AND"
  | .or => "OR"

/-- The terms of a chain of one operator, left to right. -/
def Expr.flatten (j : Junction) : Expr → List Expr
  | .and l r => if j = .and then l.flatten j ++ r.flatten j else [.and l r]
  | .or l r => if j = .or then l.flatten j ++ r.flatten j else [.or l r]
  | .tuple items => [.tuple items]
  | .leaf s t => [.leaf s t]

/-- The operator at which a condition is broken up, and its terms: that of a chain of `AND`, or
else of `OR`. -/
def Expr.terms (e : Expr) : Junction × List Expr :=
  let ands := e.flatten .and
  if ands.length = 1 then (.or, e.flatten .or) else (.and, ands)

/-! ## Clauses -/

/-- Asks for a keyword. -/
def keywordCall (o : Options ι) (s : Text) : Call ι := .text (o.keyword s)

/-- Elements with commas and breaks between them. -/
def separated : List (List (Call ι)) → List (Call ι)
  | [] => []
  | [item] => item
  | item :: rest => item ++ [.text [0x2c], .space] ++ separated rest

/-- A keyword followed by a list, which is indented by one level when it breaks. -/
def listCalls (o : Options ι) (keyword : Text) (items : List (List (Call ι))) : List (Call ι) :=
  [.groupStart o.listBreaks o.config.withDefaults.unit, keywordCall o keyword, .space] ++
    separated items ++ [.groupEnd]

/-- A list of texts. -/
def textListCalls (o : Options ι) (keyword : Text) (items : List Text) : List (Call ι) :=
  listCalls o keyword (items.map fun t => [.text t])

/-- The terms of a condition, each but the first on its own line after the operator when they do
not fit. -/
def conditionCalls (o : Options ι) (keyword : Text) (e : Expr) : List (Call ι) :=
  let (j, terms) := e.terms
  let rest := (terms.drop 1).flatMap fun t =>
    [.space, keywordCall o j.keyword, .nbsp, .text t.text]
  [.consistentBox o.config.withDefaults.unit, keywordCall o keyword, .nbsp] ++
    (terms.take 1).map (fun t => .text t.text) ++ rest ++ [.groupEnd]

/-- Which rows are kept. -/
def limitCalls (o : Options ι) (l : Limit) : List (Call ι) :=
  (match l.count with
    | some .all => [.space, keywordCall o "LIMIT", .nbsp, keywordCall o "ALL"]
    | some (.rows t) => [.space, keywordCall o "LIMIT", .nbsp, .text t]
    | none => []) ++
  match l.offset with
  | some t => [.space, keywordCall o "OFFSET", .nbsp, .text t]
  | none => []

/-- A clause after a break, if there is one. -/
def clauseCalls {α : Type} (calls : α → List (Call ι)) : Option α → List (Call ι)
  | some a => .space :: calls a
  | none => []

/-- A list, if it is not empty. -/
def nonEmpty {α : Type} (l : List α) : Option (List α) := if l.isEmpty then none else some l

/-- A selection in parentheses, given its own calls. -/
def parensCalls (o : Options ι) (inner : List (Call ι)) : List (Call ι) :=
  [.consistentBox 0, .text [0x28], .indent o.config.withDefaults.unit, .softBreak] ++ inner ++
    [.outdent, .softBreak, .text [0x29], .groupEnd]

mutual

/-- A selection. One that locks rows is not broken up. -/
def Select.calls (o : Options ι) : Select → List (Call ι)
  | .mk ctes body orderBy limit locking =>
    if locking.isEmpty then
      [.consistentBox 0] ++
        (match ctes with
          | some t => [.text t, .space]
          | none => []) ++
        body.calls o ++ clauseCalls (textListCalls o "ORDER BY") (nonEmpty orderBy) ++
        (match limit with
          | some l => limitCalls o l
          | none => []) ++ [.groupEnd]
    else [.text (Select.mk ctes body orderBy limit locking).text]

/-- The body of a selection. -/
def Body.calls (o : Options ι) : Body → List (Call ι)
  | .clause distinct columns tables condition groupBy having =>
    textListCalls o (if distinct then "SELECT DISTINCT" else "SELECT") columns ++
      (match tables with
        | [] => []
        | t :: rest => .space :: listCalls o "FROM" (t.calls o :: Table.listCalls o rest)) ++
      clauseCalls (conditionCalls o "WHERE") condition ++
      clauseCalls (textListCalls o "GROUP BY") (nonEmpty groupBy) ++
      clauseCalls (conditionCalls o "HAVING") having
  | .parens s => parensCalls o (s.calls o)
  | .combined op all left right =>
    left.calls o ++
      [.space, keywordCall o (op.keyword ++ if all then (" ALL" : Text) else []), .space] ++ right.calls o
  | .verbatim t => [.text t]

/-- A table. -/
def Table.calls (o : Options ι) : Table → List (Call ι)
  | .selection s asName =>
    parensCalls o (s.calls o) ++
      match asName with
      | some t => [.nbsp, keywordCall o "AS", .nbsp, .text t]
      | none => []
  | .verbatim t => [.text t]

/-- Tables, each on its own. -/
def Table.listCalls (o : Options ι) : List Table → List (List (Call ι))
  | [] => []
  | t :: rest => t.calls o :: Table.listCalls o rest

end

/-- A statement. -/
def Statement.calls (o : Options ι) : Statement → List (Call ι)
  | .select s => s.calls o
  | .parens s => parensCalls o (s.calls o)
  | .verbatim t => [.text t]

end Galley.Sql
