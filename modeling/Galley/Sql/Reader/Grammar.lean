import Galley.Sql.Reader.Type

/-!
The parts of the grammar that contain each other, and lists of expressions.
-/

namespace Galley.Sql

/-- The parts of the grammar that contain each other. -/
structure Grammar where
  /-- An expression of operators of a level at least. In a bare one there are only operators that
  make values of their operands, not conditions. -/
  expr : Nat → Bool → Read Expr
  /-- A selection that is not in parentheses. -/
  select : Read Select
  /-- A statement. -/
  statement : Read Statement

namespace Read

variable (g : Grammar)

/-- An expression with an operator. -/
def operator (t : Text) : Expr := .leaf .operator t

/-- Any expression. -/
def anyExpr : Read Expr := g.expr 0 false

/-- The text of any expression. -/
def exprText : Read Text := do return (← anyExpr g).text

/-- The text of any expression without conditions. -/
def bareText : Read Text := do return (← g.expr 0 true).text

/-- The texts of a list of expressions. -/
def exprs : Read (List Text) := listOf (exprText g)

/-- The texts of a list of expressions, with commas. -/
def exprsText : Read Text := do return commaList (← exprs g)

/-- The texts of a list of expressions that may be empty. It ends before a closing sign. -/
def exprsTo (close : String) : Read (List Text) := do
  if ← atSign close then return []
  exprs g

/-- Whether a selection starts after the opening parentheses that come next. -/
def atSelection : Read Bool := do
  let c ← get
  let ahead := c.rest.dropWhile fun t => t.kind == .sign "("
  match ahead with
  | ⟨.word w, _⟩ :: _ => return ["select", "values", "with", "table"].elem w
  | _ => return false

/-- A selection in parentheses. -/
def parenSelect : Read Select := inParens g.select

/-- A call written with the texts of its arguments. -/
def callText (function : Text) (args : List Text) : Text :=
  function ++ Expr.parens (commaList args)

end Read

end Galley.Sql
