import Galley.Sql.Tree

/-!
The operators of SQL and how tightly they bind.
-/

namespace Galley.Sql

namespace Level

/-- The level of `OR`. -/
def or : Nat := 1

/-- The level of `AND`. -/
def and : Nat := 2

/-- The level of `NOT`. -/
def not : Nat := 3

/-- The level of `IS`. -/
def is : Nat := 4

/-- The level of comparisons. -/
def compare : Nat := 5

/-- The level of `IN`, `LIKE`, `BETWEEN` and matches. -/
def matching : Nat := 6

/-- The level of `ESCAPE`. -/
def escape : Nat := 7

/-- The level of tests for parts. -/
def contain : Nat := 8

/-- The level of joining texts and taking parts. -/
def concat : Nat := 12

/-- The level of `|`. -/
def bitOr : Nat := 13

/-- The level of `#`. -/
def bitXor : Nat := 14

/-- The level of `&`. -/
def bitAnd : Nat := 15

/-- The level of shifts and roots. -/
def shift : Nat := 16

/-- The level of operators that are named by `OPERATOR`. -/
def explicit : Nat := 17

/-- The level of sums. -/
def sum : Nat := 18

/-- The level of products. -/
def product : Nat := 19

/-- The level of powers. -/
def power : Nat := 20

/-- The level of `AT TIME ZONE`. -/
def zone : Nat := 21

/-- The level of `COLLATE`. -/
def collate : Nat := 22

/-- The level of signs before a value. -/
def sign : Nat := 23

/-- The level of `:::`. -/
def annotate : Nat := 26

/-- The level of `::`. -/
def cast : Nat := 27

end Level

/-- What an operator makes of its operands. -/
inductive OpKind where
  | value
  | truth
  /-- A call of a function. -/
  | function (name : Text)
  /-- The operator stands before its operand. Between two it only stands with a quantifier. -/
  | unary
  /-- The operator stands before its operand, or between two that it compares. -/
  | either
  deriving DecidableEq, Repr

/-- An operator. -/
structure Operator where
  level : Nat
  /-- The operator as it is written. -/
  text : Text
  kind : OpKind := .value
  /-- Whether operators of its level can be chained. -/
  chains : Bool := true
  /-- Whether it stands in expressions without conditions. -/
  isBare : Bool := false
  /-- Whether spaces stand around it. -/
  spaced : Bool := true

/-- A comparison. -/
def Operator.comparison (text : Text) : Operator :=
  { level := Level.compare, text, kind := .truth, chains := false, isBare := true }

/-- A match of texts. -/
def Operator.matching (text : Text) : Operator :=
  { level := Level.matching, text, kind := .truth, chains := false }

/-- A test for parts. -/
def Operator.containment (text : Text) : Operator :=
  { level := Level.contain, text, kind := .truth, chains := false }

/-- The taking of a part. -/
def Operator.part (text : Text) : Operator := { level := Level.concat, text, spaced := false }

/-- Arithmetic. -/
def Operator.arithmetic (level : Nat) (text : Text) : Operator := { level, text, isBare := true }

/-- The signs that are operators. -/
def Operator.ofSign? : String → Option Operator
  | "<" => some (.comparison "<")
  | ">" => some (.comparison ">")
  | "=" => some (.comparison "=")
  | "<=" => some (.comparison "<=")
  | ">=" => some (.comparison ">=")
  | "<>" => some (.comparison "!=")
  | "!=" => some (.comparison "!=")
  | "~" => some { Operator.matching "~" with kind := .either }
  | "!~" => some (.matching "!~")
  | "~*" => some (.matching "~*")
  | "!~*" => some (.matching "!~*")
  | "@>" => some (.containment "@>")
  | "<@" => some (.containment "<@")
  | "?" => some (.containment "?")
  | "?|" => some (.containment "?|")
  | "?&" => some (.containment "?&")
  | "@@" => some { level := Level.concat, text := "@@", kind := .truth }
  | "||" => some (.arithmetic Level.concat "||")
  | "->" => some (.part "->")
  | "->>" => some (.part "->>")
  | "#>" => some (.part "#>")
  | "#>>" => some (.part "#>>")
  | "#-" => some { level := Level.concat, text := "#-", kind := .function "json_remove_path" }
  | "|" => some (.arithmetic Level.bitOr "|")
  | "#" => some (.arithmetic Level.bitXor "#")
  | "&" => some (.arithmetic Level.bitAnd "&")
  | "<<" => some (.arithmetic Level.shift "<<")
  | ">>" => some (.arithmetic Level.shift ">>")
  | "<<=" =>
    some { level := Level.shift, text := "<<=", kind := .function "inet_contained_by_or_equals" }
  | ">>=" =>
    some { level := Level.shift, text := ">>=", kind := .function "inet_contains_or_equals" }
  | "&&" => some { level := Level.shift, text := "&&", kind := .truth }
  | "|/" => some { level := Level.shift, text := "|/", kind := .unary }
  | "||/" => some { level := Level.shift, text := "||/", kind := .unary }
  | "+" => some (.arithmetic Level.sum "+")
  | "-" => some (.arithmetic Level.sum "-")
  | "*" => some (.arithmetic Level.product "*")
  | "/" => some (.arithmetic Level.product "/")
  | "//" => some (.arithmetic Level.product "//")
  | "%" => some (.arithmetic Level.product "%")
  | "^" => some (.arithmetic Level.power "^")
  | _ => none

/-- Whether an operator can be named by `OPERATOR`, and have a quantifier after it. -/
def Operator.isNameable (op : Operator) : Bool :=
  match op.kind with
  | .function _ => false
  | _ => true

/-- An operator as it is written when it is named by `OPERATOR`. -/
def Operator.explicitText (op : Operator) : Text :=
  ("OPERATOR(" : Text) ++ op.text ++ (")" : Text)

/-- Two operands with an operator between them, which is written in some way. -/
def Operator.between (op : Operator) (text : Text) (l r : Expr) : Expr :=
  let gap : Text := if op.spaced then [0x20] else []
  .leaf .operator (l.operand ++ gap ++ text ++ gap ++ r.operand)

/-- What an operator makes of two operands. -/
def Operator.apply (op : Operator) (l r : Expr) : Expr :=
  match op.kind with
  | .function name => .leaf .plain (name ++ Expr.parens (Expr.listText [l, r]))
  | _ => op.between op.text l r

/-- A sign before an operand. Before a constant a minus sign needs parentheses. -/
def Expr.signed (sign : Text) (isMinus : Bool) : Expr → Expr
  | .leaf .constant t => .leaf .operator (sign ++ parensIf isMinus t)
  | .leaf .number t => .leaf .operator (sign ++ parensIf isMinus t)
  | e => .leaf .operator (sign ++ e.operand)

/-- A number with its sign turned, or an operand after a minus sign. -/
def Expr.negate : Expr → Expr
  | .leaf .number t => .leaf .number (if t.head? = some 0x2d then t.drop 1 else 0x2d :: t)
  | e => e.signed [0x2d] true

end Galley.Sql
