import Galley.Comment.Scan
import Galley.Failure
import Galley.Sql.Layout
import Galley.Sql.Reader.Statement

/-!
SQL sources: statements with comments between them. Comments before a statement are written on
lines of their own above it, and one on the line on which it ends after it.
-/

namespace Galley.Sql

open Layout (Call Columns)

variable {ι : Type} [Columns ι]

/-- What starts a comment. -/
def marker : Text := "--"

/-- A source in pieces. -/
inductive Piece where
  /-- Comments and blank lines before a statement. -/
  | comments (items : List Comment)
  | statement (s : Statement)
  /-- The comment on the line on which a statement ends. -/
  | trailing (c : Comment)

/-- How statements are told apart and read. -/
structure Dialect (ε : Type) where
  /-- The number of bytes up to the end of the first statement. -/
  split : Text → Option Nat
  /-- The statements of such a part of a source. -/
  parse : Text → Except ε (List Statement)

/-- SQL. -/
def dialect : Dialect Problem := ⟨Token.split, Statement.parse⟩

/-- A part of a source that cannot be read, and why. -/
structure Misread (ε : Type) where
  part : Text
  cause : ε

namespace Dialect

variable {ε : Type}

/-- The first statement of a text, and what follows it. What is not divided is one statement. -/
def cut (d : Dialect ε) (t : Text) : Text × Text :=
  match d.split t with
  | some n => if 0 < n then (t.take n, t.drop n) else (t, [])
  | none => (t, [])

/-- The pieces of a source up to what cannot be read. Each turn takes some of the source away, so
that `n` turns are enough for fewer than `n` bytes. -/
def pieces (d : Dialect ε) : Nat → Text → List Piece × Option (Misread ε)
  | 0, _ => ([], none)
  | n + 1, src =>
    let (items, src) := Comment.scan marker src
    if Text.isBlank src then ([.comments items], none)
    else
      let (part, rest) := d.cut src
      match d.parse part with
      | .error e => ([.comments items], some ⟨part, e⟩)
      | .ok statements =>
        let (c, rest) := Comment.splitTrailing marker rest
        let (more, problem) := d.pieces n rest
        (.comments items :: statements.map .statement ++ c.toList.map .trailing ++ more, problem)

/-- The pieces of sources up to what cannot be read. -/
def allPieces (d : Dialect ε) : List Text → List Piece × Option (Misread ε)
  | [] => ([], none)
  | src :: rest =>
    match d.pieces (src.length + 1) src with
    | (before, some m) => (before, some m)
    | (before, none) =>
      let (more, problem) := d.allPieces rest
      (before ++ more, problem)

end Dialect

/-- What is known while pieces are written: the comments that wait for a statement, and whether
anything was written on a line of its own. -/
structure Progress where
  pending : List Comment := []
  started : Bool := false

/-- Moves to the line of the next statement and writes the comments that wait for it. A blank line
is between statements. -/
def startLine (o : Options ι) (p : Progress) : List (Call ι) :=
  if p.started then .hardBreak :: o.comments.calls (.blankLine :: p.pending)
  else o.comments.calls (p.pending.dropWhile (·.blank))

/-- Writes a piece. -/
def Piece.calls (o : Options ι) (p : Progress) : Piece → List (Call ι) × Progress
  | .comments items => ([], { p with pending := p.pending ++ items })
  | .statement s => (startLine o p ++ s.calls o ++ [.text [0x3b]], ⟨[], true⟩)
  | .trailing c => ([.nbsp, .text c.toText], p)

/-- Writes pieces. -/
def piecesCalls (o : Options ι) : Progress → List Piece → List (Call ι) × Progress
  | p, [] => ([], p)
  | p, piece :: rest =>
    let (calls, p) := piece.calls o p
    let (more, p) := piecesCalls o p rest
    (calls ++ more, p)

/-- Writes the comments that are left at the end. -/
def flush (o : Options ι) (p : Progress) : List (Call ι) :=
  let left := Comment.trimBlank p.pending
  if left.isEmpty then [] else startLine o { p with pending := left }

/-- The start of a text on one line. -/
def abbreviated (t : Text) : Text :=
  let line := Text.join [0x20] (Text.words t)
  if 40 < line.length then line.take 40 ++ ("..." : Text) else line

/-- The statements of sources, laid out, in a dialect whose problems are worded by `message`. -/
def Dialect.format {ε : Type} (d : Dialect ε) (message : ε → Text) (o : Options ι)
    (srcs : List Text) : Except Failure Text :=
  let (pieces, problem) := d.allPieces srcs
  let (calls, progress) := piecesCalls o {} pieces
  let written := do
    let p ← Layout.Printer.ofConfig o.config
    p.run calls
  match written, problem with
  | .error f, _ => .error (.layout f)
  | .ok _, some m =>
    .error (.source (("parse " : Text) ++ (abbreviated m.part).quoted ++ (": " : Text) ++
      message m.cause))
  | .ok p, none =>
    match (do (← p.run (flush o progress)).finish) with
    | .ok p => .ok p.output.trimRight
    | .error f => .error (.layout f)

/-- The statements of sources, laid out. -/
def format (o : Options ι) (srcs : List Text) : Except Failure Text :=
  dialect.format Problem.message o srcs

end Galley.Sql
