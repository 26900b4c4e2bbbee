import Galley.Layout.Printer

/-!
Documents: a declarative way to build what a printer is asked to do.
-/

namespace Galley.Layout

/-- A layout document. -/
inductive Doc (ι : Type) where
  | nil
  | text (s : Text)
  /-- A break that is a space when its group fits. -/
  | line
  /-- A break that is nothing when its group fits. -/
  | softBreak
  /-- A break that is always taken, and breaks every enclosing group. -/
  | hardLine
  /-- A comma where its group breaks, and nothing else. -/
  | trailingComma
  /-- Indents the breaks of a document by some columns, or by some levels. -/
  | nest (amount : ι) (levels : Bool) (d : Doc ι)
  | group (breaks : Breaks) (align : Bool) (d : Doc ι)
  | concat (a b : Doc ι)
  /-- A document of a kind that has no layout. -/
  | foreign (kind : Text)
  deriving DecidableEq, Repr

instance {ι : Type} : Inhabited (Doc ι) := ⟨.nil⟩

namespace Doc

variable {ι : Type} [Columns ι]

/-- A document after another. Nothing is no document at all. -/
def append : Doc ι → Doc ι → Doc ι
  | .nil, b => b
  | a, .nil => a
  | a, b => .concat a b

/-- Indents by some columns. -/
def nestBy (n : ι) (d : Doc ι) : Doc ι := .nest n false d

/-- Indents by one level. -/
def nestLevel (d : Doc ι) : Doc ι := .nest 1 true d

/-- Flat if it fits, and otherwise broken at all of its own lines. -/
def grouped (d : Doc ι) : Doc ι := .group .consistent false d

/-- Flat if it fits, and otherwise broken only where a line would overflow. -/
def filled (d : Doc ι) : Doc ι := .group .inconsistent false d

/-- Like `grouped`, with broken lines aligned to the starting column. -/
def aligned (d : Doc ι) : Doc ι := .group .consistent true d

/-- A document after another, with a line between. -/
def appendLine (a b : Doc ι) : Doc ι := a.append (append .line b)

/-- Documents folded from the right; a single one is left alone. -/
def fold (f : Doc ι → Doc ι → Doc ι) : List (Doc ι) → Doc ι
  | [] => .nil
  | [d] => d
  | d :: ds => f d (fold f ds)

/-- Documents with a separator after all but the last, and lines between. -/
def join (sep : Text) : List (Doc ι) → Doc ι
  | [] => .nil
  | [d] => d
  | d :: ds => (d.append (.text sep)).appendLine (join sep ds)

/-- A document between brackets, indented on its own lines when the whole does not fit. -/
def bracket (left : Text) (d : Doc ι) (right : Text) : Doc ι :=
  grouped (fold append [.text left, nestLevel (append .softBreak d), .softBreak, .text right])

/-- A document after another, or indented under it when the whole does not fit. -/
def nestUnder (a b : Doc ι) : Doc ι := grouped (a.append (nestLevel (append .line b)))

/-- Asks a printer to lay out a document. -/
def emit (p : Printer ι) : Doc ι → Except Fault (Printer ι)
  | .nil => .ok p
  | .text s => p.call (.text s)
  | .line => p.call .space
  | .softBreak => p.call .softBreak
  | .hardLine => p.call .hardBreak
  | .trailingComma => p.call .trailingComma
  | .nest amount levels d => do
    let p ← p.call (.indent (if levels then amount * p.unit else amount))
    (← emit p d).call .outdent
  | .group breaks align d => do
    let p ← p.call (if align then .alignStart breaks else .groupStart breaks 0)
    (← emit p d).call .groupEnd
  | .concat a b => do emit (← emit p a) b
  | .foreign kind => .error (.unknownDoc kind)

/-- The text of a document. -/
def render (c : Config ι) (d : Doc ι) : Except Fault Text := do
  let p ← Printer.ofConfig c
  let p ← d.emit p
  return (← p.finish).output

end Doc

end Galley.Layout
