import Galley.Comment.Basic

/-!
The comments before and after the parts of a source. What is taken from the table is forgotten, so
that it is written once even if its part is visited again.
-/

namespace Galley.Comment

/-- A part of a source. -/
structure Span where
  first : Int
  last : Int
  deriving DecidableEq, Repr

/-- Comments by the part they belong to. -/
abbrev Shelf := List (Span × List Comment)

namespace Shelf

/-- The comments of a part. -/
def get (shelf : Shelf) (s : Span) : List Comment := (shelf.lookup s).getD []

/-- Adds comments to a part. A part counts as soon as something is added, be it nothing. -/
def add : Shelf → Span → List Comment → Shelf
  | [], s, items => [(s, items)]
  | (t, old) :: rest, s, items =>
    if t = s then (t, old ++ items) :: rest else (t, old) :: add rest s items

/-- Forgets a part. -/
def erase (shelf : Shelf) (s : Span) : Shelf := shelf.filter fun entry => entry.1 ≠ s

end Shelf

/-- The comments before and after the parts of a source. -/
structure Table where
  leading : Shelf
  trailing : Shelf

namespace Table

/-- No comments at all. -/
def empty : Table := ⟨[], []⟩

/-- Adds comments before a part. -/
def addLeading (t : Table) (s : Span) (items : List Comment) : Table :=
  { t with leading := t.leading.add s items }

/-- Adds comments after a part. -/
def addTrailing (t : Table) (s : Span) (items : List Comment) : Table :=
  { t with trailing := t.trailing.add s items }

/-- The comments before a part, and the table without them. -/
def takeLeading (t : Table) (s : Span) : List Comment × Table :=
  (t.leading.get s, { t with leading := t.leading.erase s })

/-- The comments after a part, and the table without them. -/
def takeTrailing (t : Table) (s : Span) : List Comment × Table :=
  (t.trailing.get s, { t with trailing := t.trailing.erase s })

/-- The number of parts that still have an entry, before and after counted apart. -/
def size (t : Table) : Nat := t.leading.length + t.trailing.length

end Table

end Galley.Comment
