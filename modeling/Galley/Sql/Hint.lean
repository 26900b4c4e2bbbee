import Galley.Sql.Objection
import Galley.Sql.Name

/-!
Hints at how a table is to be read. They are collected one by one, and those that exclude each other
are refused.
-/

namespace Galley.Sql

/-- An index, by its name or its number. -/
inductive IndexRef where
  | name (n : Text)
  | number (n : Nat)
  deriving DecidableEq, Repr

/-- The text of an index. -/
def IndexRef.text : IndexRef → Text
  | .name n => labelText n
  | .number n => ("[" : Text) ++ Text.ofNat n ++ ("]" : Text)

/-- Hints at how a table is to be read. -/
structure Hints where
  index : Option IndexRef := none
  direction : Option Text := none
  noIndexJoin : Bool := false
  noZigzagJoin : Bool := false
  noFullScan : Bool := false
  ignoreForeignKeys : Bool := false
  /-- Whether some indexes are to be joined. -/
  zigzag : Bool := false
  /-- The indexes that are to be joined. -/
  zigzagIndexes : List IndexRef := []
  deriving DecidableEq, Repr

namespace Hints

/-- The first objection to joining hints, if there is one. -/
def clash? (a b : Hints) : Option Objection :=
  let twice := fun (x y : Bool) (hint : Text) => if x && y then [Objection.repeated hint] else []
  (twice a.noIndexJoin b.noIndexJoin "NO_INDEX_JOIN" ++
    twice a.noZigzagJoin b.noZigzagJoin "NO_ZIGZAG_JOIN" ++
    twice a.noFullScan b.noFullScan "NO_FULL_SCAN" ++
    twice a.ignoreForeignKeys b.ignoreForeignKeys "IGNORE_FOREIGN_KEYS" ++
    twice a.direction.isSome b.direction.isSome "ASC/DESC" ++
    twice a.zigzag b.zigzag "FORCE_ZIGZAG" ++
    (if a.zigzag && !b.zigzagIndexes.isEmpty then [Objection.mixedZigzag] else []) ++
    twice a.index.isSome b.index.isSome "FORCE_INDEX").head?

/-- Hints joined with others. -/
def join (a b : Hints) : Hints where
  index := b.index.or a.index
  direction := b.direction.or a.direction
  noIndexJoin := a.noIndexJoin || b.noIndexJoin
  noZigzagJoin := a.noZigzagJoin || b.noZigzagJoin
  noFullScan := a.noFullScan || b.noFullScan
  ignoreForeignKeys := a.ignoreForeignKeys || b.ignoreForeignKeys
  zigzag := a.zigzag || b.zigzag
  zigzagIndexes := a.zigzagIndexes ++ b.zigzagIndexes

/-- Whether indexes are to be joined. -/
def joinsIndexes (h : Hints) : Bool := h.zigzag || !h.zigzagIndexes.isEmpty

/-- The first objection to hints as a whole, if there is one. -/
def fault? (h : Hints) : Option Objection :=
  let both := fun (x y : Bool) (hint other : Text) =>
    if x && y then [Objection.conflict hint other] else []
  (both h.noIndexJoin h.index.isSome "FORCE_INDEX" "NO_INDEX_JOIN" ++
    (if h.direction.isSome && h.index.isNone then [Objection.directionAlone] else []) ++
    both h.joinsIndexes h.noIndexJoin "FORCE_ZIGZAG" "NO_INDEX_JOIN" ++
    both h.joinsIndexes h.index.isSome "FORCE_ZIGZAG" "FORCE_INDEX" ++
    both h.joinsIndexes h.noZigzagJoin "FORCE_ZIGZAG" "NO_ZIGZAG_JOIN").head?

/-- The text of hints, in braces unless there is nothing but an index. -/
def text (h : Hints) : Text :=
  let flag := fun (x : Bool) (hint : Text) => if x then [hint] else []
  let others := flag h.noIndexJoin "NO_INDEX_JOIN" ++ flag h.noZigzagJoin "NO_ZIGZAG_JOIN" ++
    flag h.noFullScan "NO_FULL_SCAN" ++ flag h.ignoreForeignKeys "IGNORE_FOREIGN_KEYS" ++
    if h.zigzag then [Text.ofString "FORCE_ZIGZAG"]
    else h.zigzagIndexes.map fun i => ("FORCE_ZIGZAG=" : Text) ++ i.text
  match h.index, h.direction, others with
  | some i, none, [] => [0x40] ++ i.text
  | index, direction, others =>
    let index := index.toList.map fun i => ("FORCE_INDEX=" : Text) ++ i.text
    [0x40, 0x7b] ++ Text.join [0x2c] (index ++ direction.toList ++ others) ++ [0x7d]

end Hints

end Galley.Sql
