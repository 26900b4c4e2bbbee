/-!
What columns are counted in. The layout engine works over any type with the arithmetic below:
over `Int`, where counts are exact, and over `Int64`, where they wrap around as machine words do.
-/

namespace Galley.Layout

/-- A type to count columns in. -/
class Columns (ι : Type) extends Add ι, Sub ι, Neg ι, Mul ι, LE ι, LT ι, Zero ι, One ι where
  decEq : DecidableEq ι
  decLe : DecidableLE ι
  decLt : DecidableLT ι
  /-- The count of a measured width. -/
  ofNat : Nat → ι
  /-- The number a count stands for. -/
  toInt : ι → Int

variable {ι : Type} [Columns ι]

instance instDecidableEq : DecidableEq ι := Columns.decEq
instance instDecidableLE : DecidableLE ι := Columns.decLe
instance instDecidableLT : DecidableLT ι := Columns.decLt

instance : Columns Int where
  zero := 0
  one := 1
  decEq := inferInstance
  decLe := inferInstance
  decLt := inferInstance
  ofNat := Int.ofNat
  toInt := id

instance : Columns Int64 where
  zero := 0
  one := 1
  decEq := inferInstance
  decLe := inferInstance
  decLt := inferInstance
  ofNat := Int64.ofNat
  toInt := Int64.toInt

/-- The count of a number that may be negative. -/
def Columns.ofInt : Int → ι
  | .ofNat n => Columns.ofNat n
  | .negSucc n => -Columns.ofNat (n + 1)

/-- How often a blank is repeated to fill a count of columns: never for a negative count. -/
def Columns.toNat (n : ι) : Nat := (Columns.toInt n).toNat

end Galley.Layout
