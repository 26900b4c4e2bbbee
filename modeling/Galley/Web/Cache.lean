/-!
A cache of bounded size that forgets what has not been used for the longest time.
-/

namespace Galley.Web

/-- A cache: the entries that were used last come first. -/
structure Cache (κ α : Type) where
  capacity : Nat
  entries : List (κ × α)
  bounded : entries.length ≤ capacity

namespace Cache

variable {κ α : Type} [DecidableEq κ]

/-- A cache without entries. -/
def empty (capacity : Nat) : Cache κ α := ⟨capacity, [], Nat.zero_le _⟩

/-- The number of entries. -/
def size (c : Cache κ α) : Nat := c.entries.length

/-- The value of a key. -/
def get? (c : Cache κ α) (k : κ) : Option α := c.entries.lookup k

/-- The cache in which the value of a key was used last. The entry that was not used for the
longest time makes room for a new one. -/
def put (c : Cache κ α) (k : κ) (v : α) : Cache κ α :=
  ⟨c.capacity, ((k, v) :: c.entries.filter (·.1 ≠ k)).take c.capacity,
    List.length_take_le _ _⟩

end Cache

end Galley.Web
