import Galley.Text.Basic

/-!
A growable circular queue. Elements are addressed by their position in the stream of everything
ever pushed: the first element has position 0, and a position stays valid for as long as its
element is queued. `Ring.toList` is the queue as a list.
-/

namespace Galley.Layout

/-- The element at index `i` of the queue is kept in slot `head + i`, counted around the end of
the slots. -/
structure Ring (α : Type) where
  slots : Array α
  head : Nat
  length : Nat
  /-- The position of the first element. -/
  offset : Nat
  length_le : length ≤ slots.size

namespace Ring

variable {α : Type}

/-- Ways to ask a queue for what it does not hold. -/
inductive Misuse where
  | popEmpty
  | outOfRange
  deriving DecidableEq, Repr

/-- The wording of a misuse. -/
def Misuse.message : Misuse → Text
  | .popEmpty => "pretty: pop from empty ring"
  | .outOfRange => "pretty: ring position out of range"

/-- The queue that holds nothing and never did. -/
def empty : Ring α := ⟨#[], 0, 0, 0, Nat.le_refl 0⟩

instance : Inhabited (Ring α) := ⟨empty⟩

/-- The slot of the element at an index. -/
def slot (r : Ring α) (i : Nat) : Nat := (r.head + i) % r.slots.size

theorem slot_lt (r : Ring α) {i : Nat} (h : i < r.length) : r.slot i < r.slots.size :=
  Nat.mod_lt _ (Nat.lt_of_lt_of_le (Nat.zero_lt_of_lt h) r.length_le)

/-- The element at an index. -/
def get (r : Ring α) (i : Nat) (h : i < r.length) : α :=
  have := r.slot_lt h
  r.slots[r.slot i]

/-- The elements, first to last. -/
def toList (r : Ring α) : List α := List.ofFn fun i : Fin r.length => r.get i i.isLt

/-- The position of the first element. -/
def frontPos (r : Ring α) : Int := r.offset

/-- The position of the last element. -/
def backPos (r : Ring α) : Int := r.offset + r.length - 1

/-- Copies the first elements, each to the slot of its index. -/
def copied (r : Ring α) (data : Array α) (n : Nat) (h : n ≤ r.length) : Array α :=
  n.fold (fun i lt data => data.setIfInBounds i (r.get i (Nat.lt_of_lt_of_le lt h))) data

theorem copied_succ (r : Ring α) (data : Array α) {n : Nat} (h : n + 1 ≤ r.length) :
    r.copied data (n + 1) h = (r.copied data n (Nat.le_of_succ_le h)).setIfInBounds n (r.get n h) :=
  Nat.fold_succ ..

@[simp] theorem size_copied (r : Ring α) (data : Array α) {n : Nat} (h : n ≤ r.length) :
    (r.copied data n h).size = data.size := by
  induction n with
  | zero => rfl
  | succ n ih => rw [copied_succ, Array.size_setIfInBounds, ih]

/-- Twice as many slots. -/
def doubled (r : Ring α) : Nat := if r.slots.size = 0 then 8 else 2 * r.slots.size

theorem size_lt_doubled (r : Ring α) : r.slots.size < r.doubled := by
  unfold doubled
  split <;> omega

/-- The queue in twice as many slots, from the first one on. New slots hold `fill`. -/
def grow (r : Ring α) (fill : α) : Ring α :=
  { slots := r.copied (Array.replicate r.doubled fill) r.length (Nat.le_refl _)
    head := 0
    length := r.length
    offset := r.offset
    length_le := by
      rw [size_copied, Array.size_replicate]
      exact Nat.le_trans r.length_le (Nat.le_of_lt r.size_lt_doubled) }

/-- The queue with a free slot. -/
def withRoom (r : Ring α) (fill : α) : Ring α := if r.length = r.slots.size then r.grow fill else r

theorem withRoom_lt (r : Ring α) (fill : α) :
    (r.withRoom fill).length < (r.withRoom fill).slots.size := by
  unfold withRoom
  split
  · next full =>
    rw [grow, size_copied, Array.size_replicate]
    exact Nat.lt_of_le_of_lt r.length_le r.size_lt_doubled
  · next room => exact Nat.lt_of_le_of_ne r.length_le room

/-- The queue with an element in its free slot. -/
def place (r : Ring α) (a : α) (h : r.length < r.slots.size) : Ring α :=
  have : r.slot r.length < r.slots.size := Nat.mod_lt _ (Nat.zero_lt_of_lt h)
  { slots := r.slots.set (r.slot r.length) a
    head := r.head
    length := r.length + 1
    offset := r.offset
    length_le := by
      rw [Array.size_set]
      exact Nat.succ_le_of_lt h }

/-- The queue with an element appended. Full slots are doubled. -/
def pushBack (r : Ring α) (a : α) : Ring α := (r.withRoom a).place a (r.withRoom_lt a)

/-- The queue without its first element, which is known to be there. -/
def dropFirst (r : Ring α) : Ring α :=
  { slots := r.slots
    head := (r.head + 1) % r.slots.size
    length := r.length - 1
    offset := r.offset + 1
    length_le := Nat.le_trans (Nat.sub_le _ _) r.length_le }

/-- The first element and the queue without it. -/
def popFront (r : Ring α) : Except Misuse (α × Ring α) :=
  if h : 0 < r.length then .ok (r.get 0 h, r.dropFirst) else .error .popEmpty

/-- The last element and the queue without it. -/
def popBack (r : Ring α) : Except Misuse (α × Ring α) :=
  if h : 0 < r.length then
    .ok (r.get (r.length - 1) (Nat.sub_lt h Nat.one_pos),
      { r with
        length := r.length - 1
        length_le := Nat.le_trans (Nat.sub_le _ _) r.length_le })
  else .error .popEmpty

/-- The index of a position, if it is queued. -/
def index? (r : Ring α) (pos : Int) : Option (Fin r.length) :=
  let i := pos - r.offset
  if h : 0 ≤ i ∧ i < r.length then some ⟨i.toNat, by omega⟩ else none

/-- The element at a position. -/
def read (r : Ring α) (pos : Int) : Except Misuse α :=
  match r.index? pos with
  | some i => .ok (r.get i i.isLt)
  | none => .error .outOfRange

/-- The queue with the element at a position replaced. -/
def write (r : Ring α) (pos : Int) (a : α) : Except Misuse (Ring α) :=
  match r.index? pos with
  | some i =>
    have := r.slot_lt i.isLt
    .ok { r with
      slots := r.slots.set (r.slot i) a
      length_le := by simpa using r.length_le }
  | none => .error .outOfRange

/-- The first element. -/
def front (r : Ring α) : Except Misuse α := r.read r.frontPos

/-- The last element. -/
def back (r : Ring α) : Except Misuse α := r.read r.backPos

/-- The queue without its first elements, which are dropped one after the other. -/
def dropped : Nat → Ring α → Ring α
  | 0, r => r
  | n + 1, r => dropped n r.dropFirst

/-- The queue without its elements. Their positions are not given out again. -/
def clear (r : Ring α) : Ring α := { dropped r.length r with head := 0 }

end Ring

end Galley.Layout
