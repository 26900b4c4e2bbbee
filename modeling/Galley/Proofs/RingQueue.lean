import Galley.Layout.Ring

/-! The circular queue read as a list. Each operation is tied to the list of queued elements and
to the position of the first one, so that no later proof looks at a slot. -/
namespace Galley.Layout.RingQueue

variable {α : Type}

@[simp] theorem length_toList (r : Ring α) : r.toList.length = r.length := by
  simp [Ring.toList]

theorem length_of_toList {r : Ring α} {held : List α} (same : r.toList = held) : r.length = held.length := by
  rw [← length_toList, same]

variable (r : Ring α)
include r

theorem getElem_toList {i : Nat} (bound : i < r.toList.length) : r.toList[i] = r.get i (by simpa using bound) := by
  simp [Ring.toList]

/-- Two indices share a slot only if they are the same. -/
private theorem slot_injective {i j : Nat} (left : i < r.slots.size)
    (right : j < r.slots.size) (same : r.slot i = r.slot j) : i = j := by
  have forward := Nat.sub_mod_eq_zero_of_mod_eq same
  have backward := Nat.sub_mod_eq_zero_of_mod_eq same.symm
  rw [Nat.mod_eq_of_lt (by omega)] at forward backward
  omega

/-- The slots after a copy: elements at their indices, and the others as they were. -/
private theorem getElem_copied (data : Array α) {n i : Nat} (h : n ≤ r.length) (bound : i < data.size) :
    (r.copied data n h)[i]? = some (if lt : i < n then r.get i (Nat.lt_of_lt_of_le lt h) else data[i]) := by
  induction n with
  | zero => simp [Ring.copied, bound]
  | succ n ih =>
    rw [Ring.copied_succ, Array.getElem?_setIfInBounds, Ring.size_copied]
    by_cases last : n = i
    · subst last
      simp [bound]
    · rw [if_neg last, ih (Nat.le_of_succ_le h)]
      by_cases old : i < n
      · simp [old, Nat.lt_succ_of_lt old]
      · simp [old, show ¬ i < n + 1 by omega]

/-- Growing keeps the elements and their positions. -/
private theorem toList_grow (fill : α) : (r.grow fill).toList = r.toList := by
  apply List.ext_getElem (by simp [Ring.grow])
  intro i left right
  have held : i < r.length := by simpa using right
  have room : i < r.doubled := Nat.lt_of_lt_of_le held (Nat.le_trans r.length_le (Nat.le_of_lt r.size_lt_doubled))
  have copied := getElem_copied r (Array.replicate r.doubled fill) (Nat.le_refl r.length) (i := i) (by simpa using room)
  obtain ⟨_, found⟩ := Array.getElem?_eq_some_iff.mp copied
  rw [getElem_toList, getElem_toList]
  simp only [Ring.get, Ring.slot, Ring.grow, Nat.zero_add, Ring.size_copied, Array.size_replicate,
    Nat.mod_eq_of_lt room]
  rw [found, dif_pos held]
  rfl

private theorem withRoom_keeps (fill : α) :
    (r.withRoom fill).toList = r.toList ∧ (r.withRoom fill).offset = r.offset := by
  unfold Ring.withRoom
  split
  · exact ⟨toList_grow r fill, rfl⟩
  · exact ⟨rfl, rfl⟩

private theorem toList_place (a : α) (room : r.length < r.slots.size) : (r.place a room).toList = r.toList ++ [a] := by
  apply List.ext_getElem (by simp [Ring.place])
  intro i bound _
  have last : i < r.length + 1 := by simpa [Ring.place] using bound
  rw [getElem_toList, List.getElem_append]
  simp only [Ring.get, Ring.place, length_toList]
  split
  · rename_i old
    have apart : r.slot r.length ≠ r.slot i := by
      intro same
      have := slot_injective r room (by omega) same
      omega
    rw [getElem_toList]
    simp only [Ring.slot, Array.size_set, Ring.get] at apart ⊢
    exact Array.getElem_set_ne _ _ apart
  · have new : i = r.length := by omega
    subst new
    simp [Ring.slot]

@[simp] theorem toList_pushBack (a : α) : (r.pushBack a).toList = r.toList ++ [a] := by
  rw [Ring.pushBack, toList_place, (withRoom_keeps r a).1]

@[simp] theorem offset_pushBack (a : α) : (r.pushBack a).offset = r.offset :=
  (withRoom_keeps r a).2

@[simp] theorem length_pushBack (a : α) : (r.pushBack a).length = r.length + 1 := by
  rw [← length_toList, toList_pushBack]
  simp

theorem backPos_pushBack (a : α) : (r.pushBack a).backPos = r.offset + r.toList.length := by
  simp only [Ring.backPos, offset_pushBack, length_pushBack, length_toList]
  omega

omit r

variable {rest : List α}

private theorem toList_dropFirst {r : Ring α} {a : α} (held : r.toList = a :: rest) : r.dropFirst.toList = rest := by
  have count : r.length = rest.length + 1 := by rw [← length_toList, held]; simp
  apply List.ext_getElem (by simp [Ring.dropFirst, count])
  intro i bound within
  have next : rest[i] = r.get (i + 1) (by omega) := by
    rw [← getElem_toList r (by simp; omega)]
    simp [held]
  rw [getElem_toList, next]
  simp [Ring.dropFirst, Ring.get, Ring.slot, Nat.mod_add_mod, Nat.add_assoc, Nat.add_comm 1 i]

/-- Taking from the front hands over the first element and moves on by one position. -/
theorem popFront_cons {r : Ring α} {a : α} (held : r.toList = a :: rest) :
    ∃ s, r.popFront = .ok (a, s) ∧ s.toList = rest ∧ s.offset = r.offset + 1 := by
  have filled : 0 < r.length := by rw [← length_toList, held]; simp
  have first : r.get 0 filled = a := by
    rw [← getElem_toList r (by simpa using filled)]
    simp [held]
  simp only [Ring.popFront, filled, ↓reduceDIte, first]
  exact ⟨_, rfl, toList_dropFirst held, rfl⟩

/-- Taking from the back hands over the last element and moves no position. -/
theorem popBack_append {r : Ring α} {a : α} (held : r.toList = rest ++ [a]) :
    ∃ s, r.popBack = .ok (a, s) ∧ s.toList = rest ∧ s.offset = r.offset := by
  have count : r.length = rest.length + 1 := by rw [← length_toList, held]; simp
  have filled : 0 < r.length := by omega
  have last : r.get (r.length - 1) (Nat.sub_lt filled Nat.one_pos) = a := by
    rw [← getElem_toList r (by simp; omega)]
    simp [held, count]
  simp only [Ring.popBack, filled, ↓reduceDIte, last]
  refine ⟨_, rfl, ?_, rfl⟩
  apply List.ext_getElem (by simp [count])
  intro i bound within
  have same : rest[i] = r.get i (by omega) := by
    rw [← getElem_toList r (by simp; omega)]
    simp [held, within]
  rw [getElem_toList, same]
  simp [Ring.get, Ring.slot]

private theorem index_at (r : Ring α) {i : Nat} (bound : i < r.length) :
    r.index? (r.offset + i) = some ⟨i, bound⟩ := by
  simp only [Ring.index?]
  rw [dif_pos (by omega)]
  simp only [Option.some.injEq, Fin.mk.injEq]
  omega

/-- A position reads the element at its distance from the first position. -/
theorem read_at {r : Ring α} {a : α} {i : Nat} (held : r.toList[i]? = some a) :
    r.read (r.offset + i) = .ok a := by
  obtain ⟨bound, element⟩ := List.getElem?_eq_some_iff.mp held
  have within : i < r.length := by simpa using bound
  rw [getElem_toList] at element
  simp [Ring.read, index_at r within, element]

/-- Only a queued element is read. -/
theorem read_ok {r : Ring α} {a : α} {pos : Int} (found : r.read pos = .ok a) :
    ∃ i : Nat, pos = r.offset + i ∧ r.toList[i]? = some a := by
  unfold Ring.read Ring.index? at found
  split at found
  · rename_i i within
    simp only [Option.dite_none_right_eq_some, Option.some.injEq] at within
    obtain ⟨bounds, rfl⟩ := within
    cases found
    refine ⟨(pos - r.offset).toNat, by omega, ?_⟩
    rw [List.getElem?_eq_getElem (by simp; omega), getElem_toList]
  · cases found

/-- Writing at a position replaces that element and no other. -/
theorem write_at {r : Ring α} {i : Nat} (bound : i < r.toList.length) (a : α) :
    ∃ s, r.write (r.offset + i) a = .ok s ∧ s.toList = r.toList.set i a ∧
      s.offset = r.offset := by
  have within : i < r.length := by simpa using bound
  simp only [Ring.write, index_at r within]
  refine ⟨_, rfl, ?_, rfl⟩
  apply List.ext_getElem (by simp)
  intro j left right
  have room := r.length_le
  have held : j < r.length := by simpa using left
  rw [getElem_toList, List.getElem_set]
  split
  · rename_i same
    subst same
    simp [Ring.get, Ring.slot]
  · rename_i other
    have apart : r.slot i ≠ r.slot j := fun same =>
      other (slot_injective r (by omega) (by omega) same)
    rw [getElem_toList r (by simpa using held)]
    simp only [Ring.get, Ring.slot, Array.size_set] at apart ⊢
    exact Array.getElem_set_ne _ _ apart

theorem popFront_nil {r : Ring α} (held : r.toList = []) : r.popFront = .error .popEmpty := by
  have count : r.length = 0 := length_of_toList held
  simp [Ring.popFront, count]

theorem popBack_nil {r : Ring α} (held : r.toList = []) : r.popBack = .error .popEmpty := by
  have count : r.length = 0 := length_of_toList held
  simp [Ring.popBack, count]

theorem popBack_ok {r s : Ring α} {a : α} (popped : r.popBack = .ok (a, s)) : r.toList = s.toList ++ [a] := by
  rcases List.eq_nil_or_concat r.toList with empty | ⟨rest, last, parts⟩
  · rw [popBack_nil empty] at popped
    cases popped
  · rw [List.concat_eq_append] at parts
    obtain ⟨t, ran, left, _⟩ := popBack_append parts
    rw [ran] at popped
    cases popped
    rw [parts, left]

private theorem index_outside {r : Ring α} {pos : Int}
    (outside : ¬ (r.offset ≤ pos ∧ pos < r.offset + r.toList.length)) : r.index? pos = none := by
  simp only [Ring.index?]
  rw [dif_neg]
  rw [length_toList] at outside
  omega

/-- Nothing is read at a position that is not queued. -/
theorem read_outside {r : Ring α} {pos : Int}
    (outside : ¬ (r.offset ≤ pos ∧ pos < r.offset + r.toList.length)) : r.read pos = .error .outOfRange := by
  rw [Ring.read, index_outside outside]

/-- Nothing is written at a position that is not queued. -/
theorem write_outside {r : Ring α} {pos : Int}
    (outside : ¬ (r.offset ≤ pos ∧ pos < r.offset + r.toList.length)) (a : α) :
    r.write pos a = .error .outOfRange := by
  rw [Ring.write, index_outside outside]

private theorem dropped_eq (r : Ring α) (n : Nat) :
    (Ring.dropped n r).length = r.length - n ∧ (Ring.dropped n r).offset = r.offset + n := by
  induction n generalizing r with
  | zero => exact ⟨rfl, rfl⟩
  | succ n ih =>
    obtain ⟨length, offset⟩ := ih r.dropFirst
    simp only [Ring.dropFirst] at length offset
    exact ⟨length.trans (by omega), offset.trans (by omega)⟩

@[simp] theorem toList_clear (r : Ring α) : r.clear.toList = [] := by
  apply List.eq_nil_of_length_eq_zero
  rw [length_toList]
  exact (dropped_eq r r.length).1.trans (Nat.sub_self _)

@[simp] theorem offset_clear (r : Ring α) : r.clear.offset = r.offset + r.length := (dropped_eq r r.length).2

theorem front_cons {r : Ring α} {a : α} (held : r.toList = a :: rest) : r.front = .ok a := by
  have first := read_at (r := r) (i := 0) (a := a) (by simp [held])
  simpa [Ring.front, Ring.frontPos] using first

theorem back_append {r : Ring α} {a : α} (held : r.toList = rest ++ [a]) : r.back = .ok a := by
  have count : r.length = rest.length + 1 := by rw [← length_toList, held]; simp
  have last := read_at (r := r) (i := rest.length) (a := a) (by simp [held])
  have place : r.backPos = r.offset + rest.length := by
    simp only [Ring.backPos, count]
    omega
  rw [Ring.back, place, last]

end Galley.Layout.RingQueue
