import Galley.Proofs.RingQueue

/-! The circular queue as a deque with positions. What may be asked of a deque is said on the list of its
elements and the position of the first one, with no slot in sight. A queue that started empty answers
whatever it is asked, in whatever order, as the deque does; what it refuses leaves it as it was. -/
namespace Galley.Layout.PositionedDeque
open RingQueue

variable {α : Type}

/-- What may be asked of a queue. -/
inductive Operation (α : Type) where
  | pushBack (a : α)
  | popFront
  | popBack
  | front
  | back
  /-- The element at a position. -/
  | read (pos : Int)
  /-- Another element at a position. -/
  | write (pos : Int) (a : α)
  | clear

/-- What a queue gives back. -/
inductive Answer (α : Type) where
  | position (pos : Int)
  | element (a : α)
  | done

/-- What comes of an operation: an answer and what is left of the queue, or a refusal. -/
abbrev Outcome (α σ : Type) := Except Ring.Misuse (Answer α × σ)

/-- What anyone can see of a queue. -/
structure Sight where
  length : Nat
  frontPos : Int
  backPos : Int

section Queues

/-- An operation on a queue. -/
def perform (r : Ring α) : Operation α → Outcome α (Ring α)
  | .pushBack a => .ok (.position (r.pushBack a).backPos, r.pushBack a)
  | .popFront => r.popFront.map (Prod.map .element id)
  | .popBack => r.popBack.map (Prod.map .element id)
  | .front => r.front.map fun a => (.element a, r)
  | .back => r.back.map fun a => (.element a, r)
  | .read pos => (r.read pos).map fun a => (.element a, r)
  | .write pos a => (r.write pos a).map fun next => (.done, next)
  | .clear => .ok (.done, r.clear)

/-- What is seen of a queue. -/
def sight (r : Ring α) : Sight := ⟨r.length, r.frontPos, r.backPos⟩

end Queues

/-- A deque with positions. -/
structure Deque (α : Type) where
  /-- The position of the first element. -/
  offset : Nat
  elements : List α

namespace Deque

/-- The deque that holds nothing and never did. -/
def empty : Deque α := ⟨0, []⟩

/-- What is seen of a deque. -/
def sight (d : Deque α) : Sight :=
  ⟨d.elements.length, d.offset, d.offset + d.elements.length - 1⟩

/-- The positions of the elements. -/
def Holds (d : Deque α) (pos : Int) : Prop :=
  d.offset ≤ pos ∧ pos < d.offset + d.elements.length

instance (d : Deque α) (pos : Int) : Decidable (d.Holds pos) := inferInstanceAs (Decidable (_ ∧ _))

/-- The place in the list of the element at a position. -/
def index (d : Deque α) (pos : Int) : Nat := (pos - d.offset).toNat

/-- What cannot be asked of a deque: an element of an empty one, and one at a position that it does not
hold. -/
def Refuses (d : Deque α) : Operation α → Prop
  | .popFront | .popBack | .front | .back => d.elements = []
  | .read pos | .write pos _ => ¬ d.Holds pos
  | .pushBack _ | .clear => False

/-- An operation on a deque. -/
def perform (d : Deque α) : Operation α → Outcome α (Deque α)
  | .pushBack a => .ok (.position (d.offset + (d.elements.length + 1) - 1), ⟨d.offset, d.elements ++ [a]⟩)
  | .popFront =>
    match d.elements with
    | [] => .error .popEmpty
    | a :: rest => .ok (.element a, ⟨d.offset + 1, rest⟩)
  | .popBack =>
    match d.elements.getLast? with
    | none => .error .popEmpty
    | some a => .ok (.element a, ⟨d.offset, d.elements.dropLast⟩)
  | .front =>
    match d.elements.head? with
    | none => .error .outOfRange
    | some a => .ok (.element a, d)
  | .back =>
    match d.elements.getLast? with
    | none => .error .outOfRange
    | some a => .ok (.element a, d)
  | .read pos =>
    if h : d.Holds pos then
      .ok (.element (d.elements.get ⟨d.index pos, by unfold Holds at h; unfold index; omega⟩), d)
    else .error .outOfRange
  | .write pos a =>
    if d.Holds pos then .ok (.done, ⟨d.offset, d.elements.set (d.index pos) a⟩) else .error .outOfRange
  | .clear => .ok (.done, ⟨d.offset + d.elements.length, []⟩)

end Deque

/-- The deque that a queue stands for. -/
def deque (r : Ring α) : Deque α := ⟨r.offset, r.toList⟩

section Steps

variable {σ τ : Type}

/-- The answer to an operation, and what is left. What is refused leaves everything as it was. -/
def settle (s : σ) : Outcome α σ → Except Ring.Misuse (Answer α) × σ
  | .ok (answer, next) => (.ok answer, next)
  | .error m => (.error m, s)

/-- Answers to operations one after the other, each with what is seen afterwards, and what is left in the
end. -/
def run (act : σ → Operation α → Outcome α σ) (look : σ → Sight) (s : σ) :
    List (Operation α) → List (Except Ring.Misuse (Answer α) × Sight) × σ
  | [] => ([], s)
  | op :: rest =>
    let next := settle s (act s op)
    let later := run act look next.2 rest
    ((next.1, look next.2) :: later.1, later.2)

/-- What is done alike step by step is done alike in a run. -/
theorem run_view {act : σ → Operation α → Outcome α σ} {view : σ → τ} {image : τ → Operation α → Outcome α τ}
    {look : σ → Sight} {seen : τ → Sight} (sights : ∀ s, look s = seen (view s))
    (steps : ∀ s op, (act s op).map (Prod.map id view) = image (view s) op) (s : σ) (ops : List (Operation α)) :
    (run act look s ops).1 = (run image seen (view s) ops).1 ∧
      view (run act look s ops).2 = (run image seen (view s) ops).2 := by
  induction ops generalizing s with
  | nil => exact ⟨rfl, rfl⟩
  | cons op ops ih =>
    have step : (settle (view s) (image (view s) op)) =
        ((settle s (act s op)).1, view (settle s (act s op)).2) := by
      rw [← steps]
      cases act s op with
      | error | ok => rfl
    obtain ⟨answers, left⟩ := ih (settle s (act s op)).2
    simp only [run, step, sights, answers, left, and_self]

end Steps

section Refinement

variable {r : Ring α}

theorem sight_deque (r : Ring α) : sight r = (deque r).sight := by
  simp only [sight, Deque.sight, deque, Ring.frontPos, Ring.backPos, length_toList]

/-- A position of a deque is that of the element at its index. -/
private theorem holds_index {pos : Int} (holds : (deque r).Holds pos) :
    (deque r).index pos < r.toList.length ∧ pos = r.offset + (deque r).index pos := by
  obtain ⟨first, last⟩ := holds
  simp only [deque] at first last
  constructor
  · simp only [Deque.index, deque]
    omega
  · simp only [Deque.index, deque]
    omega

private theorem popFront_deque (r : Ring α) :
    (perform r .popFront).map (Prod.map id deque) = (deque r).perform .popFront := by
  cases held : r.toList with
  | nil => simp [perform, popFront_nil held, Deque.perform, deque, held, Except.map]
  | cons a rest =>
    obtain ⟨next, popped, left, moved⟩ := popFront_cons held
    simp [perform, popped, Deque.perform, deque, held, left, moved, Except.map]

private theorem popBack_deque (r : Ring α) :
    (perform r .popBack).map (Prod.map id deque) = (deque r).perform .popBack := by
  rcases List.eq_nil_or_concat r.toList with held | ⟨rest, a, held⟩
  · simp [perform, popBack_nil held, Deque.perform, deque, held, Except.map]
  · rw [List.concat_eq_append] at held
    obtain ⟨next, popped, left, kept⟩ := popBack_append held
    simp [perform, popped, Deque.perform, deque, held, left, kept, Except.map]

private theorem read_deque (r : Ring α) (pos : Int) :
    (perform r (.read pos)).map (Prod.map id deque) = (deque r).perform (.read pos) := by
  by_cases holds : (deque r).Holds pos
  · obtain ⟨bound, place⟩ := holds_index holds
    have found := read_at (r := r) (List.getElem?_eq_getElem bound)
    rw [← place] at found
    simp only [perform, found, Deque.perform, holds]
    rfl
  · simp only [perform, read_outside holds, Deque.perform, holds]
    rfl

private theorem write_deque (r : Ring α) (pos : Int) (a : α) :
    (perform r (.write pos a)).map (Prod.map id deque) = (deque r).perform (.write pos a) := by
  by_cases holds : (deque r).Holds pos
  · obtain ⟨bound, place⟩ := holds_index holds
    obtain ⟨next, written, elements, kept⟩ := write_at bound a
    rw [← place] at written
    have left : deque next = ⟨r.offset, r.toList.set ((deque r).index pos) a⟩ := by rw [deque, elements, kept]
    simp only [perform, written, Deque.perform, holds, Except.map, Prod.map, left]
    rfl
  · simp only [perform, write_outside holds, Deque.perform, holds]
    rfl

/-- The first element is the one at the first position. -/
private theorem front_deque (r : Ring α) :
    (perform r .front).map (Prod.map id deque) = (deque r).perform .front := by
  cases held : r.toList with
  | nil =>
    have outside : ¬ (r.offset ≤ r.frontPos ∧ r.frontPos < r.offset + r.toList.length) := by
      simp [Ring.frontPos, held]
    simp [perform, Ring.front, read_outside outside, Deque.perform, deque, held, Except.map]
  | cons a rest => simp [perform, front_cons held, Deque.perform, deque, held, Except.map]

private theorem back_deque (r : Ring α) :
    (perform r .back).map (Prod.map id deque) = (deque r).perform .back := by
  rcases List.eq_nil_or_concat r.toList with held | ⟨rest, a, held⟩
  · have outside : ¬ (r.offset ≤ r.backPos ∧ r.backPos < r.offset + r.toList.length) := by
      have count : r.length = 0 := by rw [← length_toList, held]; rfl
      simp only [Ring.backPos, count]
      omega
    simp [perform, Ring.back, read_outside outside, Deque.perform, deque, held, Except.map]
  · rw [List.concat_eq_append] at held
    simp [perform, back_append held, Deque.perform, deque, held, Except.map]

/-- A queue does what its deque does. -/
theorem perform_deque (r : Ring α) (op : Operation α) :
    (perform r op).map (Prod.map id deque) = (deque r).perform op := by
  cases op with
  | pushBack a =>
    simp [perform, Deque.perform, deque, backPos_pushBack, Except.map]
    omega
  | popFront => exact popFront_deque r
  | popBack => exact popBack_deque r
  | front => exact front_deque r
  | back => exact back_deque r
  | read pos => exact read_deque r pos
  | write pos a => exact write_deque r pos a
  | clear => simp [perform, Deque.perform, deque, Except.map]

/-- A deque refuses what cannot be asked of it, and nothing else. -/
theorem perform_refuses (d : Deque α) (op : Operation α) :
    (∃ m, d.perform op = .error m) ↔ d.Refuses op := by
  obtain ⟨offset, elements⟩ := d
  cases op with
  | pushBack a => simp [Deque.perform, Deque.Refuses]
  | popFront => cases elements <;> simp [Deque.perform, Deque.Refuses]
  | popBack =>
    rcases List.eq_nil_or_concat elements with rfl | ⟨rest, a, rfl⟩
    · simp [Deque.perform, Deque.Refuses]
    · simp [Deque.perform, Deque.Refuses]
  | front => cases elements <;> simp [Deque.perform, Deque.Refuses]
  | back =>
    rcases List.eq_nil_or_concat elements with rfl | ⟨rest, a, rfl⟩
    · simp [Deque.perform, Deque.Refuses]
    · simp [Deque.perform, Deque.Refuses]
  | read pos =>
    by_cases holds : Deque.Holds ⟨offset, elements⟩ pos
    · simp [Deque.perform, Deque.Refuses, holds]
    · simp [Deque.perform, Deque.Refuses, holds]
  | write pos a =>
    by_cases holds : Deque.Holds ⟨offset, elements⟩ pos
    · simp [Deque.perform, Deque.Refuses, holds]
    · simp [Deque.perform, Deque.Refuses, holds]
  | clear => simp [Deque.perform, Deque.Refuses]

/-- A queue refuses what cannot be asked of its deque, and nothing else. -/
theorem settle_refuses (r : Ring α) (op : Operation α) :
    ((∃ m, (settle r (perform r op)).1 = .error m) ↔ (deque r).Refuses op) ∧
      ((deque r).Refuses op → (settle r (perform r op)).2 = r) := by
  rw [← perform_refuses, ← perform_deque]
  cases perform r op with
  | error | ok => simp [settle, Except.map]

/-- A queue that started empty answers operations in any order as a deque does, and stands for what is
left of the deque. What it is asked next it refuses exactly if the deque has no such element, and then
stays as it is. -/
theorem ring_refines_deque (ops : List (Operation α)) (op : Operation α) :
    let queue := run perform sight (.empty : Ring α) ops
    let image := run Deque.perform Deque.sight .empty ops
    queue.1 = image.1 ∧ deque queue.2 = image.2 ∧
      ((∃ m, (settle queue.2 (perform queue.2 op)).1 = .error m) ↔ image.2.Refuses op) ∧
      (image.2.Refuses op → (settle queue.2 (perform queue.2 op)).2 = queue.2) := by
  intro queue image
  have starts : deque (.empty : Ring α) = .empty := rfl
  obtain ⟨answers, left⟩ := run_view sight_deque perform_deque (.empty : Ring α) ops
  rw [starts] at answers left
  obtain ⟨refuses, kept⟩ := settle_refuses queue.2 op
  rw [show deque queue.2 = image.2 from left] at refuses kept
  exact ⟨answers, left, refuses, kept⟩

end Refinement

end Galley.Layout.PositionedDeque
