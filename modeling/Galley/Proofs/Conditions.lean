import Galley.Sql.Layout

/-! Conditions broken up into terms. A chain is a condition with all that hangs together by one operator taken
apart, on either side. What holds of chains is shown by one induction, over the conditions that the operator
joins and those that it does not. Main statement: the terms of a condition have its leaves in their order and,
joined by the chosen operator, its meaning; joined from the left they are the condition itself if and only if
its chain leans to the left throughout. -/
namespace Galley.Sql.Conditions

/-! ## Meaning -/

/-- The truth values of SQL. -/
inductive Truth where
  | true
  | false
  | unknown
  deriving DecidableEq, Repr

namespace Truth

/-- False if a side is false, whatever the other is; true only if both are true. -/
def and : Truth → Truth → Truth
  | .false, _ => .false
  | _, .false => .false
  | .true, .true => .true
  | _, _ => .unknown

/-- True if a side is true, whatever the other is; false only if both are false. -/
def or : Truth → Truth → Truth
  | .true, _ => .true
  | _, .true => .true
  | .false, .false => .false
  | _, _ => .unknown

end Truth

/-- The value of two values with a junction between them. -/
def apply : Junction → Truth → Truth → Truth
  | .and => Truth.and
  | .or => Truth.or

/-- The value that a junction does not see. -/
def neutral : Junction → Truth
  | .and => .true
  | .or => .false

/-- Values taken together, from the left. -/
def fold (j : Junction) : List Truth → Truth
  | [] => neutral j
  | v :: vs => vs.foldl (apply j) v

/-- The parts of a condition that are not looked into, left to right. -/
def leaves : Expr → List Expr
  | .and l r => leaves l ++ leaves r
  | .or l r => leaves l ++ leaves r
  | .tuple items => [.tuple items]
  | .leaf s t => [.leaf s t]

/-- The value of a condition that has `n` leaves before it, given one for each leaf by its place. Two leaves
that read the same may differ in value. -/
def value (given : Nat → Truth) (n : Nat) : Expr → Truth
  | .and l r => (value given n l).and (value given (n + (leaves l).length) r)
  | .or l r => (value given n l).or (value given (n + (leaves l).length) r)
  | .tuple _ => given n
  | .leaf _ _ => given n

/-- The values of conditions that stand one after the other, with `n` leaves before them. -/
def values (given : Nat → Truth) (n : Nat) : List Expr → List Truth
  | [] => []
  | e :: es => value given n e :: values given (n + (leaves e).length) es

/-! ## Chains -/

/-- The condition that a junction makes of two. -/
def join : Junction → Expr → Expr → Expr
  | .and => .and
  | .or => .or

/-- Whether a condition is joined by a junction. -/
def Joined (j : Junction) (e : Expr) : Prop := ∃ l r, e = join j l r

/-- The right operands of a chain. -/
def rights (j : Junction) : Expr → List Expr
  | .and l r => if j = .and then rights j l ++ r :: rights j r else []
  | .or l r => if j = .or then rights j l ++ r :: rights j r else []
  | .tuple _ => []
  | .leaf _ _ => []

/-- A chain that leans to the left: no right operand is joined by its junction. -/
def Leaning (j : Junction) (e : Expr) : Prop := ∀ r ∈ rights j e, ¬ Joined j r

variable {j : Junction} {e l r : Expr} {given : Nat → Truth}

section Truths

instance (j : Junction) : Std.Associative (apply j) where
  assoc u v w := by cases j <;> cases u <;> cases v <;> cases w <;> rfl

theorem apply_neutral (j : Junction) (v : Truth) : apply j v (neutral j) = v := by
  cases j <;> cases v <;> rfl

theorem neutral_apply (j : Junction) (v : Truth) : apply j (neutral j) v = v := by
  cases j <;> cases v <;> rfl

theorem fold_append (j : Junction) (vs ws : List Truth) : fold j (vs ++ ws) = apply j (fold j vs) (fold j ws) := by
  cases vs with
  | nil => exact (neutral_apply j (fold j ws)).symm
  | cons v vs =>
    cases ws with
    | nil => rw [List.append_nil, fold, fold, apply_neutral]
    | cons w ws =>
      simp only [List.cons_append, fold, List.foldl_append, List.foldl_cons]
      exact List.foldl_assoc

theorem values_append (n : Nat) (es fs : List Expr) :
    values given n (es ++ fs) = values given n es ++ values given (n + (es.flatMap leaves).length) fs := by
  induction es generalizing n with
  | nil => rfl
  | cons e es ih =>
    simp only [List.cons_append, values, ih, List.flatMap_cons, List.length_append, Nat.add_assoc]

end Truths

section Joining

theorem leaves_join (j : Junction) (l r : Expr) : leaves (join j l r) = leaves l ++ leaves r := by
  cases j <;> rfl

theorem value_join (j : Junction) (n : Nat) (l r : Expr) :
    value given n (join j l r) = apply j (value given n l) (value given (n + (leaves l).length) r) := by
  cases j <;> rfl

theorem flatten_join (j : Junction) (l r : Expr) : (join j l r).flatten j = l.flatten j ++ r.flatten j := by
  cases j <;> rfl

theorem rights_join (j : Junction) (l r : Expr) : rights j (join j l r) = rights j l ++ r :: rights j r := by
  cases j <;> rfl

/-- What holds of conditions that a junction does not join, and of what it joins, holds of all. -/
theorem chain_induction {P : Expr → Prop} (j : Junction) (other : ∀ e, ¬ Joined j e → P e)
    (joined : ∀ l r, P l → P r → P (join j l r)) (e : Expr) : P e := by
  induction e with
  | and l r left right =>
    cases j with
    | and => exact joined l r left right
    | or => exact other _ (by simp [Joined, join])
  | or l r left right =>
    cases j with
    | and => exact other _ (by simp [Joined, join])
    | or => exact joined l r left right
  | tuple | leaf => exact other _ (by cases j <;> simp [Joined, join])

/-- A condition that a junction does not join is a chain of its own. -/
theorem other_alone (other : ¬ Joined j e) : e.flatten j = [e] ∧ rights j e = [] := by
  cases e with
  | and l r =>
    cases j with
    | and => exact absurd ⟨l, r, rfl⟩ other
    | or => exact ⟨rfl, rfl⟩
  | or l r =>
    cases j with
    | and => exact ⟨rfl, rfl⟩
    | or => exact absurd ⟨l, r, rfl⟩ other
  | tuple | leaf => exact ⟨rfl, rfl⟩

theorem flatten_other (other : ¬ Joined j e) : e.flatten j = [e] := (other_alone other).1

theorem rights_other (other : ¬ Joined j e) : rights j e = [] := (other_alone other).2

end Joining

section Flattening

theorem flatten_ne_nil (j : Junction) (e : Expr) : e.flatten j ≠ [] := by
  induction e using chain_induction j with
  | other e other => simp [flatten_other other]
  | joined l r left right => simp [flatten_join, left]

theorem flatten_leaves (j : Junction) (e : Expr) : (e.flatten j).flatMap leaves = leaves e := by
  induction e using chain_induction j with
  | other e other => simp [flatten_other other]
  | joined l r left right => rw [flatten_join, List.flatMap_append, left, right, leaves_join]

theorem flatten_apart (j : Junction) (e : Expr) : ∀ t ∈ e.flatten j, ¬ Joined j t := by
  induction e using chain_induction j with
  | other e other => simpa [flatten_other other] using other
  | joined l r left right =>
    rw [flatten_join]
    exact List.forall_mem_append.mpr ⟨left, right⟩

theorem flatten_value (j : Junction) (e : Expr) (n : Nat) :
    fold j (values given n (e.flatten j)) = value given n e := by
  induction e using chain_induction j generalizing n with
  | other e other => rw [flatten_other other, values, values, fold, List.foldl_nil]
  | joined l r left right =>
    rw [flatten_join, values_append, fold_append, flatten_leaves, left, right, value_join]

/-- A junction joins at least two terms. -/
theorem flatten_joined (joined : Joined j e) : (e.flatten j).length ≠ 1 := by
  obtain ⟨l, r, rfl⟩ := joined
  have left := List.length_pos_iff.mpr (flatten_ne_nil j l)
  have right := List.length_pos_iff.mpr (flatten_ne_nil j r)
  rw [flatten_join, List.length_append]
  omega

/-- Terms joined from the left are the right operands of what they make, but for the first. -/
theorem rights_foldl {ts : List Expr} (apart : ∀ t ∈ ts, ¬ Joined j t) (first : Expr) :
    rights j (ts.foldl (join j) first) = rights j first ++ ts := by
  induction ts generalizing first with
  | nil => exact (List.append_nil _).symm
  | cons t ts ih =>
    obtain ⟨here, later⟩ := List.forall_mem_cons.mp apart
    rw [List.foldl_cons, ih later, rights_join, rights_other here, List.append_assoc]
    rfl

theorem leaning_flatten (leaning : Leaning j e) :
    ∃ first rest, e.flatten j = first :: rest ∧ rest.foldl (join j) first = e := by
  induction e using chain_induction j with
  | other e other => exact ⟨e, [], flatten_other other, rfl⟩
  | joined l r left _ =>
    simp only [Leaning, rights_join, List.forall_mem_append, List.forall_mem_cons] at leaning
    obtain ⟨before, last, _⟩ := leaning
    obtain ⟨first, rest, terms, rebuilt⟩ := left before
    refine ⟨first, rest ++ [r], ?_, ?_⟩
    · rw [flatten_join, terms, flatten_other last, List.cons_append]
    · rw [List.foldl_append, rebuilt, List.foldl_cons, List.foldl_nil]

/-- Joining the terms from the left gives the condition back if and only if its chain leans that way. -/
theorem rebuilt_iff_leaning {first : Expr} {rest : List Expr} (terms : e.flatten j = first :: rest) :
    rest.foldl (join j) first = e ↔ Leaning j e := by
  constructor
  · intro rebuilt
    have apart := flatten_apart j e
    rw [terms] at apart
    obtain ⟨here, later⟩ := List.forall_mem_cons.mp apart
    have operands := rights_foldl later first
    rw [rebuilt, rights_other here, List.nil_append] at operands
    rw [Leaning, operands]
    exact later
  · intro leaning
    obtain ⟨head, tail, same, rebuilt⟩ := leaning_flatten leaning
    rw [terms] at same
    cases same
    exact rebuilt

end Flattening

/-- The chosen operator is the one that joins the condition, if any does. -/
theorem terms_eq (e : Expr) :
    e.terms.2 = e.flatten e.terms.1 ∧ ∀ j, Joined j e → e.terms.1 = j := by
  by_cases single : (e.flatten .and).length = 1
  · have chosen : e.terms = (.or, e.flatten .or) := if_pos single
    refine ⟨by rw [chosen], fun j joined => ?_⟩
    cases j with
    | and => exact absurd single (flatten_joined joined)
    | or => rw [chosen]
  · have chosen : e.terms = (.and, e.flatten .and) := if_neg single
    refine ⟨by rw [chosen], fun j joined => ?_⟩
    cases j with
    | and => rw [chosen]
    | or =>
      obtain ⟨l, r, rfl⟩ := joined
      exact absurd rfl single

/-- The terms of a condition have its leaves in their order, are not joined by the chosen operator any more,
and mean together what the condition means, whatever truth values its leaves have. The operator is the one
that joins the condition, if it is joined at all. Joining the terms from the left gives the very condition
back if no right operand of its chain is joined by the operator, and only then. -/
theorem condition_terms_keep_meaning (e : Expr) :
    ∃ first rest, e.terms.2 = first :: rest ∧
      e.terms.2.flatMap leaves = leaves e ∧
      (∀ t ∈ e.terms.2, ¬ Joined e.terms.1 t) ∧
      (∀ j, Joined j e → e.terms.1 = j) ∧
      (∀ given, fold e.terms.1 (values given 0 e.terms.2) = value given 0 e) ∧
      (rest.foldl (join e.terms.1) first = e ↔ Leaning e.terms.1 e) := by
  obtain ⟨flattened, chosen⟩ := terms_eq e
  obtain ⟨first, rest, terms⟩ := List.exists_cons_of_ne_nil (flatten_ne_nil e.terms.1 e)
  refine ⟨first, rest, flattened.trans terms, ?_, ?_, chosen, fun given => ?_, rebuilt_iff_leaning terms⟩
  · rw [flattened, flatten_leaves]
  · rw [flattened]
    exact flatten_apart e.terms.1 e
  · rw [flattened, flatten_value]

end Galley.Sql.Conditions
