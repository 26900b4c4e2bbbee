import Galley.Proofs.PageWriting

/-! Which tokens count towards the size of a group start or a break, said by cutting up the document:
up to the next break of the same group, or past the end of the group up to the next break of any.
In a document with balanced groups every group start and break covers such tokens, and its exact
size is their width. -/
namespace Galley.Layout.Coverage
open Extent PageWriting

/-- Tokens in which every group that starts also ends. Unless `direct` is set, no break lies outside
these groups. -/
inductive Enclosed : Bool → List (Token Int) → Prop where
  | nil (direct : Bool) : Enclosed direct []
  | plain {direct : Bool} {t : Token Int} {ts : List (Token Int)} (bare : opening t = none)
      (inside : t ≠ .groupEnd) (rest : Enclosed direct ts) : Enclosed direct (t :: ts)
  | lineBreak (b : Break Int) {ts : List (Token Int)} (rest : Enclosed true ts) :
      Enclosed true (.lineBreak b :: ts)
  | group {direct : Bool} (g : Group Int) {inner ts : List (Token Int)} (inside : Enclosed true inner)
      (rest : Enclosed direct ts) : Enclosed direct (.groupStart g :: (inner ++ .groupEnd :: ts))

/-- Tokens without a break. -/
def Unbroken (ts : List (Token Int)) : Prop := ∀ t ∈ ts, Printer.isBreak t = false

/-- The document ends here, or a break stands here. -/
inductive BreakOrEnd : List (Token Int) → Prop where
  | nil : BreakOrEnd []
  | lineBreak (b : Break Int) (rest : List (Token Int)) : BreakOrEnd (.lineBreak b :: rest)

/-- The tokens after a group start or a break that count towards its size. -/
inductive Covers : Token Int → List (Token Int) → List (Token Int) → Prop where
  /-- A group start covers its group, and past its end everything up to the next break. -/
  | group (g : Group Int) {body mid rest : List (Token Int)} (enclosed : Enclosed true body)
      (unbroken : Unbroken mid) (stops : BreakOrEnd rest) :
      Covers (.groupStart g) (body ++ .groupEnd :: (mid ++ rest)) (body ++ .groupEnd :: mid)
  /-- A break covers everything up to the next break of its group. -/
  | next (b : Break Int) {inner : List (Token Int)} (enclosed : Enclosed false inner) (other : Break Int)
      (rest : List (Token Int)) : Covers (.lineBreak b) (inner ++ .lineBreak other :: rest) inner
  /-- The last break of a group covers the rest of it, and past its end everything up to the next
  break. -/
  | last (b : Break Int) {inner mid rest : List (Token Int)} (enclosed : Enclosed false inner)
      (unbroken : Unbroken mid) (stops : BreakOrEnd rest) :
      Covers (.lineBreak b) (inner ++ .groupEnd :: (mid ++ rest)) (inner ++ .groupEnd :: mid)
  /-- The last break outside any group covers the rest of the document. -/
  | final (b : Break Int) {inner : List (Token Int)} (enclosed : Enclosed false inner) :
      Covers (.lineBreak b) inner inner

section Sizes

variable {c : Config Int} {r : Reach} {direct : Bool} {ts rest : List (Token Int)}

/-- Enclosed tokens leave an extent where it was, if it runs past their breaks. -/
theorem walk_enclosed (enclosed : Enclosed direct ts) (inside : r ≠ .line)
    (passes : direct = true → r.meet = some r) : r.walk ts = some r := by
  induction enclosed generalizing r with
  | nil direct => rfl
  | @plain direct t ts bare inner rest ih =>
    have stays : r.step t = some r := by cases t <;> simp_all [opening, Reach.step]
    simpa [Reach.walk, stays] using ih inside passes
  | lineBreak b rest ih =>
    simpa [Reach.walk, Reach.step, passes rfl] using ih inside passes
  | @group direct g inner ts within rest ihInner ihRest =>
    have deeper : r.enter ≠ .line := by cases r <;> simp_all [Reach.enter]
    have runs : r.enter.meet = some r.enter := by cases r <;> simp_all [Reach.enter, Reach.meet]
    have back : r.enter.leave = r := by cases r <;> rfl
    simp [Reach.walk, Reach.step, walk_append, ihInner deeper fun _ => runs, back, ihRest inside passes]

theorem extent_enclosed (enclosed : Enclosed direct ts) (inside : r ≠ .line)
    (passes : direct = true → r.meet = some r) (rest : List (Token Int)) :
    extent c r (ts ++ rest) = columnsOf c ts + extent c r rest := by
  have runs := walk_enclosed enclosed inside passes
  simp [extent_append, runs, extent_of_walk runs]

theorem extent_unbroken (unbroken : Unbroken ts) (stops : BreakOrEnd rest) :
    extent c .line (ts ++ rest) = columnsOf c ts := by
  have runs : Reach.line.walk ts = some .line := by
    induction ts with
    | nil => rfl
    | cons t ts ih =>
      have stays : Reach.line.step t = some .line := by
        have whole := unbroken t (by simp)
        cases t <;> first | rfl | cases whole
      simpa [Reach.walk, stays] using ih fun u member => unbroken u (by simp [member])
  have ends : extent c .line rest = 0 := by cases stops <;> rfl
  simp [extent_append, runs, extent_of_walk runs, ends]

/-- The exact size of a token is its own width with that of what it covers. -/
theorem exactSize_of_covers {t : Token Int} {after span : List (Token Int)}
    (covers : Covers t after span) : exactSize c t after = columnsOf c (t :: span) := by
  cases covers with
  | group g enclosed unbroken stops =>
    have body := extent_enclosed (c := c) (r := .group 0) enclosed (by simp) fun _ => rfl
    simp [exactSize, opening, body, extent, Reach.step, Reach.leave, extent_unbroken unbroken stops,
      columnsOf, columnsOf_append]
  | next b enclosed other rest =>
    have inner := extent_enclosed (c := c) (r := .chunk 0) enclosed (by simp) (by simp)
    simp [exactSize, opening, inner, extent, Reach.step, Reach.meet, columnsOf]
  | last b enclosed unbroken stops =>
    have inner := extent_enclosed (c := c) (r := .chunk 0) enclosed (by simp) (by simp)
    simp [exactSize, opening, inner, extent, Reach.step, Reach.leave, extent_unbroken unbroken stops,
      columnsOf, columnsOf_append]
  | final b enclosed =>
    have inner := walk_enclosed (r := .chunk 0) enclosed (by simp) (by simp)
    simp [exactSize, opening, extent_of_walk inner, columnsOf]

end Sizes

section Cuts

/-- Past the start of a group that ends in the document stands its end, after enclosed tokens. -/
theorem split_at_end {m : Nat} (n : Nat) (ts : List (Token Int)) (closes : levels n ts = some m)
    (fewer : m < n) :
    ∃ body rest, ts = body ++ .groupEnd :: rest ∧ Enclosed true body ∧ levels (n - 1) rest = some m := by
  match ts with
  | [] =>
    cases closes
    omega
  | t :: ts =>
    obtain ⟨k, here, later⟩ := Option.bind_eq_some_iff.mp closes
    cases t with
    | groupEnd =>
      simp only [level, Option.ite_none_right_eq_some, Option.some.injEq] at here
      exact ⟨[], ts, rfl, .nil true, here.2 ▸ later⟩
    | groupStart g =>
      cases here
      -- The inner group is cut off first; what is looked for stands past its end.
      obtain ⟨inner, outer, rfl, inside, further⟩ := split_at_end (n + 1) ts later (by omega)
      obtain ⟨body, rest, rfl, enclosed, ends⟩ := split_at_end n outer further fewer
      exact ⟨.groupStart g :: (inner ++ .groupEnd :: body), rest, by simp, .group g inside enclosed, ends⟩
    | lineBreak b =>
      cases here
      obtain ⟨body, rest, rfl, enclosed, ends⟩ := split_at_end n ts later fewer
      exact ⟨.lineBreak b :: body, rest, rfl, .lineBreak b enclosed, ends⟩
    | _ =>
      cases here
      obtain ⟨body, rest, rfl, enclosed, ends⟩ := split_at_end n ts later fewer
      exact ⟨_ :: body, rest, rfl, .plain rfl (by simp) enclosed, ends⟩
termination_by ts.length

/-- Past a break stand enclosed tokens with no break of its group, and then such a break, the end of
the group or the end of the document. -/
theorem split_at_break {m : Nat} (n : Nat) (ts : List (Token Int)) (closes : levels n ts = some m)
    (fewer : m ≤ n) :
    ∃ inner rest, ts = inner ++ rest ∧ Enclosed false inner ∧
      (rest = [] ∨ (∃ b more, rest = .lineBreak b :: more) ∨ ∃ more, rest = .groupEnd :: more) := by
  match ts with
  | [] => exact ⟨[], [], rfl, .nil false, .inl rfl⟩
  | t :: ts =>
    obtain ⟨k, here, later⟩ := Option.bind_eq_some_iff.mp closes
    cases t with
    | groupEnd => exact ⟨[], .groupEnd :: ts, rfl, .nil false, .inr (.inr ⟨ts, rfl⟩)⟩
    | lineBreak b => exact ⟨[], .lineBreak b :: ts, rfl, .nil false, .inr (.inl ⟨b, ts, rfl⟩)⟩
    | groupStart g =>
      cases here
      obtain ⟨body, outer, rfl, inside, further⟩ := split_at_end (n + 1) ts later (by omega)
      obtain ⟨inner, rest, rfl, enclosed, ends⟩ := split_at_break n outer further fewer
      exact ⟨.groupStart g :: (body ++ .groupEnd :: inner), rest, by simp, .group g inside enclosed, ends⟩
    | _ =>
      cases here
      obtain ⟨inner, rest, rfl, enclosed, ends⟩ := split_at_break n ts later fewer
      exact ⟨_ :: inner, rest, rfl, .plain rfl (by simp) enclosed, ends⟩
termination_by ts.length

theorem split_unbroken (ts : List (Token Int)) :
    ∃ mid rest, ts = mid ++ rest ∧ Unbroken mid ∧ BreakOrEnd rest := by
  induction ts with
  | nil => exact ⟨[], [], rfl, by simp [Unbroken], .nil⟩
  | cons t ts ih =>
    cases whole : Printer.isBreak t with
    | true =>
      cases t with
      | lineBreak b => exact ⟨[], .lineBreak b :: ts, rfl, by simp [Unbroken], .lineBreak b ts⟩
      | _ => cases whole
    | false =>
      obtain ⟨mid, rest, rfl, unbroken, stops⟩ := ih
      refine ⟨t :: mid, rest, rfl, ?_, stops⟩
      intro u member
      rcases List.mem_cons.mp member with rfl | later
      · exact whole
      · exact unbroken u later

/-- In a document with balanced groups every group start and break covers some tokens. -/
theorem covers_some {before after : List (Token Int)} {t : Token Int}
    (balanced : levels 1 (before ++ t :: after) = some 1) (opens : opening t ≠ none) :
    ∃ span, Covers t after span := by
  rw [levels_append] at balanced
  obtain ⟨n, outside, within⟩ := Option.bind_eq_some_iff.mp balanced
  obtain ⟨k, here, later⟩ := Option.bind_eq_some_iff.mp within
  have positive := levels_pos (Nat.le_refl 1) outside
  cases t with
  | groupStart g =>
    cases here
    obtain ⟨body, rest, rfl, enclosed, _⟩ := split_at_end (n + 1) after later (by omega)
    obtain ⟨mid, rest, rfl, unbroken, stops⟩ := split_unbroken rest
    exact ⟨_, .group g enclosed unbroken stops⟩
  | lineBreak b =>
    cases here
    obtain ⟨inner, rest, rfl, enclosed, ends⟩ := split_at_break n after later (by omega)
    rcases ends with rfl | ⟨other, more, rfl⟩ | ⟨more, rfl⟩
    · exact ⟨inner, by simpa using .final b enclosed⟩
    · exact ⟨inner, .next b enclosed other more⟩
    · obtain ⟨mid, rest, rfl, unbroken, stops⟩ := split_unbroken more
      exact ⟨_, .last b enclosed unbroken stops⟩
  | _ => simp [opening] at opens

end Cuts

end Galley.Layout.Coverage
