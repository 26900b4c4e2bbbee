import Mathlib.Data.List.Forall2
import Galley.Layout.Printer

/-! How far a group start or a break reaches, and the layout that knows this beforehand. The size
of every token is read off the tokens that follow it, to the end of the document; the page is then
written from left to right. Nothing here is held back, so this is what a printer with bounded
lookahead has to agree with. -/
namespace Galley.Layout.Extent

/-- What still ends the extent of a group start or a break, after some tokens past it. -/
inductive Reach where
  /-- The group is open, with some groups open inside it: the extent runs past the group's end. -/
  | group (inner : Nat)
  /-- The break's group is open, with some groups open inside it: the extent runs to the next break
  of the same group, or else past the group's end. -/
  | chunk (inner : Nat)
  /-- The group has ended: the extent runs to the next break of any group. -/
  | line
  deriving DecidableEq, Repr

namespace Reach

/-- A group starts. -/
def enter : Reach → Reach
  | .group n => .group (n + 1)
  | .chunk n => .chunk (n + 1)
  | .line => .line

/-- A group ends. -/
def leave : Reach → Reach
  | .group 0 => .line
  | .group (n + 1) => .group n
  | .chunk 0 => .line
  | .chunk (n + 1) => .chunk n
  | .line => .line

/-- A break stands here. It ends the extent, or the extent runs on past it. -/
def meet : Reach → Option Reach
  | .group n => some (.group n)
  | .chunk 0 => none
  | .chunk (n + 1) => some (.chunk (n + 1))
  | .line => none

/-- The extent after one more token, if it runs on. -/
def step (r : Reach) : Token Int → Option Reach
  | .groupStart _ => some r.enter
  | .groupEnd => some r.leave
  | .lineBreak _ => r.meet
  | _ => some r

/-- The extent after some tokens, if it runs on past all of them. -/
def walk (r : Reach) : List (Token Int) → Option Reach
  | [] => some r
  | t :: ts => (r.step t).bind (walk · ts)

end Reach

/-- The columns of a token on a line that nothing breaks. -/
def columns (c : Config Int) : Token Int → Int
  | .text s => c.width s
  | .lineBreak b => b.width
  | _ => 0

/-- The columns of tokens on a line that nothing breaks. -/
def columnsOf (c : Config Int) : List (Token Int) → Int
  | [] => 0
  | t :: ts => columns c t + columnsOf c ts

/-- The columns of the tokens up to where an extent ends, or to the end of the document. -/
def extent (c : Config Int) : Reach → List (Token Int) → Int
  | _, [] => 0
  | r, t :: ts =>
    match r.step t with
    | some r => columns c t + extent c r ts
    | none => 0

/-- The extent that starts with a token: of a whole group, or of a break. -/
def opening : Token Int → Option Reach
  | .groupStart _ => some (.group 0)
  | .lineBreak _ => some (.chunk 0)
  | _ => none

/-- The exact size of a token, given everything that follows it: its own columns, and for a group
start or a break those of its extent. -/
def exactSize (c : Config Int) (t : Token Int) (after : List (Token Int)) : Int :=
  columns c t +
    match opening t with
    | some r => extent c r after
    | none => 0

/-- Writes tokens from left to right, each with its exact size. -/
def layout (c : Config Int) (page : Page Int) : List (Token Int) → Except Fault (Page Int)
  | [] => .ok page
  | t :: ts => do layout c (← page.write t (exactSize c t ts)) ts

/-- The text of a document laid out with its exact sizes. -/
def reference (c : Config Int) (ts : List (Token Int)) : Except Fault Text := do
  return (← layout c (Page.ofConfig c) ts).sink.text

/-- What still ends a token's extent after some tokens past it. Nothing does if it has ended, or
if the token has none. -/
def reach (t : Token Int) (after : List (Token Int)) : Option Reach :=
  (opening t).bind (·.walk after)

/-- Nothing takes back columns. -/
def Forward (c : Config Int) (ts : List (Token Int)) : Prop := ∀ t ∈ ts, 0 ≤ columns c t

theorem walk_append (r : Reach) (ts rest : List (Token Int)) :
    r.walk (ts ++ rest) = (r.walk ts).bind (·.walk rest) := by
  induction ts generalizing r with
  | nil => rfl
  | cons t ts ih =>
    cases next : r.step t with
    | none => simp [Reach.walk, next]
    | some s => simp [Reach.walk, next, ih]

theorem walk_concat (r : Reach) (ts : List (Token Int)) (t : Token Int) :
    r.walk (ts ++ [t]) = (r.walk ts).bind (·.step t) := by
  rw [walk_append]
  congr 1
  funext s
  simp [Reach.walk]

theorem columnsOf_append (c : Config Int) (ts rest : List (Token Int)) :
    columnsOf c (ts ++ rest) = columnsOf c ts + columnsOf c rest := by
  induction ts with
  | nil => simp [columnsOf]
  | cons t ts ih =>
    simp only [List.cons_append, columnsOf, ih]
    omega

/-- An extent goes on where it has not ended yet. -/
theorem extent_append (c : Config Int) (r : Reach) (ts rest : List (Token Int)) :
    extent c r (ts ++ rest) = extent c r ts + ((r.walk ts).map (extent c · rest)).getD 0 := by
  induction ts generalizing r with
  | nil => simp [extent, Reach.walk]
  | cons t ts ih =>
    cases next : r.step t with
    | none => simp [extent, Reach.walk, next]
    | some s =>
      simp only [List.cons_append, extent, Reach.walk, next, ih, Option.bind_some]
      omega

variable {c : Config Int}

/-- An extent that has not ended yet covers everything so far. -/
theorem extent_of_walk {r s : Reach} {ts : List (Token Int)}
    (runs : r.walk ts = some s) : extent c r ts = columnsOf c ts := by
  induction ts generalizing r with
  | nil => rfl
  | cons t ts ih =>
    cases next : r.step t with
    | none => simp [Reach.walk, next] at runs
    | some m =>
      simp only [Reach.walk, next, Option.bind_some] at runs
      simp only [extent, next, columnsOf, ih runs]

theorem extent_nonneg (r : Reach) {ts : List (Token Int)} (forward : Forward c ts) : 0 ≤ extent c r ts := by
  induction ts generalizing r with
  | nil => simp [extent]
  | cons t ts ih =>
    have head := forward t (by simp)
    have tail : Forward c ts := fun t member => forward t (by simp [member])
    cases next : r.step t with
    | none => simp [extent, next]
    | some s =>
      have rest := ih s tail
      simp only [extent, next]
      omega

theorem reach_concat (t : Token Int) (ts : List (Token Int)) (last : Token Int) :
    reach t (ts ++ [last]) = (reach t ts).bind (·.step last) := by
  cases start : opening t with
  | none => simp [reach, start]
  | some r => simp [reach, start, walk_concat]

/-- More tokens add to the size of a token only what its extent still covers. -/
theorem exactSize_append (c : Config Int) (t : Token Int) (ts rest : List (Token Int)) :
    exactSize c t (ts ++ rest) =
      exactSize c t ts + ((reach t ts).map (extent c · rest)).getD 0 := by
  cases start : opening t with
  | none => simp [exactSize, reach, start]
  | some r =>
    simp [exactSize, reach, start, extent_append, Int.add_assoc]

/-- The size so far of a token whose extent has not ended. -/
theorem exactSize_of_reach {t : Token Int} {ts : List (Token Int)} {s : Reach}
    (runs : reach t ts = some s) : exactSize c t ts = columnsOf c (t :: ts) := by
  cases start : opening t with
  | none => simp [reach, start] at runs
  | some r =>
    simp only [reach, start, Option.bind_some] at runs
    simp only [exactSize, start, columnsOf, extent_of_walk runs]

/-- Two tokens that no size tells apart. -/
structure SameShape (c : Config Int) (t u : Token Int) : Prop where
  step : ∀ r : Reach, r.step t = r.step u
  columns : columns c t = columns c u
  opening : opening t = opening u

theorem extent_congr {ts us : List (Token Int)}
    (same : List.Forall₂ (SameShape c) ts us) (r : Reach) : extent c r ts = extent c r us := by
  induction same generalizing r with
  | nil => rfl
  | @cons t u ts us head tail ih =>
    cases next : r.step t with
    | none => simp [extent, next, ← head.step]
    | some s => simp [extent, next, ← head.step, head.columns, ih]

theorem exactSize_congr {t u : Token Int} {ts us : List (Token Int)}
    (head : SameShape c t u) (same : List.Forall₂ (SameShape c) ts us) :
    exactSize c t ts = exactSize c u us := by
  rw [exactSize, exactSize, head.columns, head.opening]
  cases opening u with
  | none => rfl
  | some r => simp only [extent_congr same]

/-- Tokens of the same shape that write alike lay out alike. -/
theorem layout_congr {ts us : List (Token Int)} (same : List.Forall₂ (SameShape c) ts us)
    (alike : List.Forall₂ (fun t u => ∀ (page : Page Int) size, page.write t size = page.write u size) ts us)
    (page : Page Int) : layout c page ts = layout c page us := by
  induction same generalizing page with
  | nil => rfl
  | @cons t u ts us head tail ih =>
    obtain ⟨first, rest⟩ := List.forall₂_cons.mp alike
    simp only [layout, exactSize_congr head tail, first, ih rest]

end Galley.Layout.Extent
