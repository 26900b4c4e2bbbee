import Galley.Proofs.PageWriting

/-! What a printer has taken in, apart from how it is stored: the stream of tokens that went into
the buffer, and which of them are still undecided. A stored position is an index of this stream,
so it keeps its meaning while tokens leave at the front and arrive at the back. -/
namespace Galley.Layout.Pending
open Extent PageWriting

/-- What still ends the extent of the token at an index. -/
def spot (stream : List (Token Int)) (i : Nat) : Option Reach :=
  match stream.drop i with
  | [] => none
  | t :: after => reach t after

/-- The size of the token at an index, as far as the stream goes. -/
def sizeAt (c : Config Int) (stream : List (Token Int)) (i : Nat) : Int :=
  match stream.drop i with
  | [] => 0
  | t :: after => exactSize c t after

/-- The stream taken in, with the undecided indices in it: those of open groups, outermost first,
and those of ended groups. Totals count from `base`; `depth` groups are open. -/
structure View where
  stream : List (Token Int)
  base : Int
  opened : List Nat
  ended : List Nat
  depth : Nat

namespace View

/-- The undecided indices. -/
def waiting (v : View) : List Nat := v.opened ++ v.ended

/-- The size stored for an index: what it counts from while undecided, and then its own. -/
def size (c : Config Int) (v : View) (i : Nat) : Int :=
  if i ∈ v.waiting then -(v.base + columnsOf c (v.stream.take i)) else sizeAt c v.stream i

/-- An index is decided. -/
def release (v : View) (i : Nat) : View :=
  { v with opened := v.opened.erase i, ended := v.ended.erase i }

/-- A decided token is taken in. -/
def hold (v : View) (t : Token Int) : View := { v with stream := v.stream ++ [t] }

/-- An undecided token is taken in. -/
def await (v : View) (t : Token Int) : View :=
  { v with stream := v.stream ++ [t], opened := v.opened ++ [v.stream.length] }

/-- A group end is taken in: the undecided indices of the innermost group now wait for a break of
any group. -/
def shut (v : View) (outer inner : List Nat) : View :=
  { v with stream := v.stream ++ [.groupEnd], opened := outer, ended := v.ended ++ inner }

end View

/-- The undecided indices of open groups, innermost first, where `n` further groups are open inside
the first of them: of each group its start and at most one break. Only outer ones may be missing. -/
inductive IndicesNested (stream : List (Token Int)) : Nat → List Nat → Prop where
  | nil (n : Nat) : IndicesNested stream n []
  | group {n i : Nat} {outer : List Nat} (here : spot stream i = some (.group n))
      (rest : IndicesNested stream (n + 1) outer) : IndicesNested stream n (i :: outer)
  | alone {n i : Nat} (here : spot stream i = some (.chunk n)) : IndicesNested stream n [i]
  | chunk {n i j : Nat} {outer : List Nat} (here : spot stream i = some (.chunk n))
      (own : spot stream j = some (.group n)) (rest : IndicesNested stream (n + 1) outer) :
      IndicesNested stream n (i :: j :: outer)

/-- The undecided indices fit the stream from some index on. What is decided there has an extent
that ends here, if it has not ended: `stops` says which extents end here. -/
structure StreamShaped (stops : Reach → Prop) (offset : Nat) (v : View) : Prop where
  bounds : ∀ i ∈ v.waiting, offset ≤ i ∧ i < v.stream.length
  distinct : v.waiting.Nodup
  ascending : v.opened.Pairwise (· < ·)
  nested : IndicesNested v.stream 0 v.opened.reverse
  line : ∀ i ∈ v.ended, spot v.stream i = some .line
  settled : ∀ i, offset ≤ i → i < v.stream.length → i ∉ v.waiting →
    ∀ r, spot v.stream i = some r → stops r

variable {stream : List (Token Int)} {i : Nat}

theorem spot_concat (bound : i < stream.length)
    (t : Token Int) : spot (stream ++ [t]) i = (spot stream i).bind (·.step t) := by
  simp only [spot, List.drop_append_of_le_length (Nat.le_of_lt bound), List.drop_eq_getElem_cons bound,
    List.cons_append, reach_concat]

theorem spot_last (stream : List (Token Int)) (t : Token Int) :
    spot (stream ++ [t]) stream.length = opening t := by
  cases start : opening t <;> simp [spot, reach, start, Reach.walk]

theorem sizeAt_last (c : Config Int) (stream : List (Token Int)) (t : Token Int) :
    sizeAt c (stream ++ [t]) stream.length = columns c t := by
  cases start : opening t <;> simp [sizeAt, exactSize, start, extent]

variable {t : Token Int}

/-- A size does not change when a token arrives that its extent does not cover. -/
theorem sizeAt_concat {c : Config Int}
    (bound : i < stream.length) (stops : ∀ r, spot stream i = some r → r.step t = none) :
    sizeAt c (stream ++ [t]) i = sizeAt c stream i := by
  simp only [spot, List.drop_eq_getElem_cons bound] at stops
  simp only [sizeAt, List.drop_append_of_le_length (Nat.le_of_lt bound),
    List.drop_eq_getElem_cons bound, List.cons_append, exactSize_append]
  cases runs : reach stream[i] (stream.drop (i + 1)) with
  | none => simp
  | some r => simp [extent, stops r runs]

/-- An undecided token covers everything after it. -/
theorem sizeAt_of_spot {c : Config Int} {r : Reach}
    (runs : spot stream i = some r) : sizeAt c stream i = columnsOf c (stream.drop i) := by
  unfold spot at runs
  unfold sizeAt
  split at runs
  · cases runs
  · rename_i t after rest
    rw [rest]
    exact exactSize_of_reach runs

/-- What an extent can turn into: it stays of its kind until its group ends. -/
inductive ExtentGrows : Reach → Reach → Prop where
  | group (k n : Nat) : ExtentGrows (.group k) (.group n)
  | chunk (k n : Nat) : ExtentGrows (.chunk k) (.chunk n)
  | line (r : Reach) : ExtentGrows r .line

theorem step_kindred {r s : Reach} (runs : r.step t = some s) : ExtentGrows r s := by
  cases r with
  | group k | chunk k => cases t <;> cases k <;> cases runs <;> constructor
  | line => cases t <;> cases runs <;> constructor

theorem walk_kindred {r s : Reach} {ts : List (Token Int)} (runs : r.walk ts = some s) :
    ExtentGrows r s := by
  induction ts generalizing r with
  | nil =>
    cases runs
    cases s <;> constructor
  | cons t ts ih =>
    obtain ⟨m, first, rest⟩ := Option.bind_eq_some_iff.mp runs
    cases step_kindred first with
    | group | chunk => cases ih rest <;> constructor
    | line r => cases ih rest; constructor

/-- While a group is open, the groups inside it are those the depth has grown by. -/
theorem levels_of_group {j n k d : Nat} {ts : List (Token Int)}
    (runs : Reach.walk (.group j) ts = some (.group n)) (nested : levels k ts = some d) :
    d + j = k + n := by
  induction ts generalizing j k with
  | nil =>
    cases runs
    cases nested
    rfl
  | cons t ts ih =>
    obtain ⟨r, step, rest⟩ := Option.bind_eq_some_iff.mp runs
    obtain ⟨m, here, deeper⟩ := Option.bind_eq_some_iff.mp nested
    cases t with
    | groupStart g =>
      cases step
      cases here
      have := ih rest deeper
      omega
    | groupEnd =>
      cases step
      cases j with
      | zero => cases walk_kindred rest
      | succ j =>
        simp only [level, Option.ite_none_right_eq_some, Option.some.injEq] at here
        have := ih rest deeper
        omega
    | text | lineBreak | indent | missing => cases step; cases here; exact ih rest deeper

theorem spot_token {r : Reach} (here : spot stream i = some r) :
    ∃ t after, stream.drop i = t :: after ∧ reach t after = some r := by
  unfold spot at here
  split at here
  · cases here
  · exact ⟨_, _, ‹_›, here⟩

/-- A group start that waits for the end of its group lies in a group that is open. -/
theorem depth_of_group {offset i n k d : Nat} (low : offset ≤ i)
    (here : spot stream i = some (.group n)) (positive : 1 ≤ k)
    (nested : levels k (stream.drop offset) = some d) : n + 2 ≤ d := by
  obtain ⟨t, after, rest, runs⟩ := spot_token here
  have split : stream.drop offset = (stream.drop offset).take (i - offset) ++ t :: after := by
    have index : offset + (i - offset) = i := by omega
    rw [← rest, ← index, ← List.drop_drop, index, List.take_append_drop]
  rw [split, levels_append] at nested
  obtain ⟨m, before, inside⟩ := Option.bind_eq_some_iff.mp nested
  have least := levels_pos positive before
  obtain ⟨b, entered, deeper⟩ := Option.bind_eq_some_iff.mp inside
  cases t with
  | groupStart g =>
    cases entered
    have := levels_of_group runs deeper
    omega
  | lineBreak => cases walk_kindred runs
  | text | groupEnd | indent | missing => cases runs

/-- Only a group start reaches for the end of its own group. -/
theorem token_of_group {i n : Nat}
    (here : spot stream i = some (.group n)) : ∃ g, stream[i]? = some (.groupStart g) := by
  obtain ⟨t, after, rest, runs⟩ := spot_token here
  cases t with
  | groupStart g => exact ⟨g, by simp [← List.head?_drop, rest]⟩
  | lineBreak => cases walk_kindred runs
  | text | groupEnd | indent | missing => cases runs

/-- Only a break reaches for the next break of its group. -/
theorem token_of_chunk {i n : Nat}
    (here : spot stream i = some (.chunk n)) : ∃ b, stream[i]? = some (.lineBreak b) := by
  obtain ⟨t, after, rest, runs⟩ := spot_token here
  cases t with
  | lineBreak b => exact ⟨b, by simp [← List.head?_drop, rest]⟩
  | groupStart => cases walk_kindred runs
  | text | groupEnd | indent | missing => cases runs

variable {stops : Reach → Prop} {offset : Nat} {v : View}

@[simp] theorem mem_waiting (v : View) (i : Nat) : i ∈ v.waiting ↔ i ∈ v.opened ∨ i ∈ v.ended := by
  simp [View.waiting]

/-- A token that lets every extent run on moves the nesting by what it does to the depth. -/
theorem nested_push {n : Nat} {l : List Nat}
    (shift : Nat → Nat) (nested : IndicesNested stream n l) (bounds : ∀ i ∈ l, i < stream.length)
    (groups : ∀ k, n ≤ k → (Reach.group k).step t = some (.group (shift k)))
    (chunks : ∀ k, n ≤ k → (Reach.chunk k).step t = some (.chunk (shift k)))
    (next : ∀ k, n ≤ k → shift (k + 1) = shift k + 1) : IndicesNested (stream ++ [t]) (shift n) l := by
  induction nested with
  | nil n => exact .nil _
  | @group n i outer here rest ih =>
    have deeper := ih (fun j member => bounds j (by simp [member])) (fun k le => groups k (by omega))
      (fun k le => chunks k (by omega)) (fun k le => next k (by omega))
    rw [next n (Nat.le_refl n)] at deeper
    refine .group ?_ deeper
    simp [spot_concat (bounds i (by simp)), here, groups n (Nat.le_refl n)]
  | @alone n i here =>
    exact .alone (by simp [spot_concat (bounds i (by simp)), here, chunks n (Nat.le_refl n)])
  | @chunk n i j outer here own rest ih =>
    have deeper := ih (fun j member => bounds j (by simp [member])) (fun k le => groups k (by omega))
      (fun k le => chunks k (by omega)) (fun k le => next k (by omega))
    rw [next n (Nat.le_refl n)] at deeper
    refine .chunk ?_ ?_ deeper
    · simp [spot_concat (bounds i (by simp)), here, chunks n (Nat.le_refl n)]
    · simp [spot_concat (bounds j (by simp)), own, groups n (Nat.le_refl n)]

/-- The outermost index may go. -/
theorem nested_dropLast {n : Nat} {l : List Nat}
    (nested : IndicesNested stream n l) : IndicesNested stream n l.dropLast := by
  induction nested with
  | nil n => exact .nil n
  | @group n i outer here rest ih =>
    cases outer with
    | nil => exact .nil n
    | cons j outer => exact .group here ih
  | alone here => exact .nil _
  | @chunk n i j outer here own rest ih =>
    cases outer with
    | nil => exact .alone here
    | cons k outer => exact .chunk here own ih

/-- Every index of a nesting is undecided. -/
theorem nested_spot {n : Nat} {l : List Nat}
    (nested : IndicesNested stream n l) (member : i ∈ l) : ∃ r, spot stream i = some r := by
  induction nested with
  | nil n => cases member
  | group here rest ih =>
    rcases List.mem_cons.mp member with rfl | member
    · exact ⟨_, here⟩
    · exact ih member
  | alone here =>
    rcases List.mem_singleton.mp member with rfl
    exact ⟨_, here⟩
  | chunk here own rest ih =>
    rcases List.mem_cons.mp member with rfl | member
    · exact ⟨_, here⟩
    · rcases List.mem_cons.mp member with rfl | member
      · exact ⟨_, own⟩
      · exact ih member

theorem shaped_spot (shaped : StreamShaped stops offset v) (member : i ∈ v.waiting) :
    ∃ r, spot v.stream i = some r := by
  rcases (mem_waiting v i).mp member with opened | ended
  · exact nested_spot shaped.nested (by simpa using opened)
  · exact ⟨_, shaped.line i ended⟩

theorem release_of_free (free : i ∉ v.waiting) : v.release i = v := by
  simp only [mem_waiting, not_or] at free
  simp [View.release, List.erase_of_not_mem free.1, List.erase_of_not_mem free.2]

theorem shaped_mono {wider : Reach → Prop} (shaped : StreamShaped stops offset v)
    (wide : ∀ r, stops r → wider r) : StreamShaped wider offset v :=
  { shaped with
    settled := fun i low high free r here => wide r (shaped.settled i low high free r here) }

/-- What was decided stays decided when a token arrives that ends what ends here. -/
private theorem settled_push {w : View} (shaped : StreamShaped stops offset v)
    (grown : w.stream = v.stream ++ [t]) (ends : ∀ r, stops r → r.step t = none) (kept : ∀ i ∈ v.waiting, i ∈ w.waiting)
    (last : opening t = none ∨ v.stream.length ∈ w.waiting) :
    ∀ i, offset ≤ i → i < w.stream.length → i ∉ w.waiting →
      ∀ r, spot w.stream i = some r → False := by
  intro i low high free r here
  rw [grown] at high here
  by_cases old : i < v.stream.length
  · have before := shaped.settled i low old (fun member => free (kept i member))
    rw [spot_concat old] at here
    cases earlier : spot v.stream i with
    | none => simp [earlier] at here
    | some s => simp [earlier, ends s (before s earlier)] at here
  · have new : i = v.stream.length := by
      simp only [List.length_append, List.length_singleton] at high
      omega
    subst new
    rw [spot_last] at here
    rcases last with plain | member
    · simp [plain] at here
    · exact free member

private theorem line_push (shaped : StreamShaped stops offset v)
    (runs : Reach.line.step t = some .line) (member : i ∈ v.ended) :
    spot (v.stream ++ [t]) i = some .line := by
  have bound := (shaped.bounds i (by simp [member])).2
  simp [spot_concat bound, shaped.line i member, runs]

/-- Text and indentation leave every extent as it is. -/
theorem shaped_plain (shaped : StreamShaped (fun _ => False) offset v)
    (plain : opening t = none) (runs : ∀ r : Reach, r.step t = some r) :
    StreamShaped (fun _ => False) offset (v.hold t) where
  bounds i member := by
    have bound := shaped.bounds i member
    simp only [View.hold, List.length_append, List.length_singleton]
    omega
  distinct := shaped.distinct
  ascending := shaped.ascending
  nested := nested_push id shaped.nested
    (fun i member => (shaped.bounds i (by simp_all [View.hold])).2) (fun k _ => runs _) (fun k _ => runs _)
    (fun k _ => rfl)
  line i member := line_push shaped (runs _) member
  settled := settled_push shaped rfl (fun _ never => never.elim) (fun _ member => member) (.inl plain)

private theorem await_bounds (shaped : StreamShaped stops offset v) (le : offset ≤ v.stream.length)
    (t : Token Int) : ∀ i ∈ (v.await t).waiting, offset ≤ i ∧ i < (v.await t).stream.length := by
  intro i member
  simp only [mem_waiting, View.await, List.mem_append, List.mem_singleton, List.length_append,
    List.length_singleton] at member ⊢
  rcases member with (member | rfl) | member
  · have bound := shaped.bounds i (by simp [member])
    omega
  · omega
  · have bound := shaped.bounds i (by simp [member])
    omega

private theorem await_distinct (shaped : StreamShaped stops offset v) (t : Token Int) :
    (v.await t).waiting.Nodup := by
  have fresh : v.stream.length ∉ v.waiting := fun member =>
    Nat.lt_irrefl _ (shaped.bounds _ member).2
  have before := shaped.distinct
  simp only [View.waiting, View.await, List.append_assoc, List.singleton_append] at before fresh ⊢
  exact List.perm_middle.nodup_iff.mpr (List.nodup_cons.mpr ⟨fresh, before⟩)

private theorem await_ascending (shaped : StreamShaped stops offset v) (t : Token Int) :
    (v.await t).opened.Pairwise (· < ·) := by
  simp only [View.await, List.pairwise_append, List.mem_singleton]
  refine ⟨shaped.ascending, List.pairwise_singleton _ _, ?_⟩
  rintro i member j rfl
  exact (shaped.bounds i (by simp [member])).2

/-- A group start lies inside everything that is open, and ends nothing. -/
theorem shaped_start (shaped : StreamShaped (fun _ => False) offset v) (le : offset ≤ v.stream.length)
    (g : Group Int) : StreamShaped (fun _ => False) offset (v.await (.groupStart g)) where
  bounds := await_bounds shaped le _
  distinct := await_distinct shaped _
  ascending := await_ascending shaped _
  nested := by
    have deeper := nested_push (t := .groupStart g) (· + 1) shaped.nested
      (fun i member => (shaped.bounds i (by simp_all)).2) (fun _ _ => rfl) (fun _ _ => rfl)
      (fun _ _ => rfl)
    simp only [View.await, List.reverse_append, List.reverse_singleton, List.singleton_append]
    exact .group (by rw [spot_last]; rfl) deeper
  line i member := line_push shaped rfl member
  settled := settled_push shaped rfl (fun _ never => never.elim)
    (fun i member => by simp_all [View.await]; grind) (.inr (by simp [View.await]))

/-- A group end ends no extent, but turns those of its own group towards the next break. -/
theorem shaped_end {outer inner : List Nat} (shaped : StreamShaped (fun _ => False) offset v)
    (parts : v.opened = outer ++ inner.reverse)
    (own : ∀ i ∈ inner, spot v.stream i = some (.chunk 0) ∨ spot v.stream i = some (.group 0))
    (nested : IndicesNested v.stream 1 outer.reverse) :
    StreamShaped (fun _ => False) offset (v.shut outer inner) where
  bounds i member := by
    have bound := shaped.bounds i (by simp_all [View.shut]; grind)
    simp only [View.shut, List.length_append, List.length_singleton]
    omega
  distinct := by
    have before := shaped.distinct
    have same : (outer ++ (v.ended ++ inner)).Perm (outer ++ inner.reverse ++ v.ended) := by
      rw [List.append_assoc]
      exact (List.perm_append_comm.trans ((List.reverse_perm inner).symm.append_right _)).append_left _
    simp only [View.waiting, View.shut, parts] at before ⊢
    exact same.nodup_iff.mpr before
  ascending := by
    have before := shaped.ascending
    rw [parts] at before
    exact (List.pairwise_append.mp before).1
  nested := by
    refine nested_push (· - 1) nested (fun i member => (shaped.bounds i ?_).2) ?_ ?_ ?_
    · simp only [List.mem_reverse] at member
      simp [parts, member]
    · rintro (_ | k) le
      · omega
      · rfl
    · rintro (_ | k) le
      · omega
      · rfl
    · intro k le
      omega
  line i member := by
    simp only [View.shut, List.mem_append] at member ⊢
    rcases member with member | member
    · exact line_push shaped rfl member
    · have bound := (shaped.bounds i (by simp [parts, member])).2
      rcases own i member with here | here <;> simp [spot_concat bound, here, Reach.step, Reach.leave]
  settled := settled_push shaped rfl (fun _ never => never.elim)
    (fun i member => by simp_all [View.shut]; grind) (.inl rfl)

/-- A break ends what stops here, and lies in the innermost group. -/
theorem shaped_break (shaped : StreamShaped (fun r => r.meet = none) offset v)
    (le : offset ≤ v.stream.length) (cleared : v.ended = [])
    (inside : v.opened.reverse = [] ∨ ∃ i outer, v.opened.reverse = i :: outer ∧
      spot v.stream i = some (.group 0) ∧ IndicesNested v.stream 1 outer) (b : Break Int) :
    StreamShaped (fun _ => False) offset (v.await (.lineBreak b)) where
  bounds := await_bounds shaped le _
  distinct := await_distinct shaped _
  ascending := await_ascending shaped _
  nested := by
    have here : spot (v.stream ++ [.lineBreak b]) v.stream.length = some (.chunk 0) := by
      rw [spot_last]
      rfl
    simp only [View.await, List.reverse_append, List.reverse_singleton, List.singleton_append]
    rcases inside with top | ⟨i, outer, order, own, nested⟩
    · rw [top]
      exact .alone here
    · have bound : ∀ j ∈ i :: outer, j < v.stream.length := by
        intro j member
        rw [← order, List.mem_reverse] at member
        exact (shaped.bounds j (by simp [member])).2
      rw [order]
      refine .chunk here ?_ (nested_push id nested ?_ ?_ ?_ ?_)
      · simp [spot_concat (bound i (by simp)), own, Reach.step, Reach.meet]
      · exact fun j member => bound j (by simp [member])
      · exact fun _ _ => rfl
      · rintro (_ | k) le
        · omega
        · rfl
      · exact fun _ _ => rfl
  line i member := by simp [View.await, cleared] at member
  settled := settled_push shaped rfl (fun _ stop => stop)
    (fun i member => by simp_all [View.await]) (.inr (by simp [View.await]))

variable (shaped : StreamShaped stops offset v)
include shaped

theorem mem_release (j : Nat) : j ∈ (v.release i).waiting ↔ j ∈ v.waiting ∧ j ≠ i := by
  have distinct := List.nodup_append.mp shaped.distinct
  simp only [mem_waiting, View.release, distinct.1.mem_erase_iff, distinct.2.1.mem_erase_iff]
  grind

private theorem release_distinct (i : Nat) : (v.release i).waiting.Nodup :=
  shaped.distinct.sublist (List.erase_sublist.append List.erase_sublist)

/-- An undecided index whose extent ends here is decided. -/
theorem shaped_release (stop : ∀ r, spot v.stream i = some r → stops r)
    (nested : IndicesNested v.stream 0 (v.opened.erase i).reverse) : StreamShaped stops offset (v.release i) where
  bounds j member := shaped.bounds j ((mem_release shaped j).mp member).1
  distinct := release_distinct shaped i
  ascending := shaped.ascending.sublist List.erase_sublist
  nested := nested
  line j member := shaped.line j (List.mem_of_mem_erase member)
  settled j low high free r here := by
    by_cases same : j = i
    · exact stop r (same ▸ here)
    · exact shaped.settled j low high (fun member => free ((mem_release shaped j).mpr ⟨member, same⟩)) r here

/-- An undecided index at the front is the outermost of the open groups, if it is one of theirs. -/
theorem opened_first {first : Nat} {rest : List Nat}
    (order : v.opened = first :: rest) (member : offset ∈ v.opened) : first = offset := by
  have ascending := shaped.ascending
  have least := (shaped.bounds first (by simp [order])).1
  rw [order] at member ascending
  rcases List.mem_cons.mp member with same | later
  · exact same.symm
  · have := (List.pairwise_cons.mp ascending).1 offset later
    omega

/-- The index at the front goes, decided or not. -/
theorem shaped_flush : StreamShaped stops (offset + 1) (v.release offset) where
  bounds j member := by
    obtain ⟨member, other⟩ := (mem_release shaped j).mp member
    have bound := shaped.bounds j member
    exact ⟨by omega, bound.2⟩
  distinct := release_distinct shaped offset
  ascending := shaped.ascending.sublist List.erase_sublist
  nested := by
    by_cases member : offset ∈ v.opened
    · cases order : v.opened with
      | nil => simp [order] at member
      | cons first rest =>
        have same := opened_first shaped order member
        have nested := nested_dropLast shaped.nested
        rw [order, List.reverse_cons, List.dropLast_concat] at nested
        simpa [View.release, order, same] using nested
    · simpa [View.release, List.erase_of_not_mem member] using shaped.nested
  line j member := shaped.line j (List.mem_of_mem_erase member)
  settled j low high free r here :=
    shaped.settled j (by omega) high
      (fun member => free ((mem_release shaped j).mpr ⟨member, by omega⟩)) r here

end Galley.Layout.Pending
