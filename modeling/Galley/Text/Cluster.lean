import Galley.Text.Utf8
import Galley.Text.Cluster.Ranges

/-!
Grapheme clusters: what a reader takes for one character. The boundary rules are those of the
extended clusters of the character standard, run by a machine that remembers one state.
-/

namespace Galley.Text

/-- Whether a code point lies in one of the ranges. -/
def inRanges (ranges : List (Nat × Nat)) (c : Nat) : Bool :=
  ranges.any fun (lo, hi) => lo ≤ c && c ≤ hi

/-- What a character is to the boundary rules. -/
inductive BreakClass where
  | any | cr | lf | control | prepend | extend | regional | spacingMark
  | hangulL | hangulV | hangulT | hangulLV | hangulLVT | joiner | pictograph
  deriving DecidableEq, Repr

/-- The boundary class of a code point. -/
def breakClass (c : Nat) : BreakClass :=
  if c < 0x20 then if c == 0x0d then .cr else if c == 0x0a then .lf else .control
  else if c < 0x7f then .any
  else if c == 0x200d then .joiner
  else if 0x1f1e6 ≤ c && c ≤ 0x1f1ff then .regional
  else if 0xac00 ≤ c && c ≤ 0xd7a3 then if (c - 0xac00) % 28 == 0 then .hangulLV else .hangulLVT
  else if 0x1100 ≤ c && c ≤ 0x115f || 0xa960 ≤ c && c ≤ 0xa97c then .hangulL
  else if 0x1160 ≤ c && c ≤ 0x11a7 || 0xd7b0 ≤ c && c ≤ 0xd7c6 then .hangulV
  else if 0x11a8 ≤ c && c ≤ 0x11ff || 0xd7cb ≤ c && c ≤ 0xd7fb then .hangulT
  else if inRanges controlRanges c then .control
  else if inRanges extendRanges c then .extend
  else if inRanges spacingMarkRanges c then .spacingMark
  else if inRanges prependRanges c then .prepend
  else if inRanges pictographRanges c then .pictograph
  else .any

/-- What the machine remembers of the characters before a possible boundary. -/
inductive ClusterState where
  | any | cr | control | hangulL | hangulLV | hangulLVT | prepend
  | pictograph | pictographJoiner | regionalOdd | regionalEven
  deriving DecidableEq, Repr

/-- The state after a character of a class, and whether a boundary stands before it. -/
abbrev ClusterStep := ClusterState × Bool

/-- Steps that only the class decides, with the number of the rule that says so. -/
def classStep : BreakClass → Option (ClusterStep × Nat)
  | .any => none
  | .cr => some ((.cr, true), 50)
  | .lf | .control => some ((.control, true), 50)
  | .hangulL => some ((.hangulL, true), 9990)
  | .hangulLV | .hangulV => some ((.hangulLV, true), 9990)
  | .hangulLVT | .hangulT => some ((.hangulLVT, true), 9990)
  | .extend | .joiner => some ((.any, false), 90)
  | .spacingMark => some ((.any, false), 91)
  | .prepend => some ((.prepend, true), 9990)
  | .pictograph => some ((.pictograph, true), 9990)
  | .regional => some ((.regionalOdd, true), 9990)

/-- Steps that only the state decides, with the number of the rule that says so. -/
def stateStep : ClusterState → Option (ClusterStep × Nat)
  | .cr | .control => some ((.any, true), 40)
  | .prepend => some ((.any, false), 92)
  | _ => none

/-- Steps that state and class decide together. They come before all others. -/
def jointStep : ClusterState → BreakClass → Option ClusterStep
  | .cr, .lf => some (.any, false)
  | .hangulL, .hangulL => some (.hangulL, false)
  | .hangulL, .hangulV | .hangulL, .hangulLV => some (.hangulLV, false)
  | .hangulL, .hangulLVT => some (.hangulLVT, false)
  | .hangulLV, .hangulV => some (.hangulLV, false)
  | .hangulLV, .hangulT => some (.hangulLVT, false)
  | .hangulLVT, .hangulT => some (.hangulLVT, false)
  | .pictograph, .extend => some (.pictograph, false)
  | .pictograph, .joiner => some (.pictographJoiner, false)
  | .pictographJoiner, .pictograph => some (.pictograph, false)
  | .regionalOdd, .regional => some (.regionalEven, false)
  | .regionalEven, .regional => some (.regionalOdd, true)
  | _, _ => none

/-- One step of the machine: of two rules that both apply, the one with the lower number wins. -/
def clusterStep (s : ClusterState) (k : BreakClass) : ClusterStep :=
  match jointStep s k with
  | some r => r
  | none =>
    match stateStep s, classStep k with
    | some (r, m), some (r', n) => if m < n then r else r'
    | some (r, _), none => r
    | none, some (r, _) => r
    | none, none => (.any, true)

/-- Splits characters into clusters; `cluster` is the one being read, backwards. -/
private def clustersFrom (s : ClusterState) (cluster : List Nat) : List Nat → List (List Nat)
  | [] => if cluster.isEmpty then [] else [cluster.reverse]
  | c :: cs =>
    let (s', boundary) := clusterStep s (breakClass c)
    if boundary && !cluster.isEmpty then cluster.reverse :: clustersFrom s' [c] cs
    else clustersFrom s' (c :: cluster) cs

/-- The grapheme clusters of a list of code points. -/
def clusters (cs : List Nat) : List (List Nat) := clustersFrom .any [] cs

private theorem clustersFrom_flatten (s : ClusterState) (cluster cs : List Nat) :
    (clustersFrom s cluster cs).flatten = cluster.reverse ++ cs := by
  induction cs generalizing s cluster with
  | nil => cases cluster <;> simp [clustersFrom]
  | cons c cs ih =>
    simp only [clustersFrom]
    split <;> simp [ih]

/-- The clusters hold all the code points, in their order. -/
theorem clusters_flatten (cs : List Nat) : (clusters cs).flatten = cs := clustersFrom_flatten .any [] cs

/-- Printable ASCII characters are clusters of their own. -/
theorem clusters_printable {cs : List Nat} (printable : ∀ c ∈ cs, 0x20 ≤ c ∧ c < 0x7f) :
    clusters cs = cs.map ([·]) := by
  have plain {c : Nat} (member : c ∈ cs) : breakClass c = .any := by
    have range := printable c member
    simp [breakClass, range.2, Nat.not_lt.mpr range.1]
  have next (c : Nat) {ds : List Nat} (inside : ds ⊆ cs) : clustersFrom .any [c] ds = (c :: ds).map ([·]) := by
    induction ds generalizing c with
    | nil => rfl
    | cons d ds ih =>
      have boundary : clusterStep .any (breakClass d) = (.any, true) := by rw [plain (inside List.mem_cons_self)]; rfl
      simp only [clustersFrom, boundary, List.isEmpty_cons, Bool.not_false, Bool.and_self, ↓reduceIte,
        ih d fun _ member => inside (List.mem_cons_of_mem _ member)]
      rfl
  cases cs with
  | nil => rfl
  | cons c cs =>
    have first : clusterStep .any (breakClass c) = (.any, true) := by rw [plain List.mem_cons_self]; rfl
    simp only [clusters, clustersFrom, first, List.isEmpty_nil, Bool.not_true, Bool.and_false, Bool.false_eq_true,
      ↓reduceIte, next c fun _ member => List.mem_cons_of_mem _ member]

end Galley.Text
