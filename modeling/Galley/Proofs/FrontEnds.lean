import Galley.Json.Layout
import Galley.Sql.Source
import Galley.Yaml.Layout
import Galley.Proofs.Documents
import Galley.Proofs.Twinning

/-! What the languages ask of a printer. Of what a selection asks, options decide only how keywords are
written, how lists break and how deep a level is. Options that agree on keywords and comments lead to twins,
whatever they say about layout: the same texts and breaks, in groups and under indentation that differ as
the options do. So every statement, value and document keeps the contract of emitting, under all options
that a printer accepts. -/
namespace Galley.Layout.FrontEnds
open Twinning

variable {ι κ : Type} [Columns ι] [Columns κ] {R : Call ι → Call κ → Prop} {o : Options ι} {o' : Options κ}
  {xs us : List (Call ι)} {ys vs : List (Call κ)}

/-- The columns of one level of indentation. -/
abbrev step (o : Options ι) : ι := o.config.withDefaults.unit

/-- Options that write keywords and comments alike. The groups and the indentation that they lead to are
related by `R`. -/
structure OptionsAlike (R : Call ι → Call κ → Prop) (o : Options ι) (o' : Options κ) : Prop where
  keyword (s : Text) : o.keyword s = o'.keyword s
  comments : o.comments = o'.comments
  list : R (.groupStart o.listBreaks (step o)) (.groupStart o'.listBreaks (step o'))
  clause : R (.consistentBox (step o)) (.consistentBox (step o'))
  box : R (.consistentBox 0) (.consistentBox 0)
  indent : R (.indent (step o)) (.indent (step o'))

section Twins

theorem twins_cons {k : Call ι} {j : Call κ} (first : CallsTwinned R [k] [j]) (rest : CallsTwinned R xs ys) :
    CallsTwinned R (k :: xs) (j :: ys) := .append first rest

omit [Columns ι] [Columns κ] in
/-- What is asked for element by element is related if it is for each element. -/
theorem flatMap_related {α : Type} {related : List (Call ι) → List (Call κ) → Prop} (nil : related [] [])
    (append : ∀ {xs ys us vs}, related xs ys → related us vs → related (xs ++ us) (ys ++ vs))
    {f : α → List (Call ι)} {g : α → List (Call κ)} (each : ∀ a, related (f a) (g a)) (l : List α) :
    related (l.flatMap f) (l.flatMap g) := by
  induction l with
  | nil => exact nil
  | cons a l ih =>
    simp only [List.flatMap_cons]
    exact append (each a) ih

theorem twins_isEmpty (twins : CallsTwinned R xs ys) : xs.isEmpty = ys.isEmpty := by
  induction twins with
  | @append xs us ys vs _ _ first second =>
    rw [Bool.eq_iff_iff] at first second ⊢
    simp only [List.isEmpty_iff, List.append_eq_nil_iff] at first second ⊢
    exact and_congr first second
  | _ => rfl

/-- Indented after an opening text and a break, and closed on a line of its own. -/
theorem twins_nested {k : Call ι} {j : Call κ} {delta : ι} {other : κ} (left right : Text)
    (box : R (.consistentBox 0) (.consistentBox 0)) (indent : R (.indent delta) (.indent other))
    (last : CallsTwinned R [k] [j]) (inner : CallsTwinned R xs ys) :
    CallsTwinned R ([.consistentBox 0, .text left, .indent delta, .softBreak] ++ (xs ++ [.outdent, k, .text right]) ++
        [.groupEnd])
      ([.consistentBox 0, .text left, .indent other, .softBreak] ++ (ys ++ [.outdent, j, .text right]) ++
        [.groupEnd]) := by
  have body : CallsTwinned R (.text left :: (.indent delta :: (.softBreak :: xs) ++ [.outdent]) ++ [k, .text right])
      (.text left :: (.indent other :: (.softBreak :: ys) ++ [.outdent]) ++ [j, .text right]) :=
    .append (twins_cons (.text left) (.indented indent (twins_cons .softBreak inner)))
      (twins_cons last (.text right))
  have whole := CallsTwinned.group box body
  simpa [Call.consistentBox] using whole

end Twins

section Comments

theorem comments_sealed (kin : OptionsAlike R o o') (items : List Comment) :
    CallsSealed R (o.comments.calls items) (o'.comments.calls items) := by
  rw [kin.comments]
  refine flatMap_related .nil .append (fun c => ?_) _
  cases c.blank with
  | true => exact .hardBreak
  | false => exact .append (.text _) .hardBreak

theorem footer_sealed (kin : OptionsAlike R o o') (items : List Comment) :
    CallsSealed R (Yaml.Node.footer o items) (Yaml.Node.footer o' items) := by
  unfold Yaml.Node.footer
  rw [kin.comments]
  refine flatMap_related .nil .append (fun c => ?_) _
  cases c.blank with
  | true => exact .hardBreak
  | false => exact .append .hardBreak (.text _)

end Comments

section Selections

/-- A keyword: capital letters, with blanks between them. -/
def Shouted (s : Text) : Prop :=
  (∀ b ∈ s, b = 0x20 ∨ 0x41 ≤ b ∧ b ≤ 0x5a) ∧ s ≠ [] ∧ s.getLast? ≠ some 0x20

instance (s : Text) : Decidable (Shouted s) := @instDecidableAnd _ _ (List.decidableBAll _ s) inferInstance

/-- What is asked under any options, which decide how keywords are written, how lists break and how deep a level of
indentation is, and nothing else. -/
inductive Sketched : (∀ (ι : Type) [Columns ι], Options ι → List (Call ι)) → Prop where
  | nil : Sketched fun _ _ _ => []
  | text (s : Text) : Sketched fun _ _ _ => [.text s]
  | keyword {s : Text} (shouted : Shouted s) : Sketched fun _ _ o => [Sql.keywordCall o s]
  | space : Sketched fun _ _ _ => [.space]
  | softBreak : Sketched fun _ _ _ => [.softBreak]
  | append {f g : ∀ (ι : Type) [Columns ι], Options ι → List (Call ι)} (first : Sketched f) (second : Sketched g) :
      Sketched fun ι _ o => f ι o ++ g ι o
  | list {f : ∀ (ι : Type) [Columns ι], Options ι → List (Call ι)} (inner : Sketched f) :
      Sketched fun ι _ o => .groupStart o.listBreaks (step o) :: f ι o ++ [.groupEnd]
  | clause {f : ∀ (ι : Type) [Columns ι], Options ι → List (Call ι)} (inner : Sketched f) :
      Sketched fun ι _ o => .consistentBox (step o) :: f ι o ++ [.groupEnd]
  | box {f : ∀ (ι : Type) [Columns ι], Options ι → List (Call ι)} (inner : Sketched f) :
      Sketched fun ι _ o => .consistentBox 0 :: f ι o ++ [.groupEnd]
  | indented {f : ∀ (ι : Type) [Columns ι], Options ι → List (Call ι)} (inner : Sketched f) :
      Sketched fun ι _ o => .indent (step o) :: f ι o ++ [.outdent]

variable {f g : ∀ (ι : Type) [Columns ι], Options ι → List (Call ι)}

theorem sketched_twins (kin : OptionsAlike R o o') (sketched : Sketched f) : CallsTwinned R (f ι o) (f κ o') := by
  induction sketched with
  | nil => exact .nil
  | text s => exact .text s
  | keyword _ =>
    simp only [Sql.keywordCall, kin.keyword]
    exact .text _
  | space => exact .space
  | softBreak => exact .softBreak
  | append _ _ first second => exact .append first second
  | list _ inner => exact .group kin.list inner
  | clause _ inner => exact .group kin.clause inner
  | box _ inner => exact .group kin.box inner
  | indented _ inner => exact .indented kin.indent inner

theorem sketched_of_eq (sketched : Sketched f) (same : ∀ (ι : Type) [Columns ι] (o : Options ι), f ι o = g ι o) :
    Sketched g := by
  obtain rfl : @f = @g := by
    funext ι inst o
    exact same ι o
  exact sketched

theorem sketched_cons {k : ∀ (ι : Type) [Columns ι], Options ι → Call ι} (first : Sketched fun ι _ o => [k ι o])
    (rest : Sketched f) : Sketched fun ι _ o => k ι o :: f ι o := .append first rest

theorem list_sketched {keyword : Text} (shouted : Shouted keyword)
    {items : ∀ (ι : Type) [Columns ι], Options ι → List (List (Call ι))}
    (each : Sketched fun ι _ o => Sql.separated (items ι o)) :
    Sketched fun ι _ o => Sql.listCalls o keyword (items ι o) :=
  .list (sketched_cons (.keyword shouted) (sketched_cons .space each))

theorem textList_sketched {keyword : Text} (shouted : Shouted keyword) (items : List Text) :
    Sketched fun _ _ o => Sql.textListCalls o keyword items := by
  refine list_sketched shouted ?_
  induction items with
  | nil => exact .nil
  | cons t items ih =>
    cases items with
    | nil => exact .text t
    | cons u items => exact .append (.append (.text t) (sketched_cons (.text [0x2c]) .space)) ih

theorem condition_sketched {keyword : Text} (shouted : Shouted keyword) (e : Sql.Expr) :
    Sketched fun _ _ o => Sql.conditionCalls o keyword e := by
  unfold Sql.conditionCalls
  obtain ⟨j, terms⟩ := e.terms
  have joined : Shouted j.keyword := by cases j <;> decide
  have first : Sketched fun _ _ _ => (terms.take 1).map fun t => .text t.text := by
    cases terms with
    | nil => exact .nil
    | cons t terms => exact .text _
  have rest : Sketched fun _ _ o =>
      (terms.drop 1).flatMap fun t => [.space, Sql.keywordCall o j.keyword, .nbsp, .text t.text] := by
    induction terms.drop 1 with
    | nil => exact .nil
    | cons t terms ih =>
      exact .append (sketched_cons .space (sketched_cons (.keyword joined) (sketched_cons (.text _) (.text _)))) ih
  have start := sketched_cons (.keyword shouted) (.text [0x20])
  exact .clause (.append (.append start first) rest)

theorem limit_sketched (l : Sql.Limit) : Sketched fun _ _ o => Sql.limitCalls o l := by
  obtain ⟨count, offset⟩ := l
  have after {s : Text} (shouted : Shouted s) {k : ∀ (ι : Type) [Columns ι], Options ι → Call ι}
      (last : Sketched fun ι _ o => [k ι o]) :
      Sketched fun ι _ o => [.space, Sql.keywordCall o s, .nbsp, k ι o] :=
    sketched_cons .space (sketched_cons (.keyword shouted) (sketched_cons (.text _) last))
  refine .append ?_ ?_
  · match count with
    | some .all => exact after (by decide) (.keyword (by decide))
    | some (.rows t) => exact after (by decide) (.text t)
    | none => exact .nil
  · match offset with
    | some t => exact after (by decide) (.text t)
    | none => exact .nil

theorem clause_sketched {α : Type} {f : ∀ (ι : Type) [Columns ι], Options ι → α → List (Call ι)}
    (each : ∀ a, Sketched fun ι _ o => f ι o a) (a : Option α) : Sketched fun ι _ o => Sql.clauseCalls (f ι o) a := by
  cases a with
  | none => exact .nil
  | some a => exact sketched_cons .space (each a)

theorem parens_sketched (inner : Sketched f) : Sketched fun ι _ o => Sql.parensCalls o (f ι o) := by
  have indented := Sketched.indented (sketched_cons .softBreak inner)
  have last := sketched_cons .softBreak (.text [0x29])
  refine sketched_of_eq (.box (.append (sketched_cons (.text [0x28]) indented) last)) fun ι _ o => ?_
  simp [Sql.parensCalls]

/-- The clauses of a selection around what is asked for its tables. -/
theorem clauses_sketched (distinct : Bool) (columns : List Text) (condition : Option Sql.Expr) (groupBy : List Text)
    (having : Option Sql.Expr) (tables : Sketched f) :
    Sketched fun ι _ o => Sql.textListCalls o (if distinct then "SELECT DISTINCT" else "SELECT") columns ++ f ι o ++
      Sql.clauseCalls (Sql.conditionCalls o "WHERE") condition ++
      Sql.clauseCalls (Sql.textListCalls o "GROUP BY") (Sql.nonEmpty groupBy) ++
      Sql.clauseCalls (Sql.conditionCalls o "HAVING") having := by
  have selects : Shouted (if distinct then "SELECT DISTINCT" else "SELECT") := by cases distinct <;> decide
  exact .append (.append (.append (.append (textList_sketched selects _) tables)
    (clause_sketched (condition_sketched (by decide)) _)) (clause_sketched (textList_sketched (by decide)) _))
    (clause_sketched (condition_sketched (by decide)) _)

mutual

theorem select_sketched : ∀ s : Sql.Select, Sketched fun _ _ o => s.calls o
  | .mk ctes body orderBy limit locking => by
    cases broken : locking.isEmpty with
    | true =>
      simp only [Sql.Select.calls, broken, ↓reduceIte]
      refine .box (.append (.append (.append ?_ (body_sketched body)) ?_) ?_)
      · match ctes with
        | some t => exact sketched_cons (.text t) .space
        | none => exact .nil
      · exact clause_sketched (textList_sketched (by decide)) _
      · match limit with
        | some l => exact limit_sketched l
        | none => exact .nil
    | false =>
      simp only [Sql.Select.calls, broken, Bool.false_eq_true, ↓reduceIte]
      exact .text _

theorem body_sketched : ∀ b : Sql.Body, Sketched fun _ _ o => b.calls o
  | .clause distinct columns [] condition groupBy having => by
    simp only [Sql.Body.calls]
    exact clauses_sketched distinct columns condition groupBy having .nil
  | .clause distinct columns (t :: rest) condition groupBy having => by
    have listed := tables_sketched (t :: rest)
    simp only [Sql.Table.listCalls] at listed
    simp only [Sql.Body.calls]
    exact clauses_sketched distinct columns condition groupBy having
      (sketched_cons .space (list_sketched (by decide) listed))
  | .parens s => by
    simp only [Sql.Body.calls]
    exact parens_sketched (select_sketched s)
  | .combined op all left right => by
    simp only [Sql.Body.calls]
    have combines : Shouted (op.keyword ++ if all then (" ALL" : Text) else []) := by
      cases op <;> cases all <;> decide
    have middle := sketched_cons .space (sketched_cons (.keyword combines) .space)
    exact .append (.append (select_sketched left) middle) (select_sketched right)
  | .verbatim t => by
    simp only [Sql.Body.calls]
    exact .text t

theorem table_sketched : ∀ t : Sql.Table, Sketched fun _ _ o => t.calls o
  | .selection s asName => by
    simp only [Sql.Table.calls]
    refine .append (parens_sketched (select_sketched s)) ?_
    match asName with
    | some t =>
      exact sketched_cons (.text _) (sketched_cons (.keyword (by decide)) (sketched_cons (.text _) (.text t)))
    | none => exact .nil
  | .verbatim t => by
    simp only [Sql.Table.calls]
    exact .text t

theorem tables_sketched : ∀ ts : List Sql.Table, Sketched fun _ _ o => Sql.separated (Sql.Table.listCalls o ts)
  | [] => by
    simp only [Sql.Table.listCalls]
    exact .nil
  | [t] => by
    simp only [Sql.Table.listCalls]
    exact table_sketched t
  | t :: next :: rest => by
    have later := tables_sketched (next :: rest)
    simp only [Sql.Table.listCalls] at later ⊢
    exact .append (.append (table_sketched t) (sketched_cons (.text [0x2c]) .space)) later

end

theorem statement_sketched (s : Sql.Statement) : Sketched fun _ _ o => s.calls o := by
  cases s with
  | select s => exact select_sketched s
  | parens s => exact parens_sketched (select_sketched s)
  | verbatim t => exact .text t

theorem statement_twins (kin : OptionsAlike R o o') (s : Sql.Statement) : CallsTwinned R (s.calls o) (s.calls o') :=
  sketched_twins kin (statement_sketched s)

end Selections

section Sources

/-- Everything that is asked for the pieces of a source. -/
def pieceCalls (o : Options ι) (pieces : List Sql.Piece) : List (Call ι) :=
  (Sql.piecesCalls o {} pieces).1 ++ Sql.flush o (Sql.piecesCalls o {} pieces).2

variable (kin : OptionsAlike R o o')
include kin

theorem startLine_sealed (p : Sql.Progress) : CallsSealed R (Sql.startLine o p) (Sql.startLine o' p) := by
  unfold Sql.startLine
  split
  · exact .append .hardBreak (comments_sealed kin _)
  · exact comments_sealed kin _

theorem piece_sealed (p : Sql.Progress) (piece : Sql.Piece) :
    (piece.calls o p).2 = (piece.calls o' p).2 ∧ CallsSealed R (piece.calls o p).1 (piece.calls o' p).1 := by
  cases piece with
  | comments items => exact ⟨rfl, .nil⟩
  | statement s =>
    refine ⟨rfl, ?_⟩
    have ended : CallsSealed R (s.calls o ++ [.text [0x3b]]) (s.calls o' ++ [.text [0x3b]]) :=
      .block 0 (by decide) (.append (statement_twins kin s) (.text _))
    simpa [Sql.Piece.calls] using CallsSealed.append (startLine_sealed kin p) ended
  | trailing c => exact ⟨rfl, .append (.text _) (.text _)⟩

theorem pieces_sealed (p : Sql.Progress) (pieces : List Sql.Piece) :
    (Sql.piecesCalls o p pieces).2 = (Sql.piecesCalls o' p pieces).2 ∧
      CallsSealed R (Sql.piecesCalls o p pieces).1 (Sql.piecesCalls o' p pieces).1 := by
  induction pieces generalizing p with
  | nil => exact ⟨rfl, .nil⟩
  | cons piece rest ih =>
    obtain ⟨same, here⟩ := piece_sealed kin p piece
    obtain ⟨later, others⟩ := ih (piece.calls o' p).2
    simp only [Sql.piecesCalls, same]
    exact ⟨later, .append here others⟩

theorem flush_sealed (p : Sql.Progress) : CallsSealed R (Sql.flush o p) (Sql.flush o' p) := by
  simp only [Sql.flush]
  split
  · exact .nil
  · exact startLine_sealed kin _

theorem source_sealed (pieces : List Sql.Piece) : CallsSealed R (pieceCalls o pieces) (pieceCalls o' pieces) := by
  obtain ⟨same, written⟩ := pieces_sealed kin {} pieces
  rw [pieceCalls, pieceCalls, same]
  exact .append written (flush_sealed kin _)

end Sources

section Nodes

open Yaml (Node Document)

theorem lineNote_sealed (nodes : List Node) : CallsSealed R (Node.lineNote nodes) (Node.lineNote nodes) := by
  unfold Node.lineNote
  split
  · exact .append (.text _) (.text _)
  · exact .nil

/-- Entries of a collection up to the sign that closes it. -/
def EntriesClose (R : Call ι → Call κ → Prop) (close : Text) (xs : List (Call ι)) (ys : List (Call κ)) : Prop :=
  ∃ body other k j, CallsTwinned R body other ∧ CallsTwinned R [k] [j] ∧ xs = body ++ [.outdent, k, .text close] ∧
    ys = other ++ [.outdent, j, .text close]

/-- The break after an entry is the same under all options: it is hard after comments. -/
private theorem twins_hard {soft : Call ι} {yields : Call κ} (twins : CallsTwinned R [soft] [yields]) (hard : Bool) :
    CallsTwinned R [if hard then .hardBreak else soft] [if hard then .hardBreak else yields] := by
  cases hard with
  | false => exact twins
  | true => exact .hardBreak

variable (kin : OptionsAlike R o o')
include kin

private theorem entryEnd_more (close : Text) (nodes : List Node) (foot : List Comment) :
    CallsTwinned R (Node.entryEnd o close nodes false foot) (Node.entryEnd o' close nodes false foot) := by
  have note := sealed_twins (lineNote_sealed (R := R) nodes)
  have below := sealed_twins (footer_sealed kin foot)
  simp only [Node.entryEnd, twins_isEmpty note, twins_isEmpty below]
  exact .append (.append (.append (.text _) note) below) (twins_hard .space _)

private theorem entryEnd_last (close : Text) (nodes : List Node) (foot : List Comment) :
    EntriesClose R close (Node.entryEnd o close nodes true foot) (Node.entryEnd o' close nodes true foot) := by
  have note := sealed_twins (lineNote_sealed (R := R) nodes)
  have below := sealed_twins (footer_sealed kin foot)
  simp only [Node.entryEnd, twins_isEmpty note, twins_isEmpty below]
  exact ⟨_, _, _, _, .append note below, twins_hard .softBreak _, rfl, rfl⟩

/-- An entry before the others of its collection, if there are any. -/
private theorem entry_closes {close : Text} {nodes : List Node} {foot : List Comment}
    {last : Bool} (entry : CallsTwinned R xs ys) (none : last = true → us = [] ∧ vs = [])
    (others : last = false → EntriesClose R close us vs) :
    EntriesClose R close (xs ++ Node.entryEnd o close nodes last foot ++ us)
      (ys ++ Node.entryEnd o' close nodes last foot ++ vs) := by
  cases last with
  | true =>
    obtain ⟨rfl, rfl⟩ := none rfl
    obtain ⟨body, other, k, j, inner, final, left, right⟩ := entryEnd_last kin close nodes foot
    exact ⟨_, _, k, j, .append entry inner, final, by simp [left], by simp [right]⟩
  | false =>
    obtain ⟨body, other, k, j, inner, final, left, right⟩ := others rfl
    exact ⟨_, _, k, j, .append (.append entry (entryEnd_more kin close nodes foot)) inner, final,
      by simp [left], by simp [right]⟩

/-- A collection ends in the sign that closes it. -/
private theorem collection_sealed (i : Yaml.Info) (sign : Text) {b : UInt8}
    (visible : ByteVisible b) (closes : EntriesClose R [b] xs ys) :
    CallsSealed R (Node.opening o i sign ++ xs ++ [.groupEnd]) (Node.opening o' i sign ++ ys ++ [.groupEnd]) := by
  obtain ⟨body, other, k, j, inner, final, rfl, rfl⟩ := closes
  have twins := twins_nested (Node.decorate i sign) [b] kin.box kin.indent final inner
  have cut {ι : Type} [Columns ι] (o : Options ι) (body : List (Call ι)) (k : Call ι) :
      Node.opening o i sign ++ (body ++ [.outdent, k, .text [b]]) ++ [.groupEnd] =
        (Node.opening o i sign ++ body ++ [.outdent, k]) ++ .text [b] :: .replicate 1 .groupEnd := by
    simp
  rw [cut, cut]
  refine .block 1 visible ?_
  rw [← cut, ← cut]
  exact twins

private theorem bare_sealed (i : Yaml.Info) (sign : Text) {b : UInt8} (visible : ByteVisible b) :
    CallsSealed R (Node.bare i sign [b]) (Node.bare i sign [b]) := by
  show CallsSealed R ([.consistentBox 0, .text (Node.decorate i sign)] ++ .text [b] :: .replicate 1 .groupEnd)
    ([.consistentBox 0, .text (Node.decorate i sign)] ++ .text [b] :: .replicate 1 .groupEnd)
  exact .block 1 visible (.group kin.box (twins_cons (.text _) (.text [b])))

omit kin

mutual

theorem node_sealed (kin : OptionsAlike R o o') (lines : List Text) : ∀ (n : Node) (t : Comment.Table),
    (n.calls o lines t).2 = (n.calls o' lines t).2 ∧ CallsSealed R (n.calls o lines t).1 (n.calls o' lines t).1
  | .scalar i style v, t => by
    rw [Node.calls, Node.calls]
    exact ⟨rfl, .text _⟩
  | .reference i name, t => by
    rw [Node.calls, Node.calls]
    exact ⟨rfl, .text _⟩
  | .sequence i flow [], t => by
    rw [Node.calls, Node.calls]
    exact ⟨rfl, bare_sealed kin i _ (by decide)⟩
  | .sequence i flow (n :: rest), t => by
    rw [Node.calls, Node.calls]
    obtain ⟨same, closes⟩ := items_close kin lines (n :: rest) t
    exact ⟨same, collection_sealed kin i _ (by decide) (closes (by simp))⟩
  | .mapping i flow [], t => by
    rw [Node.calls, Node.calls]
    exact ⟨rfl, bare_sealed kin i _ (by decide)⟩
  | .mapping i flow (p :: rest), t => by
    rw [Node.calls, Node.calls]
    obtain ⟨same, closes⟩ := pairs_close kin lines (p :: rest) t
    exact ⟨same, collection_sealed kin i _ (by decide) (closes (by simp))⟩
  | .document i flow nodes, t => by
    rw [Node.calls, Node.calls]
    exact nodes_sealed kin lines nodes t

theorem nodes_sealed (kin : OptionsAlike R o o') (lines : List Text) : ∀ (nodes : List Node) (t : Comment.Table),
    (Node.nodeCalls o lines nodes t).2 = (Node.nodeCalls o' lines nodes t).2 ∧
      CallsSealed R (Node.nodeCalls o lines nodes t).1 (Node.nodeCalls o' lines nodes t).1
  | [], t => by
    rw [Node.nodeCalls, Node.nodeCalls]
    exact ⟨rfl, .nil⟩
  | n :: rest, t => by
    obtain ⟨table, first⟩ := node_sealed kin lines n t
    obtain ⟨final, others⟩ := nodes_sealed kin lines rest (n.calls o' lines t).2
    simp only [Node.nodeCalls, table]
    exact ⟨final, .append first others⟩

theorem items_close (kin : OptionsAlike R o o') (lines : List Text) : ∀ (items : List Node) (t : Comment.Table),
    (Node.itemCalls o lines items t).2 = (Node.itemCalls o' lines items t).2 ∧
      (items ≠ [] → EntriesClose R [0x5d] (Node.itemCalls o lines items t).1 (Node.itemCalls o' lines items t).1)
  | [], t => by
    rw [Node.itemCalls, Node.itemCalls]
    exact ⟨rfl, fun none => absurd rfl none⟩
  | n :: rest, t => by
    obtain ⟨table, entry⟩ := node_sealed kin lines n (Node.takeLeading [n] t).2
    obtain ⟨final, others⟩ := items_close kin lines rest
      (Node.takeTrailing [n] (n.calls o' lines (Node.takeLeading [n] t).2).2).2
    simp only [Node.itemCalls, table]
    refine ⟨final, fun _ => ?_⟩
    have lead := comments_sealed kin (Node.takeLeading [n] t).1
    refine entry_closes kin (sealed_twins (.append lead entry)) (fun last => ?_) (fun more => ?_)
    · rw [List.isEmpty_iff.mp last, Node.itemCalls, Node.itemCalls]
      exact ⟨rfl, rfl⟩
    · exact others (by simpa using more)

theorem pairs_close (kin : OptionsAlike R o o') (lines : List Text) :
    ∀ (pairs : List (Node × Node)) (t : Comment.Table),
    (Node.pairCalls o lines pairs t).2 = (Node.pairCalls o' lines pairs t).2 ∧
      (pairs ≠ [] → EntriesClose R [0x7d] (Node.pairCalls o lines pairs t).1 (Node.pairCalls o' lines pairs t).1)
  | [], t => by
    rw [Node.pairCalls, Node.pairCalls]
    exact ⟨rfl, fun none => absurd rfl none⟩
  | (k, v) :: rest, t => by
    obtain ⟨between, key⟩ := node_sealed kin lines k (Node.takeLeading [k, v] t).2
    obtain ⟨table, value⟩ := node_sealed kin lines v (k.calls o' lines (Node.takeLeading [k, v] t).2).2
    obtain ⟨final, others⟩ := pairs_close kin lines rest
      (Node.takeTrailing [k, v] (v.calls o' lines (k.calls o' lines (Node.takeLeading [k, v] t).2).2).2).2
    simp only [Node.pairCalls, between, table]
    refine ⟨final, fun _ => ?_⟩
    have lead := comments_sealed kin (Node.takeLeading [k, v] t).1
    have colon : CallsSealed R [.text [0x3a], .nbsp] [.text [0x3a], .nbsp] := .append (.text _) (.text _)
    refine entry_closes kin (sealed_twins (.append (.append (.append lead key) colon) value))
      (fun last => ?_) (fun more => ?_)
    · rw [List.isEmpty_iff.mp last, Node.pairCalls, Node.pairCalls]
      exact ⟨rfl, rfl⟩
    · exact others (by simpa using more)

end

theorem document_sealed (kin : OptionsAlike R o o') (lines : List Text) (d : Document) (t : Comment.Table) :
    (d.calls o lines t).2 = (d.calls o' lines t).2 ∧ CallsSealed R (d.calls o lines t).1 (d.calls o' lines t).1 := by
  obtain ⟨info, root⟩ := d
  cases root with
  | none => exact ⟨rfl, .append (comments_sealed kin _) (footer_sealed kin _)⟩
  | some n =>
    obtain ⟨table, body⟩ := node_sealed kin lines n
      (((t.takeLeading (Document.span ⟨info, some n⟩)).2).takeLeading n.span).2
    simp only [Document.calls, table]
    exact ⟨trivial, .append (.append (.append (comments_sealed kin _) body) (lineNote_sealed [n]))
      (footer_sealed kin _)⟩

theorem documents_sealed (kin : OptionsAlike R o o') (lines : List Text) (ds : List Document) (first : Bool)
    (t : Comment.Table) :
    CallsSealed R (Document.allCalls o lines ds first t) (Document.allCalls o' lines ds first t) := by
  induction ds generalizing first t with
  | nil => exact .nil
  | cons d ds ih =>
    obtain ⟨table, body⟩ := document_sealed kin lines d (d.collect t)
    simp only [Document.allCalls, table]
    refine .append (.append ?_ body) (ih false _)
    cases first with
    | true => exact .nil
    | false => exact .append .hardBreak (.append (.text _) .hardBreak)

end Nodes

section Values

open Documents (Sound calls)

/-- Documents with the same texts, breaks and groups, indented level by level. -/
inductive CallsParallel : Doc ι → Doc κ → Prop where
  | nil : CallsParallel .nil .nil
  | text (s : Text) : CallsParallel (.text s) (.text s)
  | line : CallsParallel .line .line
  | softBreak : CallsParallel .softBreak .softBreak
  | nest {d : Doc ι} {e : Doc κ} (inner : CallsParallel d e) : CallsParallel (.nest 1 true d) (.nest 1 true e)
  | group {d : Doc ι} {e : Doc κ} (inner : CallsParallel d e) :
      CallsParallel (.group .consistent false d) (.group .consistent false e)
  | concat {a b : Doc ι} {d e : Doc κ} (first : CallsParallel a d) (second : CallsParallel b e) :
      CallsParallel (.concat a b) (.concat d e)

variable {a b : Doc ι} {d e : Doc κ}

theorem parallel_append (first : CallsParallel a d) (second : CallsParallel b e) :
    CallsParallel (a.append b) (d.append e) := by
  have alone := first
  have both := CallsParallel.concat first second
  cases first with
  | nil => exact second
  | _ =>
    cases second with
    | nil => exact alone
    | _ => exact both

theorem parallel_join (sep : Text) {items : List (Doc ι)} {others : List (Doc κ)}
    (each : List.Forall₂ CallsParallel items others) : CallsParallel (Doc.join sep items) (Doc.join sep others) := by
  induction each with
  | nil => exact .nil
  | cons first rest ih =>
    cases rest with
    | nil => exact first
    | cons second later =>
      exact parallel_append (parallel_append first (.text sep)) (parallel_append .line ih)

theorem parallel_bracketed (left right : Text) {items : List (Doc ι)} {others : List (Doc κ)}
    (each : List.Forall₂ CallsParallel items others) :
    CallsParallel (Json.bracketed left items right) (Json.bracketed left others right) := by
  have joined := parallel_join [0x2c] each
  cases each with
  | nil => exact .text _
  | cons first rest =>
    exact .group (parallel_append (.text left) (parallel_append (.nest (parallel_append .softBreak joined))
      (parallel_append .softBreak (.text right))))

theorem parallel_nestUnder (above : CallsParallel a d) (below : CallsParallel b e) :
    CallsParallel (Doc.nestUnder a b) (Doc.nestUnder d e) :=
  .group (parallel_append above (.nest (parallel_append .line below)))

mutual

theorem shape_parallel : ∀ s : Json.Shape, CallsParallel (s.doc : Doc ι) (s.doc : Doc κ)
  | .leaf t => .text t
  | .array elements => by
    rw [Json.Shape.doc, Json.Shape.doc]
    exact parallel_bracketed _ _ (elements_parallel elements)
  | .object members => by
    rw [Json.Shape.doc, Json.Shape.doc]
    exact parallel_bracketed _ _ (members_parallel members)

theorem elements_parallel : ∀ elements : List Json.Shape, List.Forall₂ CallsParallel
    (Json.Shape.elementDocs elements : List (Doc ι)) (Json.Shape.elementDocs elements : List (Doc κ))
  | [] => .nil
  | s :: rest => .cons (shape_parallel s) (elements_parallel rest)

theorem members_parallel : ∀ members : List (Text × Json.Shape), List.Forall₂ CallsParallel
    (Json.Shape.memberDocs members : List (Doc ι)) (Json.Shape.memberDocs members : List (Doc κ))
  | [] => .nil
  | (_, s) :: rest => .cons (parallel_nestUnder (.text _) (shape_parallel s)) (members_parallel rest)

end

theorem parallel_sound {d : Doc Int} {e : Doc κ} (parallel : CallsParallel d e) : Sound d := by
  induction parallel with
  | nest _ inner => exact ⟨by decide, inner⟩
  | group _ inner => exact ⟨by simp, inner⟩
  | concat _ _ first second => exact ⟨first, second⟩
  | _ => trivial

theorem parallel_twins {d e : Doc Int} (parallel : CallsParallel d e) {unit other : Int} (left : 0 ≤ unit)
    (right : 0 ≤ other) : CallsTwinned BothRise (calls unit d) (calls other e) := by
  have level {unit : Int} (least : 0 ≤ unit) : CallRises (.indent (Documents.shift unit 1 true)) :=
    .indent (Documents.shift_nonneg least (by decide) true)
  have box : CallRises (Documents.groupCall .consistent false) := .group (by simp) (Int.le_refl 0)
  induction parallel with
  | nil => exact .nil
  | text s => exact .text s
  | line => exact .space
  | softBreak => exact .softBreak
  | nest _ inner => exact .indented ⟨level left, level right⟩ inner
  | group _ inner => exact .group ⟨box, box⟩ inner
  | concat _ _ first second => exact .append first second

end Values

/-- Formatting twice ends alike: with the same complaint about the source, or with texts that differ in
spaces, tabs and newlines alone. -/
inductive FormatsAlike : Except Failure Text → Except Failure Text → Prop where
  | refused (message : Text) : FormatsAlike (.error (.source message)) (.error (.source message))
  | formatted {s t : Text} (same : solid s = solid t) : FormatsAlike (.ok s) (.ok t)

section Formats

theorem alike_source {x y : Except Failure Text} (alike : FormatsAlike x y) (f : Fault) : x ≠ .error (.layout f) := by
  rintro rfl
  cases alike

theorem print_append (c : Config ι) (xs us : List (Call ι)) :
    Printer.print c (xs ++ us) =
      (do let start ← Printer.ofConfig c; start.run xs) >>= (fun p => do (← p.run us).finish) := by
  simp only [Printer.print, Printer.run, List.foldlM_append, bind_assoc]

theorem printed_parts {c : Config ι} {q : Printer ι} (printed : Printer.print c (xs ++ us) = .ok q) :
    ∃ p, (do let start ← Printer.ofConfig c; start.run xs) = .ok p ∧ (do (← p.run us).finish) = .ok q :=
  PageWriting.bind_ok (print_append c xs us ▸ printed)

/-- What is formatted of sources is printed and trimmed. -/
theorem format_prints {ε : Type} {d : Sql.Dialect ε} {message : ε → Text} {srcs : List Text} {out : Text}
    (formatted : d.format message o srcs = .ok out) :
    ∃ q, Printer.print o.config (pieceCalls o (d.allPieces srcs).1) = .ok q ∧ out = q.output.trimRight := by
  unfold Sql.Dialect.format at formatted
  generalize d.allPieces srcs = read at formatted ⊢
  obtain ⟨pieces, problem⟩ := read
  dsimp only at formatted ⊢
  rw [pieceCalls, print_append]
  split at formatted
  · cases formatted
  · cases formatted
  · rename_i p written
    split at formatted
    · rename_i q ended
      cases formatted
      exact ⟨q, by rw [written]; exact ended, rfl⟩
    · cases formatted

/-- What is formatted of documents is printed and trimmed. -/
theorem stream_prints {lines : List Text} {docs : List Yaml.Document} {problem : Option Text} {out : Text}
    (formatted : Yaml.formatRead o lines docs problem = .ok out) :
    ∃ q, Printer.print o.config (Yaml.Document.allCalls o lines docs true .empty) = .ok q ∧
      out = q.output.trimRight := by
  unfold Yaml.formatRead at formatted
  dsimp only at formatted
  rw [← List.append_nil (Yaml.Document.allCalls ..), print_append]
  split at formatted
  · cases formatted
  · cases formatted
  · rename_i p written
    split at formatted
    · rename_i q ended
      cases formatted
      exact ⟨q, by rw [written]; exact ended, rfl⟩
    · cases formatted

variable {q : Printer ι} {q' : Printer κ}

/-- Sources are formatted alike if what they ask for is printed alike. -/
theorem sql_alike {ε : Type} (d : Sql.Dialect ε) (message : ε → Text) (srcs : List Text)
    (printed : Printer.print o.config (pieceCalls o (d.allPieces srcs).1) = .ok q)
    (also : Printer.print o'.config (pieceCalls o' (d.allPieces srcs).1) = .ok q')
    (same : solid q.output.trimRight = solid q'.output.trimRight) :
    FormatsAlike (d.format message o srcs) (d.format message o' srcs) := by
  unfold Sql.Dialect.format
  generalize d.allPieces srcs = parts at printed also ⊢
  obtain ⟨pieces, problem⟩ := parts
  obtain ⟨p, written, ended⟩ := printed_parts printed
  obtain ⟨p', rewritten, closed⟩ := printed_parts also
  simp only [written, rewritten]
  cases problem with
  | some m => exact .refused _
  | none =>
    simp only [ended, closed]
    exact .formatted same

theorem yaml_alike (lines : List Text) (docs : List Yaml.Document) (problem : Option Text)
    (printed : Printer.print o.config (Yaml.Document.allCalls o lines docs true .empty) = .ok q)
    (also : Printer.print o'.config (Yaml.Document.allCalls o' lines docs true .empty) = .ok q')
    (same : solid q.output.trimRight = solid q'.output.trimRight) :
    FormatsAlike (Yaml.formatRead o lines docs problem) (Yaml.formatRead o' lines docs problem) := by
  unfold Yaml.formatRead
  rw [← List.append_nil (Yaml.Document.allCalls ..)] at printed also
  obtain ⟨p, written, ended⟩ := printed_parts printed
  obtain ⟨p', rewritten, closed⟩ := printed_parts also
  simp only [written, rewritten]
  cases problem with
  | some m => exact .refused _
  | none =>
    have finished : p.finish = .ok q := ended
    have done : p'.finish = .ok q' := closed
    simp only [finished, done]
    exact .formatted same

/-- Documents with no problem after them are printed and trimmed. -/
theorem stream_eq_print (o : Options ι) (lines : List Text) (docs : List Yaml.Document) :
    Yaml.formatRead o lines docs none =
      ((Printer.print o.config (Yaml.Document.allCalls o lines docs true .empty)).map fun p =>
        p.output.trimRight).mapError .layout := by
  rw [← List.append_nil (Yaml.Document.allCalls ..), print_append]
  unfold Yaml.formatRead
  dsimp only
  generalize (do
    let start ← Printer.ofConfig o.config
    start.run (Yaml.Document.allCalls o lines docs true .empty)) = written
  cases written with
  | error f => rfl
  | ok p =>
    have last : (do (← p.run []).finish) = p.finish := rfl
    simp only [PageWriting.ok_bind, last]
    cases p.finish <;> rfl

theorem json_alike (read : Except Text Json.Shape)
    (each : ∀ v : Json.Shape, read = .ok v →
      ∃ s t, (v.doc : Doc ι).render o.config = .ok s ∧ (v.doc : Doc κ).render o'.config = .ok t ∧
        solid s = solid t) : FormatsAlike (Json.formatRead o read) (Json.formatRead o' read) := by
  unfold Json.formatRead
  cases read with
  | error message => exact .refused _
  | ok v =>
    obtain ⟨s, t, rendered, also, same⟩ := each v rfl
    simp only [rendered, also]
    exact .formatted same

end Formats

section Contract

open Bracketing (Balanced)
open Documents (Sound)

/-- Calls that keep the contract of emitting: all groups are closed and all indentation is undone in the
group where it was made, the printer answers every call, and at the end no group is open. -/
structure CallsProper (start : Printer Int) (calls : List (Call Int)) : Prop where
  balanced : Balanced calls
  answered : ∃ p q, start.run calls = .ok p ∧ p.scopes = [[]] ∧ p.finish = .ok q

variable {c : Config Int} {start begun : Printer Int} {calls : List (Call Int)} {o o' : Options Int}

theorem balanced_proper (accepted : Printer.ofConfig c = .ok start) (balanced : Balanced calls) :
    CallsProper start calls := by
  obtain ⟨p, q, ran, ended, _⟩ := Bracketing.balanced_printed accepted balanced
  have stands := (Contract.run_past accepted ran).stands
  rw [Bracketing.balanced_standing balanced] at stands
  exact ⟨balanced, p, q, ran, congrArg Discipline.Standing.scopes stands, ended⟩

/-- Whether keywords are highlighted has no part in whether options are accepted. -/
theorem accepted_config (accepted : Printer.ofConfig o.layout = .ok start) :
    ∃ p, Printer.ofConfig o.config = .ok p := by
  unfold Printer.ofConfig at accepted ⊢
  dsimp only at accepted ⊢
  split at accepted
  · cases accepted
  · rename_i fine
    exact ⟨_, if_neg fine⟩

/-- Options that a printer accepts lead to groups and indentation that rise. -/
theorem kin_apart (accepted : Printer.ofConfig o.config = .ok start)
    (also : Printer.ofConfig o'.config = .ok begun)
    (cases : o.keywordCase = o'.keywordCase) (colors : o.color = o'.color) (comments : o.comments = o'.comments) :
    OptionsAlike BothRise o o' := by
  have left := Int.le_of_lt (Safety.accepted_unit accepted)
  have right := Int.le_of_lt (Safety.accepted_unit also)
  have known (o : Options Int) (code : Int) : o.listBreaks ≠ .unknown code := by
    unfold Options.listBreaks
    split <;> simp
  have box : CallRises (.consistentBox 0) := .group (by simp) (Int.le_refl 0)
  refine ⟨fun s => ?_, comments, ⟨.group (known o) left, .group (known o') right⟩,
    ⟨.group (by simp) left, .group (by simp) right⟩, ⟨box, box⟩, ⟨.indent left, .indent right⟩⟩
  simp only [Options.keyword, cases, colors]

/-- Documents indented level by level are rendered alike. -/
theorem parallel_rendered (accepted : Printer.ofConfig o.config = .ok start)
    (also : Printer.ofConfig o'.config = .ok begun) {d e : Doc Int} (left : CallsParallel d e)
    (right : CallsParallel e d) :
    ∃ s t, d.render o.config = .ok s ∧ e.render o'.config = .ok t ∧ solid s = solid t := by
  have rendered {c : Config Int} {start q : Printer Int} {d : Doc Int} (accepted : Printer.ofConfig c = .ok start)
      (sound : Sound d) (printed : Printer.print c (Documents.calls c.withDefaults.unit d) = .ok q) :
      d.render c = .ok q.output := by
    have begins : Documents.PrinterFollows c start [] start := ⟨accepted, rfl, rfl⟩
    rw [Printer.print, accepted, PageWriting.ok_bind, ← Documents.emit_eq_run begins sound] at printed
    obtain ⟨p, emitted, ended⟩ := PageWriting.bind_ok printed
    rw [Doc.render, accepted, PageWriting.ok_bind, emitted, PageWriting.ok_bind, ended]
    rfl
  have twins := parallel_twins left (Int.le_of_lt (Safety.accepted_unit accepted))
    (Int.le_of_lt (Safety.accepted_unit also))
  obtain ⟨p, q, printed, reprinted, same⟩ := twins_printed accepted also twins
  exact ⟨p.output, q.output, rendered accepted (parallel_sound left) printed,
    rendered also (parallel_sound right) reprinted, same⟩

/-- What was read is formatted alike under options that differ in layout only. -/
theorem formats_alike (accepted : Printer.ofConfig o.config = .ok start)
    (also : Printer.ofConfig o'.config = .ok begun) (kin : OptionsAlike BothRise o o') :
    (∀ (ε : Type) (d : Sql.Dialect ε) (message : ε → Text) (srcs : List Text),
      FormatsAlike (d.format message o srcs) (d.format message o' srcs)) ∧
    (∀ read, FormatsAlike (Json.formatRead o read) (Json.formatRead o' read)) ∧
    (∀ lines docs problem,
      FormatsAlike (Yaml.formatRead o lines docs problem) (Yaml.formatRead o' lines docs problem)) := by
  refine ⟨fun ε d message srcs => ?_, fun read => json_alike read fun v _ => ?_, fun lines docs problem => ?_⟩
  · obtain ⟨p, q, printed, reprinted, same⟩ := sealed_printed accepted also (source_sealed kin _)
    exact sql_alike d message srcs printed reprinted same
  · exact parallel_rendered accepted also (shape_parallel v) (shape_parallel v)
  · obtain ⟨p, q, printed, reprinted, same⟩ := sealed_printed accepted also (documents_sealed kin _ _ _ _)
    exact yaml_alike lines docs problem printed reprinted same

/-- Under all options that a printer accepts, every statement, value and document is asked for with calls
that keep the contract of emitting, whatever texts it is made of; and nothing that was read fails to be formatted
because of its layout. -/
theorem front_ends_keep_contract (o : Options Int) (start : Printer Int)
    (accepted : Printer.ofConfig o.layout = .ok start) :
    ∃ p, Printer.ofConfig o.config = .ok p ∧
      (∀ s : Sql.Statement, CallsProper p (s.calls o)) ∧
      (∀ v : Json.Shape, ∃ calls, v.doc.emit p = p.run calls ∧ CallsProper p calls) ∧
      (∀ (lines : List Text) (d : Yaml.Document) (t : Comment.Table),
        CallsProper p (d.calls o lines (d.collect t)).1) ∧
      (∀ (ε : Type) (d : Sql.Dialect ε) (message : ε → Text) (srcs : List Text) (f : Fault),
        d.format message o srcs ≠ .error (.layout f)) ∧
      (∀ (read : Except Text Json.Shape) (f : Fault), Json.formatRead o read ≠ .error (.layout f)) ∧
      (∀ (lines : List Text) (docs : List Yaml.Document) (problem : Option Text) (f : Fault),
        Yaml.formatRead o lines docs problem ≠ .error (.layout f)) := by
  obtain ⟨p, begins⟩ := accepted_config accepted
  have kin := kin_apart begins begins rfl rfl rfl
  obtain ⟨sql, json, yaml⟩ := formats_alike begins begins kin
  have unit := Int.le_of_lt (Safety.accepted_unit begins)
  refine ⟨p, begins, fun s => ?_, fun v => ?_, fun lines d t => ?_, ?_, ?_, ?_⟩
  · exact balanced_proper begins (twins_balanced (statement_twins kin s))
  · have parallel : CallsParallel (v.doc : Doc Int) (v.doc : Doc Int) := shape_parallel v
    have begun : Documents.PrinterFollows o.config p [] p := ⟨begins, rfl, rfl⟩
    exact ⟨_, Documents.emit_eq_run begun (parallel_sound parallel),
      balanced_proper begins (twins_balanced (parallel_twins parallel unit unit))⟩
  · exact balanced_proper begins (twins_balanced (sealed_twins (document_sealed kin lines d (d.collect t)).2))
  · intro ε d message srcs f
    exact alike_source (sql ε d message srcs) f
  · intro read f
    exact alike_source (json read) f
  · intro lines docs problem f
    exact alike_source (yaml lines docs problem) f

/-- With one column to a line everything breaks: a condition of two terms, an array in an object, and a document in
a pair with a comment above it, with coloured keywords of which nothing but a line end is left. -/
theorem front_ends_keep_contract_narrow :
    let o : Options Int := ⟨⟨1, 3, true, false⟩, some fun _ => "\n", true, true, ⟨0, 9⟩⟩
    let query : Sql.Statement := .parens (.mk none (.clause true ["a", "b"] [.verbatim "t"]
      (some (.and (.leaf .plain "x") (.leaf .plain "y"))) [] none) ["a"] none [])
    let value : Json.Shape := .object [("", .array [.leaf "\n", .leaf []])]
    let pair : Yaml.Node × Yaml.Node :=
      (.scalar ⟨2, 1, { head := "# note" }, [], none⟩ .plain "k",
        .document ⟨-2, 4, {}, [], none⟩ false [.scalar ⟨2, 4, {}, [], none⟩ .plain "v"])
    let document : Yaml.Document := ⟨⟨1, 1, {}, [], none⟩, some (.mapping ⟨2, 1, {}, [], none⟩ false [pair])⟩
    ∃ p, Printer.ofConfig (⟨1, 3, true, true⟩ : Config Int) = .ok p ∧ CallsProper p (query.calls o) ∧
      (∃ calls, value.doc.emit p = p.run calls ∧ CallsProper p calls) ∧
      CallsProper p (document.calls o [] (document.collect .empty)).1 := by
  intro o query value pair document
  obtain ⟨p, begins, sql, json, yaml, _⟩ := front_ends_keep_contract o _ rfl
  exact ⟨p, begins, sql query, json value, yaml [] document .empty⟩

end Contract

end Galley.Layout.FrontEnds
