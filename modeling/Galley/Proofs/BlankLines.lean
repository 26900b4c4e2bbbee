import Galley.Proofs.Bookkeeping
import Galley.Proofs.Lettering
import Galley.Proofs.LineRoom
import Galley.Proofs.StatementTexts

/-! Empty lines in formatted SQL and YAML. Statements and nodes show something wherever a line may break, as long as no
keyword is written as the empty text, and comments come with as many empty lines between them as their policy keeps.
Main statement: what the formatters ask for always finds room, so that no more empty lines follow each other than the
policy allows. -/
namespace Galley.Layout.BlankLines
open Bracketing Bookkeeping FrontEnds LineRoom Lockstep Reformatting Twinning Wraparound
open Comment (Policy Table)
open Keyword.Lettering (CaseNamed keyword_ne_nil)
open Sql.StatementTexts (parse_shown)
open Yaml (Document Info Node)

variable {ι : Type}

/-- No keyword is written as the empty text. -/
def KeywordsShown (o : Options ι) : Prop := ∀ s, Shouted s → o.keyword s ≠ []

theorem named_shown {o : Options ι} (named : CaseNamed o) : KeywordsShown o :=
  fun _ shouted => keyword_ne_nil named shouted

section Statements

variable [Columns ι] {most : Nat} {o : Options ι}

theorem separated_firm {items : List (List (Call ι))} (some : items ≠ [])
    (each : ∀ item ∈ items, CallsFindRoom most item) :
    CallsFindRoom most (Sql.separated items) := by
  induction items with
  | nil => exact absurd rfl some
  | cons item rest ih =>
    have first := each item List.mem_cons_self
    cases rest with
    | nil => exact first
    | cons next rest =>
      have later := ih (List.cons_ne_nil next rest) fun item inside => each item (List.mem_cons_of_mem _ inside)
      have comma : CallsKeepRoom most ([.text [0x2c], .space] ++ Sql.separated (next :: rest)) :=
        firm_stays (firm_cons (List.cons_ne_nil _ _) (stays_break later))
      rw [Sql.separated, List.append_assoc]
      · exact firm_append first comma
      · simp

variable (words : KeywordsShown o)
include words

variable {keyword : Text}

theorem list_firm (shouted : Shouted keyword) {items : List (List (Call ι))} (some : items ≠ [])
    (each : ∀ item ∈ items, CallsFindRoom most item) : CallsFindRoom most (Sql.listCalls o keyword items) :=
  firm_group (firm_cons (words _ shouted) (stays_break (separated_firm some each)))

theorem textList_firm (shouted : Shouted keyword) {items : List Text}
    (some : items ≠ []) (each : ∀ t ∈ items, t ≠ []) : CallsFindRoom most (Sql.textListCalls o keyword items) := by
  refine list_firm words shouted (by simpa using some) ?_
  intro item member
  obtain ⟨t, inside, rfl⟩ := List.mem_map.mp member
  exact firm_text (each t inside)

/-- A text after a keyword on a line of its own. -/
theorem word_stays (shouted : Shouted keyword) (t : Text) :
    CallsKeepRoom most [.space, Sql.keywordCall o keyword, .nbsp, .text t] :=
  stays_break (firm_cons (words _ shouted) (firm_stays (firm_cons (List.cons_ne_nil _ _) (stays_text t))))

theorem terms_stay (j : Sql.Junction) (terms : List Sql.Expr) :
    CallsKeepRoom most (terms.flatMap fun t => [.space, Sql.keywordCall o j.keyword, .nbsp, .text t.text]) := by
  have shouted : Shouted j.keyword := by cases j <;> decide
  induction terms with
  | nil => rfl
  | cons t terms ih => exact stays_append (word_stays words shouted t.text) ih

theorem condition_firm (shouted : Shouted keyword) (e : Sql.Expr) :
    CallsFindRoom most (Sql.conditionCalls o keyword e) := by
  have first : CallsKeepRoom most ((e.terms.2.take 1).map fun t => (.text t.text : Call ι)) := by
    cases e.terms.2 with
    | nil => rfl
    | cons t terms => exact stays_text t.text
  have terms := stays_append first (terms_stay words e.terms.1 (e.terms.2.drop 1))
  have spaced := firm_stays (firm_cons (List.cons_ne_nil 0x20 []) terms)
  exact firm_group (firm_cons (words _ shouted) spaced)

theorem limit_stays (l : Sql.Limit) : CallsKeepRoom most (Sql.limitCalls o l) := by
  refine stays_append ?_ ?_
  · split
    · exact word_stays words (by decide) _
    · exact word_stays words (by decide) _
    · rfl
  · split
    · exact word_stays words (by decide) _
    · rfl

omit words

theorem clause_stays {α : Type} {calls : α → List (Call ι)} {clause : Option α}
    (firm : ∀ a ∈ clause, CallsFindRoom most (calls a)) : CallsKeepRoom most (Sql.clauseCalls calls clause) := by
  cases clause with
  | none => rfl
  | some a => exact stays_break (firm a rfl)

theorem keys_stay (words : KeywordsShown o) (shouted : Shouted keyword) {keys : List Text} (each : ∀ t ∈ keys, t ≠ []) :
    CallsKeepRoom most (Sql.clauseCalls (Sql.textListCalls o keyword) (Sql.nonEmpty keys)) := by
  cases keys with
  | nil => rfl
  | cons t keys => exact stays_break (textList_firm words shouted (List.cons_ne_nil t keys) each)

theorem parens_firm {inner : List (Call ι)} (firm : CallsFindRoom most inner) :
    CallsFindRoom most (Sql.parensCalls o inner) := by
  have closed : CallsFindRoom most (inner ++ [.outdent, .softBreak, .text [0x29]]) := firm_append firm rfl
  have opened : CallsKeepRoom most (.indent o.config.withDefaults.unit :: .softBreak ::
      (inner ++ [.outdent, .softBreak, .text [0x29]])) := closed most
  have whole : CallsFindRoom most ((.consistentBox 0 : Call ι) :: _ ++ [.groupEnd]) :=
    firm_group (firm_cons (List.cons_ne_nil 0x28 []) opened)
  simpa [Sql.parensCalls] using whole

/-- The clauses of a selection around what is asked for its tables. -/
theorem clauses_firm (words : KeywordsShown o) {distinct : Bool} {columns groupBy : List Text}
    {condition having : Option Sql.Expr} {sources : List (Call ι)} (any : columns ≠ [])
    (each : ∀ t ∈ columns, t ≠ []) (keys : ∀ t ∈ groupBy, t ≠ [])
    (tables : CallsKeepRoom most sources) :
    CallsFindRoom most (Sql.textListCalls o (if distinct then "SELECT DISTINCT" else "SELECT") columns ++ sources ++
      Sql.clauseCalls (Sql.conditionCalls o "WHERE") condition ++
      Sql.clauseCalls (Sql.textListCalls o "GROUP BY") (Sql.nonEmpty groupBy) ++
      Sql.clauseCalls (Sql.conditionCalls o "HAVING") having) := by
  have selects : Shouted (if distinct then "SELECT DISTINCT" else "SELECT") := by cases distinct <;> decide
  have conditions {keyword : Text} (shouted : Shouted keyword) (e : Option Sql.Expr) :
      CallsKeepRoom most (Sql.clauseCalls (Sql.conditionCalls o keyword) e) :=
    clause_stays fun e _ => condition_firm words shouted e
  refine firm_append (firm_append (firm_append (firm_append ?_ tables) ?_) ?_) ?_
  · exact textList_firm words selects any each
  · exact conditions (by decide) condition
  · exact keys_stay words (by decide) keys
  · exact conditions (by decide) having

mutual

theorem select_firm (words : KeywordsShown o) : ∀ {s : Sql.Select}, s.Shown → CallsFindRoom most (s.calls o)
  | .mk ctes body orderBy limit locking, .mk named whole keys => by
    cases broken : locking.isEmpty with
    | true =>
      simp only [Sql.Select.calls, broken, ↓reduceIte]
      refine firm_group (firm_append (firm_append ?_ (keys_stay words (by decide) keys)) ?_)
      · match ctes with
        | some t => exact firm_cons (named t rfl) (stays_break (body_firm words whole))
        | none => exact body_firm words whole
      · match limit with
        | some l => exact limit_stays words l
        | none => rfl
    | false =>
      simp only [Sql.Select.calls, broken, Bool.false_eq_true, ↓reduceIte]
      refine firm_text ?_
      rw [Sql.Select.text.eq_def]
      exact List.append_ne_nil_of_right_ne_nil _ (by simpa using broken)

theorem body_firm (words : KeywordsShown o) : ∀ {b : Sql.Body}, b.Shown → CallsFindRoom most (b.calls o)
  | .clause distinct columns [] condition groupBy having, .clause any each _ keys => by
    simp only [Sql.Body.calls]
    exact clauses_firm words any each keys rfl
  | .clause distinct columns (t :: rest) condition groupBy having, .clause any each sources keys => by
    have listed := tables_firm words sources
    simp only [Sql.Table.listCalls] at listed
    simp only [Sql.Body.calls]
    exact clauses_firm words any each keys (stays_break (list_firm words (by decide) (List.cons_ne_nil _ _) listed))
  | .parens s, .parens nested => by
    simp only [Sql.Body.calls]
    exact parens_firm (select_firm words nested)
  | .combined op all left right, .combined first second => by
    have combines : Shouted (op.keyword ++ if all then (" ALL" : Text) else []) := by
      cases op <;> cases all <;> decide
    simp only [Sql.Body.calls, List.append_assoc]
    refine firm_append (select_firm words first) ?_
    exact stays_break (firm_cons (words _ combines) (stays_break (select_firm words second)))
  | .verbatim t, .verbatim filled => by
    simp only [Sql.Body.calls]
    exact firm_text filled

theorem table_firm (words : KeywordsShown o) : ∀ {t : Sql.Table}, t.Shown → CallsFindRoom most (t.calls o)
  | .selection s asName, .selection nested => by
    simp only [Sql.Table.calls]
    refine firm_append (parens_firm (select_firm words nested)) ?_
    match asName with
    | some t =>
      have word : Shouted "AS" := by decide
      have spaced : CallsKeepRoom most [.nbsp, (.text t : Call ι)] :=
        firm_stays (firm_cons (List.cons_ne_nil _ _) (stays_text t))
      have named := firm_cons (words _ word) spaced
      exact firm_stays (firm_cons (List.cons_ne_nil _ _) (firm_stays named))
    | none => rfl
  | .verbatim t, .verbatim filled => by
    simp only [Sql.Table.calls]
    exact firm_text filled

theorem tables_firm (words : KeywordsShown o) : ∀ {ts : List Sql.Table}, (∀ t ∈ ts, t.Shown) →
    ∀ item ∈ Sql.Table.listCalls o ts, CallsFindRoom most item
  | [], _ => by
    simp only [Sql.Table.listCalls]
    exact fun item member => absurd member List.not_mem_nil
  | t :: ts, shown => by
    simp only [Sql.Table.listCalls]
    intro item member
    rcases List.mem_cons.mp member with rfl | later
    · exact table_firm words (shown t List.mem_cons_self)
    · exact tables_firm words (fun t inside => shown t (List.mem_cons_of_mem _ inside)) item later

end

/-- A statement and the semicolon after it. -/
theorem statement_firm (words : KeywordsShown o) {s : Sql.Statement} (shown : s.Shown) :
    CallsFindRoom most (s.calls o ++ [.text [0x3b]]) := by
  have ended (xs : List (Call ι)) (inner : CallsFindRoom most xs) : CallsFindRoom most (xs ++ [.text [0x3b]]) :=
    firm_append inner (stays_text _)
  cases shown with
  | select inner => exact ended _ (select_firm words inner)
  | parens inner => exact ended _ (parens_firm (select_firm words inner))
  | verbatim t =>
    intro r
    rfl

end Statements

section Comments

variable {r n : Nat} {pol : Policy} {items : List Comment} {o : Options ι}

/-- Comments that all show something. -/
def CommentsFilled (items : List Comment) : Prop := ∀ s ∈ said items, s ≠ []

theorem filled_cons {c : Comment} (filled : CommentsFilled (c :: items)) :
    (c.blank = false → c.toText ≠ []) ∧ CommentsFilled items := by
  rw [CommentsFilled, said_cons] at filled
  cases blank : c.blank with
  | true =>
    rw [if_pos blank] at filled
    exact ⟨Bool.noConfusion, filled⟩
  | false =>
    rw [if_neg (by simp [blank])] at filled
    exact ⟨fun _ => filled _ List.mem_cons_self, fun s member => filled s (List.mem_cons_of_mem _ member)⟩

theorem filled_append {more : List Comment} (first : CommentsFilled items) (second : CommentsFilled more) :
    CommentsFilled (items ++ more) := by
  intro s member
  rw [said_append] at member
  exact (List.mem_append.mp member).elim (first s) (second s)

theorem filled_trimBlank (filled : CommentsFilled items) : CommentsFilled (Comment.trimBlank items) := by
  rw [CommentsFilled, said_trimBlank]
  exact filled

theorem wrap_filled (pol : Policy) {c : Comment} (shown : c.blank = false) (filled : c.toText ≠ []) :
    ∀ d ∈ pol.wrap c, d.blank = false ∧ d.toText ≠ [] := by
  unfold Policy.wrap
  dsimp only
  split
  · intro d member
    obtain rfl := List.mem_singleton.mp member
    exact ⟨shown, filled⟩
  · intro d member
    obtain ⟨l, -, rfl⟩ := List.mem_map.mp member
    exact ⟨rfl, List.append_ne_nil_of_right_ne_nil _ (List.cons_ne_nil _ _)⟩

/-- Comments on lines of their own, and nothing blank between them. -/
theorem lines_room {most : Nat} (some : items ≠ []) (shown : ∀ c ∈ items, c.blank = false ∧ c.toText ≠ []) :
    room most r (Comment.lineCalls items : List (Call ι)) = .some most := by
  induction items generalizing r with
  | nil => exact absurd rfl some
  | cons c items ih =>
    obtain ⟨visible, filled⟩ := shown c List.mem_cons_self
    have line : room most r [(.text c.toText : Call ι), .hardBreak] = .some most := by
      rw [room_cons, roomAfter, if_neg (by simpa using filled)]
      rfl
    rw [Comment.lineCalls, List.flatMap_cons, if_neg (by simp [visible]), room_append, line, Option.bind_some]
    by_cases last : items = []
    · rw [last]
      rfl
    · exact ih last fun d inside => shown d (List.mem_cons_of_mem c inside)

/-- Comments find room wherever as many lines may be empty as are kept, `n` of which came before. -/
theorem comments_room (filled : CommentsFilled items) (enough : allowed pol ≤ r + n) :
    ∃ k, room (allowed pol) r (Comment.lineCalls (pol.normalizeAfter n items) : List (Call ι)) = some k := by
  induction items generalizing r n with
  | nil => exact ⟨r, rfl⟩
  | cons c items ih =>
    obtain ⟨own, later⟩ := filled_cons filled
    rw [Policy.normalizeAfter]
    split
    · next blank =>
      dsimp only
      split
      · next kept =>
        -- Of the allowed lines `n` are used up, and the room for the others is left.
        have more : n + 1 ≤ allowed pol := by
          unfold allowed
          omega
        obtain ⟨r, rfl⟩ := Nat.exists_eq_add_of_le' (show 1 ≤ r by omega)
        obtain ⟨k, found⟩ := ih (r := r) (n := n + 1) later (by omega)
        refine ⟨k, ?_⟩
        rw [Comment.lineCalls, List.flatMap_cons, if_pos blank]
        exact found
      · exact ih later (by omega)
    · next shown =>
      have shown : c.blank = false := by simpa using shown
      obtain ⟨k, found⟩ := ih (r := allowed pol) (n := 0) later (Nat.le_refl _)
      obtain ⟨d, more, wrapped, -⟩ := LineEnds.wrap_cons pol shown
      have lines := wrap_filled pol shown (own shown)
      rw [wrapped] at lines ⊢
      refine ⟨k, ?_⟩
      rw [Comment.lineCalls, List.flatMap_append, room_append]
      exact (congrArg (Option.bind · _) (lines_room (List.cons_ne_nil d more) lines)).trans found

theorem calls_room (filled : CommentsFilled items) (enough : allowed o.comments ≤ r) :
    ∃ k, room (allowed o.comments) r (o.comments.calls items : List (Call ι)) = some k :=
  comments_room filled enough

theorem trimBlank_last (items : List Comment) :
    Comment.trimBlank items = [] ∨ ∃ before c, Comment.trimBlank items = before ++ [c] ∧ c.blank = false := by
  unfold Comment.trimBlank
  cases rest : (items.dropWhile (·.blank)).reverse.dropWhile (·.blank) with
  | nil => exact .inl rfl
  | cons c before =>
    have stopped := List.head?_dropWhile_not (·.blank) (items.dropWhile (·.blank)).reverse
    rw [rest] at stopped
    exact .inr ⟨before.reverse, c, List.reverse_cons, stopped⟩

theorem normalizeAfter_last {c : Comment} (shown : c.blank = false) (n : Nat) (items : List Comment) :
    pol.normalizeAfter n (items ++ [c]) = pol.normalizeAfter n items ++ pol.wrap c := by
  induction items generalizing n with
  | nil => simp [Policy.normalizeAfter, shown]
  | cons d items ih =>
    simp only [List.cons_append, Policy.normalizeAfter, ih]
    split
    · split <;> rfl
    · exact (List.append_assoc ..).symm

/-- Comments on the lines after the current one. -/
def footLines (items : List Comment) : List (Call ι) :=
  items.flatMap fun c => if c.blank then [.hardBreak] else [.hardBreak, .text c.toText]

/-- Comments each after a newline are comments each before one. -/
theorem footLines_ended (items : List Comment) :
    footLines items ++ [.hardBreak] = (.hardBreak :: Comment.lineCalls items : List (Call ι)) := by
  induction items with
  | nil => rfl
  | cons c items ih =>
    rw [footLines, List.flatMap_cons, List.append_assoc]
    refine (congrArg (_ ++ ·) ih).trans ?_
    rw [Comment.lineCalls, Comment.lineCalls, List.flatMap_cons]
    split <;> rfl

theorem footLines_last (pol : Policy) (items : List Comment) {c : Comment} (shown : c.blank = false)
    (filled : c.toText ≠ []) (n : Nat) :
    ∃ before t, t ≠ [] ∧
      footLines (pol.normalizeAfter n (items ++ [c])) = (before ++ [.text t] : List (Call ι)) := by
  obtain ⟨first, more, wrapped, -⟩ := LineEnds.wrap_cons pol shown
  obtain ⟨lines, d, split⟩ : ∃ lines d, pol.wrap c = lines ++ [d] :=
    (List.eq_nil_or_concat' (pol.wrap c)).resolve_left (by simp [wrapped])
  obtain ⟨visible, seen⟩ := wrap_filled pol shown filled d (by simp [split])
  refine ⟨footLines (pol.normalizeAfter n items ++ lines) ++ [.hardBreak], d.toText, seen, ?_⟩
  rw [normalizeAfter_last shown, split, ← List.append_assoc]
  simp [footLines, visible]

/-- A newline that followed a footer would find room, so the footer does. It ends in a comment, which makes
room again. -/
theorem footer_stays (filled : CommentsFilled items) : CallsKeepRoom (allowed o.comments) (Node.footer o items) := by
  have trimmed := filled_trimBlank filled
  have lines : Node.footer o items = footLines (o.comments.normalize (Comment.trimBlank items)) := rfl
  obtain ⟨k, found⟩ := calls_room (o := o) trimmed (Nat.le_refl _)
  have ended : room (allowed o.comments) (allowed o.comments + 1) (Node.footer o items ++ [.hardBreak]) = some k := by
    rw [lines, footLines_ended]
    exact found
  rcases trimBlank_last items with none | ⟨before, c, split, shown⟩
  · rw [lines, none]
    rfl
  · have own : c.toText ≠ [] := by
      rw [split, CommentsFilled, said_append] at trimmed
      exact trimmed _ (List.mem_append_right _ (by simp [said_cons, shown]))
    obtain ⟨front, t, seen, whole⟩ := footLines_last (ι := ι) o.comments before shown own 0
    rw [lines, split, Policy.normalize, whole] at ended ⊢
    cases start : room (allowed o.comments) (allowed o.comments + 1) front with
    | none =>
      rw [List.append_assoc, room_append, start] at ended
      cases ended
    | some m =>
      rw [CallsKeepRoom, room_append, start]
      exact firm_text seen m

end Comments

section Sources

variable {r : Nat} {o : Options ι} {p : Sql.Progress}

/-- A piece that shows something wherever a line depends on it. -/
def PieceShows : Sql.Piece → Prop
  | .comments items => CommentsFilled items
  | .statement s => s.Shown
  | .trailing _ => True

/-- There is room for the line of the next statement: a break where a line was written before, and as many empty
lines as are allowed. -/
structure StatementRoom (o : Options ι) (p : Sql.Progress) (r : Nat) : Prop where
  enough : allowed o.comments ≤ r
  after : p.started = true → r = allowed o.comments + 1
  filled : CommentsFilled p.pending

/-- Whatever statements a dialect reads show something in each of their clauses. -/
def DialectShown {ε : Type} (d : Sql.Dialect ε) : Prop := ∀ part ss, d.parse part = .ok ss → ∀ s ∈ ss, s.Shown

theorem pieces_show {ε : Type} {d : Sql.Dialect ε} (statements : DialectShown d) (srcs : List Text) :
    ∀ piece ∈ (d.allPieces srcs).1, PieceShows piece := by
  refine LineEnds.allPieces_all _ ?_ (fun part _ parsed => statements part _ parsed) (fun _ _ _ _ => trivial) srcs
  intro src s member
  obtain ⟨c, inside, rfl⟩ := List.mem_map.mp member
  obtain ⟨read, shown⟩ := List.mem_filter.mp inside
  have legible := (Comment.Rereading.scan_legible read).1
  cases legible with
  | blank => cases shown
  | line =>
    rw [LineEnds.marker_eq]
    exact List.cons_ne_nil _ _

theorem startLine_room (ready : StatementRoom o p r) :
    ∃ k, room (allowed o.comments) r (Sql.startLine o p) = some k := by
  obtain ⟨enough, after, filled⟩ := ready
  unfold Sql.startLine
  split
  · next started =>
    have waiting : CommentsFilled (.blankLine :: p.pending) := filled
    -- The break takes the room of the line that was written, and leaves that of the empty ones.
    rw [after started]
    exact calls_room waiting (Nat.le_refl _)
  · refine calls_room ?_ enough
    rw [CommentsFilled, said_spoken, spoken_dropWhile]
    exact filled

theorem flush_room (ready : StatementRoom o p r) : ∃ k, room (allowed o.comments) r (Sql.flush o p) = some k := by
  unfold Sql.flush
  dsimp only
  split
  · exact ⟨r, rfl⟩
  · exact startLine_room ⟨ready.enough, ready.after, filled_trimBlank ready.filled⟩

variable [Columns ι]

theorem piece_room (words : KeywordsShown o) {piece : Sql.Piece} (ready : StatementRoom o p r)
    (shows : PieceShows piece) :
    ∃ k, room (allowed o.comments) r (piece.calls o p).1 = some k ∧ StatementRoom o (piece.calls o p).2 k := by
  cases piece with
  | comments items => exact ⟨r, rfl, ready.enough, ready.after, filled_append ready.filled shows⟩
  | statement s =>
    obtain ⟨k, started⟩ := startLine_room ready
    refine ⟨allowed o.comments + 1, ?_, Nat.le_succ _, fun _ => rfl, fun s none => absurd none List.not_mem_nil⟩
    rw [Sql.Piece.calls, List.append_assoc, room_append, started]
    exact statement_firm words shows k
  | trailing c =>
    have firm : CallsFindRoom (allowed o.comments) [.nbsp, (.text c.toText : Call ι)] :=
      firm_cons (List.cons_ne_nil _ _) (stays_text _)
    exact ⟨_, firm r, Nat.le_succ _, fun _ => rfl, ready.filled⟩

/-- Pieces one after the other. -/
theorem pieces_room (words : KeywordsShown o) {pieces : List Sql.Piece} (ready : StatementRoom o p r)
    (shows : ∀ piece ∈ pieces, PieceShows piece) :
    ∃ k, room (allowed o.comments) r (Sql.piecesCalls o p pieces).1 = some k ∧
      StatementRoom o (Sql.piecesCalls o p pieces).2 k := by
  induction pieces generalizing p r with
  | nil => exact ⟨r, rfl, ready⟩
  | cons piece rest ih =>
    obtain ⟨m, first, between⟩ := piece_room words ready (shows piece List.mem_cons_self)
    obtain ⟨k, later, after⟩ := ih between fun piece inside => shows piece (List.mem_cons_of_mem _ inside)
    refine ⟨k, ?_, after⟩
    rw [Sql.piecesCalls, room_append, first]
    exact later

/-- What a source asks for finds room. -/
theorem source_room {ε : Type} {d : Sql.Dialect ε} (words : KeywordsShown o) (statements : DialectShown d)
    (srcs : List Text) :
    ∃ k, room (allowed o.comments) (allowed o.comments) (pieceCalls o (d.allPieces srcs).1) = some k := by
  have start : StatementRoom o {} (allowed o.comments) :=
    ⟨Nat.le_refl _, Bool.noConfusion, fun s none => absurd none List.not_mem_nil⟩
  obtain ⟨m, written, after⟩ := pieces_room words start (pieces_show statements srcs)
  obtain ⟨k, left⟩ := flush_room after
  refine ⟨k, ?_⟩
  rw [pieceCalls, room_append, written]
  exact left

end Sources

mutual

/-- A tree in which no document is without a node. -/
def rooted : Node → Bool
  | .scalar .. | .reference .. => true
  | .sequence _ _ items => rootedItems items
  | .mapping _ _ pairs => rootedPairs pairs
  | .document _ _ nodes => !nodes.isEmpty && rootedItems nodes

/-- Nodes in which no document is without one. -/
def rootedItems : List Node → Bool
  | [] => true
  | n :: rest => rooted n && rootedItems rest

/-- Pairs in which no document is without a node. -/
def rootedPairs : List (Node × Node) → Bool
  | [] => true
  | (k, v) :: rest => rooted k && rooted v && rootedPairs rest

end

/-- A document with a node, as all the documents in it. -/
def DocumentRooted (d : Document) : Prop := d.root.any rooted = true

instance (d : Document) : Decidable (DocumentRooted d) := inferInstanceAs (Decidable (_ = true))

section Nodes

variable {o : Options ι} {t u : Table}

/-- A table whose comments all show something. -/
structure TableFilled (t : Table) : Prop where
  sound : Bookkeeping.PlacesDistinct t
  filled : ∀ s ∈ onTable t, s ≠ []

theorem marked_took {heads feet : List Comment.Span} {items : List Comment} (marked : TableFilled t)
    (took : LinesTaken heads feet (said items) t u) : CommentsFilled items ∧ TableFilled u := by
  have books := took.books marked.sound
  refine ⟨fun s member => ?_, took.sound marked.sound, fun s member => ?_⟩
  · exact marked.filled s (books.mem_iff.mpr (List.mem_append_left _ member))
  · exact marked.filled s (books.mem_iff.mpr (List.mem_append_right _ member))

theorem marked_collect (marked : TableFilled t) (d : Document) : TableFilled (d.collect t) := by
  have put := put_document d t
  refine ⟨put.sound marked.sound, fun s member => ?_⟩
  rcases List.mem_append.mp (put.books.mem_iff.mp member) with old | new
  · exact marked.filled s old
  · obtain ⟨l, remark, rfl⟩ := List.mem_map.mp new
    obtain ⟨i, -, inside⟩ := List.mem_flatMap.mp remark
    have filled : l ≠ [] := by
      rcases List.mem_append.mp inside with head | foot
      · simpa using (List.mem_filter.mp head).2
      · simpa using (List.mem_filter.mp foot).2
    unfold signed
    split
    · exact filled
    · exact List.append_ne_nil_of_right_ne_nil _ filled

theorem quoted_filled (t : Text) : t.quoted ≠ [] := by simp [Text.quoted]

theorem scalarText_filled (style : Yaml.Style) (tag : Option Text) (v : Text) : Node.scalarText style tag v ≠ [] := by
  cases style with
  | plain =>
    simp only [Node.scalarText]
    split
    · simp
    · split
      · exact quoted_filled v
      · next fine =>
        rintro rfl
        exact fine rfl
  | singleQuoted => simp [Node.scalarText]
  | _ => exact quoted_filled v

theorem anchored_filled (anchor : Text) {s : Text} (filled : s ≠ []) : Node.anchored anchor s ≠ [] := by
  unfold Node.anchored
  split
  · exact filled
  · exact List.append_ne_nil_of_right_ne_nil _ filled

theorem decorate_filled (i : Info) {s : Text} (filled : s ≠ []) : Node.decorate i s ≠ [] := by
  refine anchored_filled _ ?_
  unfold Node.tagged
  split
  · exact List.append_ne_nil_of_right_ne_nil _ filled
  · exact filled

theorem decorated_filled (lines : List Text) (i : Info) (style : Yaml.Style) (v : Text) :
    Node.decorated lines i style v ≠ [] := by
  unfold Node.decorated
  dsimp only
  split
  · exact anchored_filled _ (List.append_ne_nil_of_right_ne_nil _ (scalarText_filled style i.tag v))
  · exact decorate_filled i (scalarText_filled style i.tag v)

theorem note_stays (most : Nat) (nodes : List Node) : CallsKeepRoom most (Node.lineNote nodes : List (Call ι)) := by
  unfold Node.lineNote
  split
  · exact firm_stays (firm_cons (List.cons_ne_nil _ _) (stays_text _))
  · rfl

variable [Columns ι]

/-- An entry from the start of its line. The last is followed by the closing sign, and others by a break and what
finds room after it. -/
theorem entry_room {lead foot : List Comment} {entry others : List (Call ι)} {close : Text}
    (before : CommentsFilled lead)
    (firm : CallsFindRoom (allowed o.comments) entry) (closes : close ≠ []) (nodes : List Node) (last : Bool)
    (after : CommentsFilled foot) (none : last = true → others = [])
    (later : last = false → room (allowed o.comments) (allowed o.comments) others = some (allowed o.comments + 1)) :
    room (allowed o.comments) (allowed o.comments)
      (o.comments.calls lead ++ entry ++ Node.entryEnd o close nodes last foot ++ others) =
        some (allowed o.comments + 1) := by
  obtain ⟨k, heads⟩ := calls_room (o := o) before (Nat.le_refl _)
  have notes := note_stays (ι := ι) (allowed o.comments) nodes
  have below := footer_stays (o := o) after
  rw [List.append_assoc, List.append_assoc, room_append, heads, Option.bind_some, room_append, firm k,
    Option.bind_some, Node.entryEnd]
  generalize (!(Node.lineNote (ι := ι) nodes).isEmpty || !(Node.footer o foot).isEmpty) = hard
  cases last with
  | true =>
    have closed : CallsKeepRoom (allowed o.comments)
        [.outdent, if hard then .hardBreak else .softBreak, (.text close : Call ι)] := by
      cases hard <;> exact firm_text (ι := ι) closes _
    rw [none rfl, List.append_nil]
    exact stays_append (stays_append notes below) closed
  | false =>
    have remarks := stays_append (stays_append (stays_text [0x2c]) notes) below
    have more : CallsKeepRoom (allowed o.comments) ((if hard then .hardBreak else .space) :: others) := by
      cases hard <;> exact later rfl
    have whole := stays_append remarks more
    simpa [CallsKeepRoom] using whole

/-- A collection whose entries find room from the start of a line. -/
theorem collection_firm {most : Nat} (i : Info) {sign : Text} (filled : sign ≠ []) {body : List (Call ι)}
    (inner : room most most body = some (most + 1)) :
    CallsFindRoom most (Node.opening o i sign ++ body ++ [.groupEnd]) := by
  have indented : CallsKeepRoom most (.indent o.config.withDefaults.unit :: .softBreak :: body) := inner
  exact firm_group (firm_cons (decorate_filled i filled) indented)

theorem bare_firm {most : Nat} (i : Info) {sign : Text} (filled : sign ≠ []) (close : Text) :
    CallsFindRoom most (Node.bare i sign close : List (Call ι)) :=
  firm_group (firm_cons (decorate_filled i filled) (stays_text close))

mutual

/-- A node finds room wherever it is written, and leaves comments that show something. -/
theorem node_firm (lines : List Text) : ∀ (n : Node) {t : Table}, rooted n = true → TableFilled t →
    CallsFindRoom (allowed o.comments) (n.calls o lines t).1 ∧ TableFilled (n.calls o lines t).2
  | .scalar i style v, t, _, marked => by
    rw [Node.calls]
    exact ⟨firm_text (decorated_filled lines i style v), marked⟩
  | .reference i name, t, _, marked => by
    rw [Node.calls]
    exact ⟨firm_text (List.cons_ne_nil _ _), marked⟩
  | .sequence i flow [], t, _, marked => by
    rw [Node.calls]
    exact ⟨bare_firm i (List.cons_ne_nil _ _) _, marked⟩
  | .sequence i flow (n :: rest), t, full, marked => by
    rw [rooted] at full
    rw [Node.calls]
    obtain ⟨inner, left⟩ := items_room lines (n :: rest) full marked
    exact ⟨collection_firm i (List.cons_ne_nil _ _) (inner (List.cons_ne_nil n rest)), left⟩
  | .mapping i flow [], t, _, marked => by
    rw [Node.calls]
    exact ⟨bare_firm i (List.cons_ne_nil _ _) _, marked⟩
  | .mapping i flow (p :: rest), t, full, marked => by
    rw [rooted] at full
    rw [Node.calls]
    obtain ⟨inner, left⟩ := pairs_room lines (p :: rest) full marked
    exact ⟨collection_firm i (List.cons_ne_nil _ _) (inner (List.cons_ne_nil p rest)), left⟩
  | .document i flow nodes, t, full, marked => by
    rw [rooted, Bool.and_eq_true] at full
    rw [Node.calls]
    obtain ⟨inner, left⟩ := nodes_firm lines nodes full.2 marked
    exact ⟨inner (by simpa using full.1), left⟩

/-- Nodes one after the other. -/
theorem nodes_firm (lines : List Text) : ∀ (nodes : List Node) {t : Table}, rootedItems nodes = true → TableFilled t →
    (nodes ≠ [] → CallsFindRoom (allowed o.comments) (Node.nodeCalls o lines nodes t).1) ∧
      TableFilled (Node.nodeCalls o lines nodes t).2
  | [], t, _, marked => by
    rw [Node.nodeCalls]
    exact ⟨fun none => absurd rfl none, marked⟩
  | n :: rest, t, full, marked => by
    rw [rootedItems, Bool.and_eq_true] at full
    obtain ⟨first, between⟩ := node_firm lines n full.1 marked
    obtain ⟨others, left⟩ := nodes_firm lines rest full.2 between
    rw [Node.nodeCalls]
    refine ⟨fun _ => firm_append first ?_, left⟩
    cases rest with
    | nil =>
      rw [Node.nodeCalls]
      rfl
    | cons n rest => exact firm_stays (others (List.cons_ne_nil n rest))

theorem items_room (lines : List Text) : ∀ (items : List Node) {t : Table}, rootedItems items = true → TableFilled t →
    (items ≠ [] → room (allowed o.comments) (allowed o.comments) (Node.itemCalls o lines items t).1 =
      some (allowed o.comments + 1)) ∧ TableFilled (Node.itemCalls o lines items t).2
  | [], t, _, marked => by
    rw [Node.itemCalls]
    exact ⟨fun none => absurd rfl none, marked⟩
  | n :: rest, t, full, marked => by
    rw [rootedItems, Bool.and_eq_true] at full
    obtain ⟨lead, opened⟩ := marked_took marked (took_heads [n] t)
    obtain ⟨entry, between⟩ := node_firm lines n full.1 opened
    obtain ⟨foot, closed⟩ := marked_took between (took_feet [n] _)
    obtain ⟨others, left⟩ := items_room lines rest full.2 closed
    rw [Node.itemCalls]
    refine ⟨fun _ => entry_room lead entry (List.cons_ne_nil _ _) [n] _ foot (fun last => ?_) fun more => ?_, left⟩
    · rw [List.isEmpty_iff.mp last, Node.itemCalls]
    · exact others (by simpa using more)

theorem pairs_room (lines : List Text) : ∀ (pairs : List (Node × Node)) {t : Table},
    rootedPairs pairs = true → TableFilled t →
    (pairs ≠ [] → room (allowed o.comments) (allowed o.comments) (Node.pairCalls o lines pairs t).1 =
      some (allowed o.comments + 1)) ∧ TableFilled (Node.pairCalls o lines pairs t).2
  | [], t, _, marked => by
    rw [Node.pairCalls]
    exact ⟨fun none => absurd rfl none, marked⟩
  | (k, v) :: rest, t, full, marked => by
    rw [rootedPairs, Bool.and_eq_true, Bool.and_eq_true] at full
    obtain ⟨lead, opened⟩ := marked_took marked (took_heads [k, v] t)
    obtain ⟨key, between⟩ := node_firm lines k full.1.1 opened
    obtain ⟨value, valued⟩ := node_firm lines v full.1.2 between
    obtain ⟨foot, closed⟩ := marked_took valued (took_feet [k, v] _)
    obtain ⟨others, left⟩ := pairs_room lines rest full.2 closed
    have colon : CallsKeepRoom (allowed o.comments) [.text [0x3a], (.nbsp : Call ι)] := rfl
    have entry := firm_append (firm_append key colon) (firm_stays value)
    rw [Node.pairCalls]
    refine ⟨fun _ => ?_, left⟩
    have whole := entry_room lead entry (List.cons_ne_nil 0x7d []) [k, v] rest.isEmpty foot
      (fun last => ?_) fun more => others (by simpa using more)
    · simpa only [List.append_assoc] using whole
    · rw [List.isEmpty_iff.mp last, Node.pairCalls]

end

theorem document_room (lines : List Text) {d : Document} (full : DocumentRooted d) (marked : TableFilled t) :
    room (allowed o.comments) (allowed o.comments) (d.calls o lines t).1 = some (allowed o.comments + 1) ∧
      TableFilled (d.calls o lines t).2 := by
  obtain ⟨info, root⟩ := d
  cases root with
  | none => cases full
  | some n =>
    obtain ⟨own, opened⟩ := marked_took marked (took_leading t (Document.mk info (some n)).span)
    obtain ⟨lead, entered⟩ := marked_took opened (took_leading _ n.span)
    obtain ⟨body, written⟩ := node_firm (o := o) lines n full entered
    obtain ⟨foot, closed⟩ := marked_took written (took_trailing _ n.span)
    obtain ⟨below, left⟩ := marked_took closed (took_trailing _ (Document.mk info (some n)).span)
    obtain ⟨k, heads⟩ := calls_room (o := o) (filled_trimBlank (filled_append own lead)) (Nat.le_refl _)
    refine ⟨?_, left⟩
    have remarks := stays_append (note_stays (allowed o.comments) [n]) (footer_stays (filled_append foot below))
    have whole := firm_append body remarks k
    rw [Document.calls]
    simp only [List.append_assoc]
    rw [room_append, heads]
    exact whole

/-- What documents ask for finds room: after one there is room for the line between it and the next. -/
theorem documents_room (lines : List Text) {docs : List Document} (full : ∀ d ∈ docs, DocumentRooted d)
    (first : Bool) (marked : TableFilled t) :
    ∃ k, room (allowed o.comments) (if first then allowed o.comments else allowed o.comments + 1)
      (Document.allCalls o lines docs first t) = some k := by
  induction docs generalizing first t with
  | nil => exact ⟨_, rfl⟩
  | cons d docs ih =>
    obtain ⟨body, left⟩ := document_room (o := o) lines (full d List.mem_cons_self) (marked_collect marked d)
    obtain ⟨k, later⟩ := ih (fun d inside => full d (List.mem_cons_of_mem _ inside)) false left
    refine ⟨k, ?_⟩
    rw [Document.allCalls, room_append, room_append]
    have start : room (allowed o.comments) (if first then allowed o.comments else allowed o.comments + 1)
        (if first then [] else [.hardBreak, .text "---", (.hardBreak : Call ι)]) = some (allowed o.comments) := by
      cases first <;> rfl
    rw [start, Option.bind_some, body, Option.bind_some]
    exact later

end Nodes

variable [Columns ι]

/-- The empty lines of formatted SQL are bounded, as long as newlines stand between texts alone. -/
def SourceBounded {ε : Type} (d : Sql.Dialect ε) (message : ε → Text) (o : Options ι) (srcs : List Text) : Prop :=
  TextsSingle (pieceCalls o (d.allPieces srcs).1) → ∀ out, d.format message o srcs = .ok out →
    BlanksBounded (max 0 o.comments.maxBlankLines) out

/-- The empty lines of formatted YAML are bounded, as long as newlines stand between texts alone and no document is
without a node. -/
def StreamBounded (o : Options ι) (lines : List Text) (docs : List Document) (problem : Option Text) : Prop :=
  TextsSingle (Document.allCalls o lines docs true .empty) → (∀ d ∈ docs, DocumentRooted d) →
    ∀ out, Yaml.formatRead o lines docs problem = .ok out → BlanksBounded (max 0 o.comments.maxBlankLines) out

section Formats

variable {o : Options Int} {start : Printer Int} {calls : List (Call Int)}

theorem voices_words (good : Text → Prop) (k : Call Int) : CallVoices good k.words ↔ CallVoices good k := by
  cases k with
  | emit t => cases t <;> rfl
  | _ => rfl

theorem single_words {xs : List (Call Int64)} (twins : CallsTwinned CallSpells xs calls) (single : TextsSingle xs) :
    TextsSingle calls := by
  intro k member
  rw [twins_words twins] at single
  exact (voices_words _ k).mp (single _ (List.mem_map_of_mem member))

theorem source_bounded {ε : Type} {d : Sql.Dialect ε} {srcs : List Text} {out : Text} (words : KeywordsShown o)
    (statements : DialectShown d) (single : TextsSingle (pieceCalls o (d.allPieces srcs).1))
    (written : WrittenAs o (sourceCalls d srcs o) out) : BlanksBounded (max 0 o.comments.maxBlankLines) out := by
  obtain ⟨k, found⟩ := source_room words statements srcs
  exact written_bounded single found written

theorem stream_bounded {lines : List Text} {docs : List Document} {out : Text} (full : ∀ d ∈ docs, DocumentRooted d)
    (single : TextsSingle (Document.allCalls o lines docs true .empty))
    (written : WrittenAs o (streamCalls lines docs o) out) : BlanksBounded (max 0 o.comments.maxBlankLines) out := by
  have blank : TableFilled .empty := ⟨⟨List.nodup_nil, List.nodup_nil⟩, fun s none => absurd none List.not_mem_nil⟩
  obtain ⟨k, found⟩ := documents_room (o := o) lines full true blank
  exact written_bounded single found written

end Formats

end Galley.Layout.BlankLines
