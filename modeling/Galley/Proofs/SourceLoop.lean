import Galley.Proofs.Bookkeeping
import Galley.Proofs.LineEnds

/-! The comments of SQL sources on their way to the printer. Each turn of reading takes comments and blank lines off
the front of a source, then a statement and the comment on its line. A comment before a statement waits, over
turns without a statement and over the ends of sources, until a statement is written or nothing is left. Main
statement: whatever the dialect does, reading ends on every source, and the comments that are written are those
that were read, each as often as it was read; only blank lines are dropped. -/
namespace Galley.Layout.SourceLoop
open Sql (Dialect Piece Progress marker)
open LineEnds (Part lineParts startParts parts parts_calls)
open FrontEnds (pieceCalls print_append)
open Bookkeeping (spoken spoken_append spoken_dropWhile spoken_trimBlank spoken_normalize)

section Turns

variable {ε : Type} {d : Dialect ε} {src : Text}

/-- Reading a source, turn by turn, to its end. -/
inductive Loops (d : Dialect ε) : Text → List Piece → Prop where
  /-- Only white space is left after the comments. -/
  | last {src rest : Text} {items : List Comment} (scanned : Comment.scan marker src = (items, rest))
      (blank : Text.isBlank rest = true) : Loops d src [.comments items]
  /-- A part is cut off, and the statements in it are read; a comment on its line is taken too. -/
  | turn {src text part left rest : Text} {items : List Comment} {statements : List Sql.Statement}
      {trailing : Option Comment} {pieces : List Piece} (scanned : Comment.scan marker src = (items, text))
      (filled : Text.isBlank text = false) (cut : d.cut text = (part, left)) (parsed : d.parse part = .ok statements)
      (split : Comment.splitTrailing marker left = (trailing, rest)) (later : Loops d rest pieces) :
      Loops d src (.comments items :: statements.map .statement ++ trailing.toList.map .trailing ++ pieces)

theorem join_lines (t : Text) : Text.join [0x0a] t.lines = t := by
  unfold Text.lines
  induction t with
  | nil => rfl
  | cons b t ih =>
    unfold Text.splitOn
    cases split : Text.splitOn 0x0a t with
    | nil => exact absurd split (Comment.Wrapping.splitOn_ne_nil 0x0a t)
    | cons piece rest =>
      rw [split] at ih
      by_cases newline : b = 0x0a
      · simp [newline, Text.join, ih]
      · cases rest with
        | nil | cons => simpa [newline, Text.join] using ih

theorem length_join (l : Text) (rest : List Text) :
    (Text.join [0x0a] rest).length ≤ (Text.join [0x0a] (l :: rest)).length := by
  cases rest with
  | nil => exact Nat.zero_le _
  | cons next rest => simp [Text.join]; omega

/-- What is left after the comments is no longer than the source. -/
theorem scan_shorter (src : Text) : (Comment.scan marker src).2.length ≤ src.length := by
  have lines (ls : List Text) :
      (Text.join [0x0a] (Comment.scanLines marker ls).2).length ≤ (Text.join [0x0a] ls).length := by
    induction ls with
    | nil => exact Nat.le_refl _
    | cons l rest ih =>
      have step := length_join l rest
      unfold Comment.scanLines
      split
      · split
        · exact Nat.zero_le _
        · exact Nat.le_trans ih step
      · split
        · exact Nat.le_trans ih step
        · exact Nat.le_refl _
  have whole := lines src.lines
  rwa [join_lines] at whole

theorem splitTrailing_shorter (src : Text) : (Comment.splitTrailing marker src).2.length ≤ src.length := by
  have next : src.cutLine.2.length ≤ src.length := by
    have shorter := (List.dropWhile_suffix (fun b : UInt8 => decide (b ≠ 0x0a)) (l := src)).length_le
    simp only [Text.cutLine, List.length_drop]
    omega
  unfold Comment.splitTrailing
  dsimp only
  split
  · exact next
  · split
    · exact next
    · exact Nat.le_refl _

/-- A part that is cut off takes something away. -/
theorem cut_shorter (filled : src ≠ []) : (d.cut src).2.length < src.length := by
  have some := List.length_pos_of_ne_nil filled
  unfold Dialect.cut
  split
  · split
    · rw [List.length_drop]
      omega
    · exact some
  · exact some

/-- Where all parts can be read, a source is read to its end in no more turns than it has bytes, and one. -/
theorem pieces_loops (parses : ∀ t, ∃ statements, d.parse t = .ok statements) {n : Nat} (enough : src.length < n) :
    ∃ pieces, Loops d src pieces ∧ d.pieces n src = (pieces, none) := by
  induction n generalizing src with
  | zero => exact absurd enough (Nat.not_lt_zero _)
  | succ n ih =>
    obtain ⟨items, text, scanned⟩ : ∃ items text, Comment.scan marker src = (items, text) := ⟨_, _, rfl⟩
    have left : text.length ≤ src.length := by simpa [scanned] using scan_shorter src
    cases blank : Text.isBlank text with
    | true => exact ⟨_, .last scanned blank, by simp only [Dialect.pieces, scanned, blank, ↓reduceIte]⟩
    | false =>
      obtain ⟨part, left, cut⟩ : ∃ part left, d.cut text = (part, left) := ⟨_, _, rfl⟩
      obtain ⟨trailing, rest, split⟩ : ∃ trailing rest, Comment.splitTrailing marker left = (trailing, rest) :=
        ⟨_, _, rfl⟩
      obtain ⟨statements, parsed⟩ := parses part
      have filled : text ≠ [] := by
        rintro rfl
        cases blank
      have shorter : left.length < text.length := by simpa [cut] using cut_shorter (d := d) filled
      have after : rest.length ≤ left.length := by simpa [split] using splitTrailing_shorter left
      obtain ⟨pieces, loops, same⟩ := ih (show rest.length < n by omega)
      refine ⟨_, .turn scanned blank cut parsed split loops, ?_⟩
      simp only [Dialect.pieces, scanned, blank, Bool.false_eq_true, ↓reduceIte, cut, parsed, split, same]

/-- A source is read in one way. -/
theorem loops_unique {pieces others : List Piece} (loops : Loops d src pieces) (also : Loops d src others) :
    pieces = others := by
  induction loops generalizing others with
  | last scanned blank =>
    cases also with
    | last scanned' _ =>
      rw [scanned] at scanned'
      obtain ⟨rfl, -⟩ := Prod.mk.inj scanned'
      rfl
    | turn scanned' filled =>
      rw [scanned] at scanned'
      obtain ⟨rfl, rfl⟩ := Prod.mk.inj scanned'
      rw [blank] at filled
      cases filled
  | turn scanned filled cut parsed split _ ih =>
    cases also with
    | last scanned' blank =>
      rw [scanned] at scanned'
      obtain ⟨rfl, rfl⟩ := Prod.mk.inj scanned'
      rw [blank] at filled
      cases filled
    | turn scanned' _ cut' parsed' split' later' =>
      rw [scanned] at scanned'
      obtain ⟨rfl, rfl⟩ := Prod.mk.inj scanned'
      rw [cut] at cut'
      obtain ⟨rfl, rfl⟩ := Prod.mk.inj cut'
      rw [parsed] at parsed'
      obtain rfl := Except.ok.inj parsed'
      rw [split] at split'
      obtain ⟨rfl, rfl⟩ := Prod.mk.inj split'
      rw [ih later']

end Turns

section Comments

/-- The comments that are read for a piece. -/
def returned : Piece → List Comment
  | .comments items => items
  | .statement _ => []
  | .trailing c => [c]

/-- The comment that a part is. -/
def commentOf : Part → Option Comment
  | .comment c => some c
  | _ => none

variable {pol : Comment.Policy} {p : Progress} {pieces : List Piece}

theorem lineParts_spoken (items : List Comment) : (lineParts items).filterMap commentOf = spoken items := by
  unfold lineParts
  induction items with
  | nil => rfl
  | cons c items ih =>
    rw [List.flatMap_cons, List.filterMap_append, ih]
    cases blank : c.blank <;> simp [spoken, blank, commentOf]

/-- What waits is written before a statement. -/
theorem startParts_spoken (unwrapped : pol.wrapWidth ≤ 0) :
    (startParts pol p).filterMap commentOf = spoken p.pending := by
  unfold startParts
  split
  · show (lineParts _).filterMap commentOf = _
    rw [lineParts_spoken, spoken_normalize unwrapped]
    rfl
  · rw [lineParts_spoken, spoken_normalize unwrapped, spoken_dropWhile]

/-- What waits and what is read is written. A comment on the line of an empty statement is written before those
that wait. -/
theorem parts_spoken (unwrapped : pol.wrapWidth ≤ 0) (trailing : ∀ c, .trailing c ∈ pieces → c.blank = false) :
    ((parts pol p pieces).filterMap commentOf).Perm (spoken (p.pending ++ pieces.flatMap returned)) := by
  induction pieces generalizing p with
  | nil =>
    rw [List.flatMap_nil, List.append_nil, ← spoken_trimBlank]
    unfold parts
    dsimp only
    split
    · next none => rw [List.isEmpty_iff.mp none]; exact .refl _
    · rw [startParts_spoken unwrapped]
  | cons piece rest ih =>
    have later (c : Comment) (member : .trailing c ∈ rest) : c.blank = false :=
      trailing c (List.mem_cons_of_mem _ member)
    cases piece with
    | comments items =>
      rw [parts, List.flatMap_cons, ← List.append_assoc]
      exact ih later
    | statement s =>
      rw [parts, List.filterMap_append, startParts_spoken unwrapped, spoken_append]
      exact (ih later).append_left _
    | trailing c =>
      have shown := trailing c List.mem_cons_self
      have alone : spoken [c] = [c] := by simp [spoken, shown]
      rw [List.flatMap_cons, spoken_append, spoken_append, show returned (.trailing c) = [c] from rfl, alone]
      refine ((ih later).cons c).trans ?_
      rw [spoken_append]
      exact List.perm_middle.symm

end Comments

section Runs

variable {ε : Type} {d : Dialect ε} {srcs : List Text}

/-- All sources are read to their ends. -/
theorem allPieces_loops (parses : ∀ t, ∃ statements, d.parse t = .ok statements) (srcs : List Text) :
    ∃ runs, List.Forall₂ (Loops d) srcs runs ∧ d.allPieces srcs = (runs.flatten, none) := by
  induction srcs with
  | nil => exact ⟨[], .nil, rfl⟩
  | cons src srcs ih =>
    obtain ⟨pieces, loops, here⟩ := pieces_loops parses (Nat.lt_succ_self src.length)
    obtain ⟨runs, each, later⟩ := ih
    exact ⟨pieces :: runs, .cons loops each, by simp only [Dialect.allPieces, here, later, List.flatten_cons]⟩

variable {ι : Type} [Columns ι] {o : Options ι} {pieces : List Piece}

/-- Sources that are read to their ends are formatted as their pieces are printed. -/
theorem format_eq_print (message : ε → Text) (read : d.allPieces srcs = (pieces, none)) :
    d.format message o srcs =
      ((Printer.print o.config (pieceCalls o pieces)).map fun p => p.output.trimRight).mapError .layout := by
  rw [pieceCalls, print_append]
  unfold Dialect.format
  simp only [read]
  generalize (do
    let start ← Printer.ofConfig o.config
    start.run (Sql.piecesCalls o {} pieces).1) = written
  cases written with
  | error f => rfl
  | ok p =>
    simp only [PageWriting.ok_bind]
    cases (do (← p.run (Sql.flush o (Sql.piecesCalls o {} pieces).2)).finish) <;> rfl

end Runs

/-- Every source is read to its end, in one way, by any dialect that can read all parts of it. Where comments are
not wrapped, the comments that are written for sources, before statements, behind them and at the end, are those
that were read, each as often as it was read; only blank lines are dropped. -/
theorem comments_written_as_read {ε : Type} (d : Dialect ε) (message : ε → Text)
    (parses : ∀ t, ∃ statements, d.parse t = .ok statements) (srcs : List Text) :
    (∀ src, ∃! pieces, Loops d src pieces) ∧
    ∃ runs, List.Forall₂ (Loops d) srcs runs ∧ d.allPieces srcs = (runs.flatten, none) ∧
      ∀ (ι : Type) [Columns ι] (o : Options ι), o.comments.wrapWidth ≤ 0 →
        (parts o.comments {} runs.flatten).flatMap (Part.calls o) = pieceCalls o runs.flatten ∧
        ((parts o.comments {} runs.flatten).filterMap commentOf).Perm (spoken (runs.flatten.flatMap returned)) ∧
        d.format message o srcs =
          ((Printer.print o.config (pieceCalls o runs.flatten)).map fun p => p.output.trimRight).mapError .layout := by
  refine ⟨fun src => ?_, ?_⟩
  · obtain ⟨pieces, loops, -⟩ := pieces_loops parses (Nat.lt_succ_self src.length)
    exact ⟨pieces, loops, fun others also => loops_unique also loops⟩
  · obtain ⟨runs, each, read⟩ := allPieces_loops parses srcs
    refine ⟨runs, each, read, fun ι _ o unwrapped => ⟨parts_calls {} _, ?_, format_eq_print message read⟩⟩
    have clean := LineEnds.allPieces_clean d srcs
    rw [read] at clean
    exact parts_spoken (p := {}) unwrapped fun c member => (clean _ member).2

/-- The statements of SQL, and none where they cannot be read. -/
def lenient : Dialect Unit := ⟨Sql.Token.split, fun t => .ok ((Sql.Statement.parse t).toOption.getD [])⟩

/-- Comments before an empty statement, on its line, before and on the line of another one, and at the end of the
sources. The comment on the line of the empty statement comes first. -/
theorem comments_written_as_read_waiting :
    let srcs : List Text := ["-- a\n; -- b\n\n-- c\nselect 1; -- d\n-- e", "\n\n-- a\n"]
    let o : Options Int64 := Options.standard
    (∀ t, ∃ statements, lenient.parse t = .ok statements) ∧ o.comments.wrapWidth ≤ 0 ∧
      ((parts o.comments {} (lenient.allPieces srcs).1).filterMap commentOf).Perm
        (([" a", " b", " c", " d", " e", " a"] : List Text).map (Comment.line marker)) ∧
      lenient.format (fun _ => []) o srcs =
        .ok (" -- b-- a\n\n-- c\nSELECT 1; -- d\n\n-- e\n\n-- a" : String) := by
  intro srcs o
  have parses : ∀ t, ∃ statements, lenient.parse t = .ok statements := fun _ => ⟨_, rfl⟩
  have unwrapped : o.comments.wrapWidth ≤ 0 := by decide
  obtain ⟨-, runs, -, read, each⟩ := comments_written_as_read lenient (fun _ => []) parses srcs
  obtain ⟨-, written, -⟩ := each Int64 o unwrapped
  have pieces : runs.flatten = (lenient.allPieces srcs).1 := by rw [read]
  have said : spoken ((lenient.allPieces srcs).1.flatMap returned) =
      (([" a", " b", " c", " d", " e", " a"] : List Text).map (Comment.line marker)) := by decide +kernel
  rw [pieces, said] at written
  exact ⟨parses, unwrapped, written, by decide +kernel⟩

end Galley.Layout.SourceLoop
