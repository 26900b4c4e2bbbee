import Galley.Proofs.Rereading
import Galley.Proofs.Wraparound

/-! Comments of formatted statements and what follows them. A source is written as newlines, blanks,
comments and statements, one after the other, and a comment that comes before a statement ends with a
newline. One that stands on the line on which a statement ends is left without: what comes next starts a
line, unless no statement was written before. So comments end their lines, but for those on the line of an
empty statement that come before the first statement, or right after another comment. -/
namespace Galley.Layout.LineEnds
open PageWriting Twinning FrontEnds Bracketing
open Reformatting Wraparound
open Discipline (Standing)
open Comment.Rereading (Legible)
open Galley.Text (glyphs_lead)
open Galley.Text.Glyphs

variable {ι κ : Type} [Columns ι] [Columns κ]

/-- What a source is written as. -/
inductive Part where
  | newline
  | blank
  | comment (c : Comment)
  | statement (s : Sql.Statement)

/-- What is asked for a part. -/
def Part.calls (o : Options ι) : Part → List (Call ι)
  | .newline => [.hardBreak]
  | .blank => [.nbsp]
  | .comment c => [.text c.toText]
  | .statement s => s.calls o ++ [.text [0x3b]]

/-- Items on lines of their own. -/
def lineParts (items : List Comment) : List Part :=
  items.flatMap fun c => if c.blank then [.newline] else [.comment c, .newline]

/-- What comes before a statement. -/
def startParts (pol : Comment.Policy) (p : Sql.Progress) : List Part :=
  if p.started then .newline :: lineParts (pol.normalize (.blankLine :: p.pending))
  else lineParts (pol.normalize (p.pending.dropWhile (·.blank)))

/-- What the pieces of a source are written as. -/
def parts (pol : Comment.Policy) : Sql.Progress → List Sql.Piece → List Part
  | p, [] =>
    let left := Comment.trimBlank p.pending
    if left.isEmpty then [] else startParts pol { p with pending := left }
  | p, .comments items :: rest => parts pol { p with pending := p.pending ++ items } rest
  | p, .statement s :: rest => startParts pol p ++ .statement s :: parts pol ⟨[], true⟩ rest
  | p, .trailing c :: rest => .blank :: .comment c :: parts pol p rest

/-- Whether nothing is written on the line of a comment after it. `commented` tells that the current line
ends in one: another one may not follow on it, and before a statement or a last comment a line is started
only if there was a statement before. -/
def settles : Bool → Sql.Progress → List Sql.Piece → Bool
  | commented, p, [] => !commented || p.started || (Comment.trimBlank p.pending).isEmpty
  | commented, p, .comments items :: rest => settles commented { p with pending := p.pending ++ items } rest
  | commented, p, .statement _ :: rest => (!commented || p.started) && settles false ⟨[], true⟩ rest
  | commented, p, .trailing _ :: rest => !commented && settles true p rest

/-- The texts that calls ask for, one after the other. -/
def spoken (calls : List (Call ι)) : Text :=
  calls.flatMap fun
    | .text s => s
    | _ => []

/-- The text of a part. A statement has the words that are asked for it and a semicolon at its end, with
blanks that depend on the layout. -/
def Part.Reads (o : Options ι) : Part → Text → Prop
  | .newline, t => t = [0x0a]
  | .blank, t => t = [0x20]
  | .comment c, t => t = c.toText
  | .statement s, t => solid t = solid (spoken (s.calls o)) ++ [0x3b] ∧ t.getLast? = some 0x3b

/-- The text of parts that are written one after the other. -/
inductive Spelt (o : Options ι) : List Part → Text → Prop where
  | nil : Spelt o [] []
  | cons {part : Part} {rest : List Part} {t u : Text} (first : part.Reads o t) (later : Spelt o rest u) :
      Spelt o (part :: rest) (t ++ u)

/-- An output of these parts in which every comment is followed by a newline, or by nothing. -/
def EndLines (o : Options ι) (written : List Part) (out : Text) : Prop :=
  (∃ text, Spelt o written text ∧ out = text.trimRight) ∧
    ∀ before c after, written = before ++ .comment c :: after →
      ∃ head tail, Spelt o before head ∧ out = head ++ c.toText ++ tail ∧ (tail = [] ∨ tail.head? = some 0x0a)

section Calls

variable {o : Options ι}

theorem lineParts_calls (items : List Comment) :
    (lineParts items).flatMap (Part.calls o) = Comment.lineCalls items := by
  rw [lineParts, Comment.lineCalls, List.flatMap_assoc]
  congr 1
  funext c
  split <;> rfl

theorem startParts_calls (p : Sql.Progress) :
    (startParts o.comments p).flatMap (Part.calls o) = Sql.startLine o p := by
  unfold startParts Sql.startLine
  split
  · rw [List.flatMap_cons, lineParts_calls]
    rfl
  · exact lineParts_calls _

/-- The parts are what is asked for. -/
theorem parts_calls (p : Sql.Progress) (pieces : List Sql.Piece) :
    (parts o.comments p pieces).flatMap (Part.calls o) =
      (Sql.piecesCalls o p pieces).1 ++ Sql.flush o (Sql.piecesCalls o p pieces).2 := by
  induction pieces generalizing p with
  | nil =>
    show (parts o.comments p []).flatMap (Part.calls o) = Sql.flush o p
    unfold parts Sql.flush
    dsimp only
    split
    · rfl
    · exact startParts_calls _
  | cons piece rest ih =>
    cases piece with
    | comments items => exact ih _
    | statement s =>
      rw [parts, List.flatMap_append, List.flatMap_cons, startParts_calls, ih]
      simp [Sql.piecesCalls, Sql.Piece.calls, Part.calls]
    | trailing c =>
      rw [parts, List.flatMap_cons, List.flatMap_cons, ih]
      simp [Sql.piecesCalls, Sql.Piece.calls, Part.calls]

end Calls

section Order

variable (pol : Comment.Policy) {p : Sql.Progress}

/-- What may follow a comment: a newline, or nothing. -/
def CommentCloses (written : List Part) : Prop := written = [] ∨ ∃ later, written = .newline :: later

/-- Every comment is followed by a newline, or is the last part. -/
def CommentsEnded : List Part → Prop
  | [] => True
  | .comment _ :: rest => CommentCloses rest ∧ CommentsEnded rest
  | _ :: rest => CommentsEnded rest

theorem free_cons {part : Part} {rest : List Part} : CommentCloses (part :: rest) ↔ part = .newline := by
  simp [CommentCloses]

theorem ended_split {before after : List Part} {c : Comment} (ended : CommentsEnded (before ++ .comment c :: after)) :
    CommentCloses after := by
  induction before with
  | nil => exact ended.1
  | cons part before ih =>
    cases part with
    | comment d => exact ih ended.2
    | _ => exact ih ended

theorem ended_lineParts (items : List Comment) (rest : List Part) :
    CommentsEnded (lineParts items ++ rest) ↔ CommentsEnded rest := by
  induction items with
  | nil => exact Iff.rfl
  | cons c items ih =>
    rw [lineParts, List.flatMap_cons, List.append_assoc]
    split
    · exact ih
    · constructor
      · intro ended
        exact ih.mp ended.2
      · intro ended
        exact ⟨.inr ⟨_, rfl⟩, ih.mpr ended⟩

theorem ended_startParts (rest : List Part) : CommentsEnded (startParts pol p ++ rest) ↔ CommentsEnded rest := by
  unfold startParts
  split
  · exact ended_lineParts _ rest
  · exact ended_lineParts _ rest

theorem startParts_started (started : p.started = true) : ∃ later, startParts pol p = .newline :: later := by
  unfold startParts
  rw [if_pos started]
  exact ⟨_, rfl⟩

/-- A comment is wrapped into comments, and into one at least. -/
theorem wrap_cons {c : Comment} (shown : c.blank = false) :
    ∃ d more, pol.wrap c = d :: more ∧ d.blank = false := by
  unfold Comment.Policy.wrap
  dsimp only
  split
  · exact ⟨c, [], rfl, shown⟩
  · obtain ⟨l, ls, lines⟩ := List.exists_cons_of_ne_nil (Comment.Wrapping.splitOn_ne_nil 0x0a
      ((c.text.trim.codes.foldl (Comment.Wrap.step (pol.wrapWidth - c.marker.length - 1).toNat)
        Comment.Wrap.start).addWord.text))
    rw [Comment.wrapText, Text.lines, lines]
    exact ⟨_, _, rfl, rfl⟩

/-- Before the first statement no line is started: what waits for it begins with a comment. -/
theorem startParts_first (first : p.started = false) :
    startParts pol p = [] ∧ (∀ c ∈ p.pending, c.blank = true) ∨
      (∃ d more, startParts pol p = .comment d :: more) ∧ ∃ c ∈ p.pending, c.blank = false := by
  unfold startParts
  rw [if_neg (by simp [first])]
  cases waiting : p.pending.dropWhile (·.blank) with
  | nil =>
    refine .inl ⟨rfl, ?_⟩
    have whole := List.takeWhile_append_dropWhile (p := fun c : Comment => c.blank) (l := p.pending)
    rw [waiting, List.append_nil] at whole
    intro c member
    rw [← whole] at member
    exact List.all_eq_true.mp List.all_takeWhile c member
  | cons c rest =>
    right
    have shown : c.blank = false := by
      have stopped := List.head?_dropWhile_not (·.blank) p.pending
      rw [waiting] at stopped
      exact stopped
    obtain ⟨d, more, wrapped, visible⟩ := wrap_cons pol shown
    refine ⟨?_, c, (List.dropWhile_sublist _).subset (waiting ▸ List.mem_cons_self), shown⟩
    rw [Comment.Policy.normalize, Comment.Policy.normalizeAfter, if_neg (by simp [shown]), wrapped, lineParts,
      List.cons_append, List.flatMap_cons, if_neg (by simp [visible])]
    exact ⟨_, _, rfl⟩

theorem trimBlank_shown {items : List Comment} (blank : ∀ c ∈ Comment.trimBlank items, c.blank = true) :
    Comment.trimBlank items = [] := by
  cases rest : (items.dropWhile (·.blank)).reverse.dropWhile (·.blank) with
  | nil =>
    rw [Comment.trimBlank, rest]
    rfl
  | cons c rest' =>
    have stopped := List.head?_dropWhile_not (·.blank) (items.dropWhile (·.blank)).reverse
    have last := blank c (by rw [Comment.trimBlank, rest]; simp)
    rw [rest] at stopped
    rw [show c.blank = false from stopped] at last
    cases last

/-- Where no line is started for it, nothing else may follow a comment. -/
theorem free_startParts (rest : List Part) :
    CommentCloses (startParts pol p ++ rest) ↔
      p.started = true ∨ (∀ c ∈ p.pending, c.blank = true) ∧ CommentCloses rest := by
  cases started : p.started with
  | true =>
    obtain ⟨later, start⟩ := startParts_started pol started
    rw [start]
    exact ⟨fun _ => .inl rfl, fun _ => .inr ⟨_, rfl⟩⟩
  | false =>
    rcases startParts_first pol started with ⟨none, blank⟩ | ⟨⟨d, more, start⟩, c, inside, shown⟩
    · rw [none, List.nil_append]
      exact ⟨fun free => .inr ⟨blank, free⟩, fun either => (either.resolve_left (by decide)).2⟩
    · rw [start, List.cons_append, free_cons]
      constructor
      · intro newline
        cases newline
      · rintro (late | ⟨blank, -⟩)
        · cases late
        · rw [blank c inside] at shown
          cases shown

/-- A source settles exactly if each of its comments is followed by a newline or nothing. -/
theorem settles_iff {commented : Bool} {pieces : List Sql.Piece} :
    settles commented p pieces = true ↔
      CommentsEnded (parts pol p pieces) ∧ (commented = true → CommentCloses (parts pol p pieces)) := by
  induction pieces generalizing commented p with
  | nil =>
    unfold parts settles
    dsimp only
    split
    · next none =>
      simp only [none, Bool.or_true, true_iff]
      exact ⟨trivial, fun _ => .inl rfl⟩
    · next some =>
      have ended := (ended_startParts pol (p := { p with pending := Comment.trimBlank p.pending }) []).mpr trivial
      have free := free_startParts pol (p := { p with pending := Comment.trimBlank p.pending }) []
      have shown : ¬ ∀ c ∈ Comment.trimBlank p.pending, c.blank = true := by
        intro blank
        rw [trimBlank_shown blank] at some
        exact some rfl
      rw [List.append_nil] at ended free
      simp only [shown, false_and, or_false] at free
      simp only [ended, free, some, true_and, Bool.or_false, Bool.or_eq_true, Bool.not_eq_true']
      cases commented <;> simp
  | cons piece rest ih =>
    cases piece with
    | comments items => exact ih
    | statement s =>
      simp only [settles, Bool.and_eq_true, Bool.or_eq_true, Bool.not_eq_true', parts, ended_startParts,
        free_startParts, ih, free_cons, reduceCtorEq, and_false, or_false, false_implies, and_true]
      have skipped : CommentsEnded (.statement s :: parts pol ⟨[], true⟩ rest) ↔
          CommentsEnded (parts pol ⟨[], true⟩ rest) := Iff.rfl
      rw [skipped, and_comm]
      cases commented <;> simp
    | trailing c =>
      simp only [settles, Bool.and_eq_true, Bool.not_eq_true', parts, ih, free_cons, CommentsEnded, forall_const,
        reduceCtorEq]
      cases commented <;> simp [and_comm]

end Order

section Reading

theorem marker_eq : Sql.marker = [0x2d, 0x2d] := by decide +kernel

/-- A piece whose comments are as they are read. -/
def CommentsClean : Sql.Piece → Prop
  | .comments items => ∀ c ∈ items, Legible Sql.marker c
  | .statement _ => True
  | .trailing c => Legible Sql.marker c ∧ c.blank = false

theorem splitTrailing_legible {src rest : Text} {c : Comment}
    (found : Comment.splitTrailing Sql.marker src = (some c, rest)) :
    Legible Sql.marker c ∧ c.blank = false := by
  unfold Comment.splitTrailing at found
  dsimp only at found
  have single : 0x0a ∉ src.cutLine.1 := by
    intro member
    have other := List.all_eq_true.mp (List.all_takeWhile (p := fun b => decide (b ≠ 0x0a)) (l := src)) 0x0a member
    simp at other
  split at found
  · cases found
  · split at found
    · next item taken =>
      obtain ⟨same, -⟩ := Prod.mk.inj found
      obtain rfl := Option.some.inj same
      refine ⟨(Comment.Rereading.ofLine?_legible single taken).1, ?_⟩
      unfold Comment.ofLine? at taken
      dsimp only at taken
      split at taken
      · obtain rfl := Option.some.inj taken
        rfl
      · cases taken
    · cases found

variable {ε : Type} (d : Sql.Dialect ε)

section Pieces

variable {P : Sql.Piece → Prop} (comments : ∀ src, P (.comments (Comment.scan Sql.marker src).1))
  (statement : ∀ part statements, d.parse part = .ok statements → ∀ s ∈ statements, P (.statement s))
  (trailing : ∀ src rest c, Comment.splitTrailing Sql.marker src = (some c, rest) → P (.trailing c))
include comments statement trailing

/-- What holds of all that is scanned, parsed and split off holds of the pieces of a source. -/
theorem pieces_all (n : Nat) (src : Text) : ∀ piece ∈ (d.pieces n src).1, P piece := by
  induction n generalizing src with
  | zero =>
    intro piece member
    cases member
  | succ n ih =>
    intro piece member
    unfold Sql.Dialect.pieces at member
    dsimp only at member
    split at member
    · obtain rfl := List.mem_singleton.mp member
      exact comments src
    · split at member
      · obtain rfl := List.mem_singleton.mp member
        exact comments src
      · next statements parsed =>
        simp only [List.mem_append, List.mem_cons, List.mem_map] at member
        rcases member with ((rfl | ⟨s, inside, rfl⟩) | ⟨c, found, rfl⟩) | later
        · exact comments src
        · exact statement _ _ parsed s inside
        · exact trailing _ _ c (Prod.ext (Option.mem_toList.mp found) rfl)
        · exact ih _ piece later

theorem allPieces_all (srcs : List Text) : ∀ piece ∈ (d.allPieces srcs).1, P piece := by
  induction srcs with
  | nil =>
    intro piece member
    cases member
  | cons src rest ih =>
    have first := pieces_all d comments statement trailing (src.length + 1) src
    unfold Sql.Dialect.allPieces
    split
    · next before _ read =>
      rw [read] at first
      exact first
    · next before read =>
      rw [read] at first
      intro piece member
      rcases List.mem_append.mp member with early | late
      · exact first piece early
      · exact ih piece late

end Pieces

theorem allPieces_clean (srcs : List Text) : ∀ piece ∈ (d.allPieces srcs).1, CommentsClean piece :=
  allPieces_all d (fun _ _ inside => (Comment.Rereading.scan_legible inside).1) (fun _ _ _ _ _ => trivial)
    (fun _ _ _ found => splitTrailing_legible found) srcs

/-- A comment as it is written. -/
def CommentMarked (part : Part) : Prop :=
  match part with
  | .comment c => Legible Sql.marker c ∧ c.blank = false
  | _ => True

theorem lineParts_marked {items : List Comment} (legible : ∀ c ∈ items, Legible Sql.marker c) :
    ∀ part ∈ lineParts items, CommentMarked part := by
  intro part member
  obtain ⟨c, inside, found⟩ := List.mem_flatMap.mp member
  split at found
  · obtain rfl := List.mem_singleton.mp found
    trivial
  · next shown =>
    simp only [List.mem_cons, List.not_mem_nil, or_false] at found
    rcases found with rfl | rfl
    · exact ⟨legible c inside, by simpa using shown⟩
    · trivial

theorem startParts_marked (pol : Comment.Policy) {p : Sql.Progress}
    (legible : ∀ c ∈ p.pending, Legible Sql.marker c) : ∀ part ∈ startParts pol p, CommentMarked part := by
  have marked : Sql.marker ≠ [] := by rw [marker_eq]; exact List.cons_ne_nil _ _
  have kept {items : List Comment} (all : ∀ c ∈ items, Legible Sql.marker c) :
      ∀ part ∈ lineParts (pol.normalize items), CommentMarked part :=
    lineParts_marked fun c member => (Comment.Rereading.normalize_legible marked all member).1
  intro part member
  unfold startParts at member
  split at member
  · rcases List.mem_cons.mp member with rfl | later
    · trivial
    · refine kept ?_ part later
      intro c inside
      rcases List.mem_cons.mp inside with rfl | waiting
      · exact .blank
      · exact legible c waiting
  · exact kept (fun c inside => legible c ((List.dropWhile_sublist _).subset inside)) part member

theorem trimBlank_subset {items : List Comment} {c : Comment} (member : c ∈ Comment.trimBlank items) :
    c ∈ items := by
  have inner := (List.dropWhile_sublist _).subset (List.mem_reverse.mp member)
  exact (List.dropWhile_sublist _).subset (List.mem_reverse.mp inner)

theorem parts_marked (pol : Comment.Policy) {p : Sql.Progress} {pieces : List Sql.Piece}
    (legible : ∀ c ∈ p.pending, Legible Sql.marker c) (clean : ∀ piece ∈ pieces, CommentsClean piece) :
    ∀ part ∈ parts pol p pieces, CommentMarked part := by
  induction pieces generalizing p with
  | nil =>
    intro part member
    unfold parts at member
    dsimp only at member
    split at member
    · cases member
    · exact startParts_marked pol (fun c inside => legible c (trimBlank_subset inside)) part member
  | cons piece rest ih =>
    have later : ∀ piece ∈ rest, CommentsClean piece :=
      fun other inside => clean other (List.mem_cons_of_mem piece inside)
    have here := clean piece List.mem_cons_self
    cases piece with
    | comments items =>
      refine ih ?_ later
      intro c inside
      rcases List.mem_append.mp inside with waiting | new
      · exact legible c waiting
      · exact here c new
    | statement s =>
      intro part member
      rw [parts] at member
      rcases List.mem_append.mp member with early | late
      · exact startParts_marked pol legible part early
      · rcases List.mem_cons.mp late with rfl | after
        · trivial
        · exact ih (fun c none => absurd none List.not_mem_nil) later part after
    | trailing c =>
      intro part member
      simp only [parts, List.mem_cons] at member
      rcases member with rfl | rfl | after
      · trivial
      · exact here
      · exact ih legible later part after

end Reading

section Writing

omit [Columns ι] in
theorem spoken_append (xs ys : List (Call ι)) : spoken (xs ++ ys) = spoken xs ++ spoken ys :=
  List.flatMap_append

/-- Twins ask for the same texts. -/
theorem twins_spoken {R : Call ι → Call κ → Prop} {xs : List (Call ι)} {ys : List (Call κ)}
    (twins : CallsTwinned R xs ys) : spoken xs = spoken ys := by
  induction twins with
  | append _ _ first second => rw [spoken_append, spoken_append, first, second]
  | group _ _ inner =>
    rw [spoken_append, spoken_append]
    exact congrArg (· ++ []) inner
  | indented _ _ inner =>
    rw [spoken_append, spoken_append]
    exact congrArg (· ++ []) inner
  | _ => rfl

variable {c : Config Int} {page last : Page Int} {ts : List (Token Int)} {xs ys : List (Call Int)}

/-- The texts of the tokens of twins are those that are asked for. -/
theorem twins_wording_spoken (twins : CallsTwinned BothRise xs ys) (s : Standing) :
    wording (transcript s xs) = spoken xs := by
  induction twins generalizing s with
  | append _ _ first second => rw [transcript_append, wording_append, spoken_append, first, second]
  | group _ _ inner =>
    rw [List.cons_append, transcript, transcript_append]
    show wording (transcript _ _ ++ [_]) = spoken (_ ++ [_])
    rw [wording_append, spoken_append, inner]
    rfl
  | indented _ _ inner =>
    rw [List.cons_append, transcript, transcript_append]
    show wording (transcript _ _ ++ [_]) = spoken (_ ++ [_])
    rw [wording_append, spoken_append, inner]
    rfl
  | _ => rfl

theorem wrote_text {t : Token Int} {size : Int} {next : Page Int} (wrote : Wrote page t size next) :
    ∃ more, next.sink.text = page.sink.text ++ more := by
  cases wrote with
  | text s => exact ⟨page.sink.lead s ++ s, by rw [TextOrder.text_write, List.append_assoc]⟩
  | missing => exact ⟨[], (List.append_nil _).symm⟩
  | _ => exact ⟨_, TextOrder.text_mark ..⟩

theorem written_text (written : TokensWritten c page ts last) : ∃ more, last.sink.text = page.sink.text ++ more := by
  induction written with
  | nil => exact ⟨[], (List.append_nil _).symm⟩
  | cons _ wrote _ ih =>
    obtain ⟨first, here⟩ := wrote_text wrote
    obtain ⟨later, there⟩ := ih
    exact ⟨first ++ later, by rw [there, here, List.append_assoc]⟩

variable {o : Options Int}

theorem part_balanced (kin : OptionsAlike BothRise o o) (part : Part) : Balanced (part.calls o) := by
  cases part with
  | newline => exact .hardBreak
  | blank | comment => exact .text _
  | statement s => exact twins_balanced (.append (statement_twins kin s) (.text _))

/-- A part is written after what is there, and leaves the page at rest. -/
theorem part_written (kin : OptionsAlike BothRise o o) {part : Part} (rests : PageAtRest c page)
    (written : TokensWritten c page (transcript .initial (part.calls o)) last) :
    PageAtRest c last ∧ ∃ t, part.Reads o t ∧ last.sink.text = page.sink.text ++ t := by
  cases part with
  | newline =>
    obtain ⟨after, text⟩ := rests_break rests written
    exact ⟨after, _, rfl, text⟩
  | blank =>
    obtain ⟨after, text⟩ := rests_text rests written
    exact ⟨after, _, rfl, text⟩
  | comment c =>
    obtain ⟨after, text⟩ := rests_text rests written
    exact ⟨after, _, rfl, text⟩
  | statement s =>
    have twins : CallsTwinned BothRise (s.calls o ++ [.text [0x3b]]) (s.calls o ++ [.text [0x3b]]) :=
      .append (statement_twins kin s) (.text _)
    rw [Part.calls] at written
    obtain ⟨after, before, text⟩ := rests_block (n := 0) rests (twins_balanced twins) written
    obtain ⟨t, grown⟩ := written_text written
    refine ⟨after, t, ?_, grown⟩
    have solids : solid t = solid (spoken (s.calls o)) ++ [0x3b] := by
      have all := written_solid written (twins_unmarked twins _)
      rw [twins_wording_spoken twins, grown, solid_append, spoken_append, solid_append] at all
      exact List.append_cancel_left all
    refine ⟨solids, ?_⟩
    have filled : t ≠ [] := by
      rintro rfl
      simp [solid] at solids
    rw [grown] at text
    have ends := congrArg List.getLast? text
    rw [List.getLast?_append, List.getLast?_eq_some_getLast filled, List.getLast?_concat] at ends
    rw [List.getLast?_eq_some_getLast filled]
    exact ends

/-- All the parts are written, one after the other. -/
theorem parts_written (kin : OptionsAlike BothRise o o) {written : List Part} (rests : PageAtRest c page)
    (run : TokensWritten c page (transcript .initial (written.flatMap (Part.calls o))) last) :
    ∃ t, Spelt o written t ∧ last.sink.text = page.sink.text ++ t := by
  induction written generalizing page with
  | nil =>
    cases run
    exact ⟨[], .nil, (List.append_nil _).symm⟩
  | cons part rest ih =>
    rw [List.flatMap_cons, transcript_append, balanced_after (part_balanced kin part)] at run
    obtain ⟨mid, here, later⟩ := written_append run
    obtain ⟨after, t, reads, text⟩ := part_written kin rests here
    obtain ⟨u, spelt, more⟩ := ih after later
    exact ⟨t ++ u, .cons reads spelt, by rw [more, text, List.append_assoc]⟩

/-- A source is written as its parts. -/
theorem written_spelt {start : Printer Int} (accepted : Printer.ofConfig o.config = .ok start)
    {pieces : List Sql.Piece} {out : Text} (written : WrittenAs o (pieceCalls o pieces) out) :
    ∃ text, Spelt o (parts o.comments {} pieces) text ∧ out = text.trimRight := by
  have kin : OptionsAlike BothRise o o := kin_apart accepted accepted rfl rfl rfl
  obtain ⟨last, rfl, laid⟩ := written
  rw [pieceCalls, ← parts_calls] at laid
  obtain ⟨t, spelt, text⟩ := parts_written kin (ofConfig_rests _) laid
  exact ⟨t, spelt, congrArg Text.trimRight text⟩

end Writing

section Outputs

variable {o : Options ι} {before after written : List Part} {text : Text}

theorem spelt_split (spelt : Spelt o (before ++ after) text) :
    ∃ head tail, Spelt o before head ∧ Spelt o after tail ∧ text = head ++ tail := by
  induction before generalizing text with
  | nil => exact ⟨[], text, .nil, spelt, rfl⟩
  | cons part before ih =>
    cases spelt with
    | cons first later =>
      obtain ⟨head, tail, left, right, rfl⟩ := ih later
      exact ⟨_, tail, .cons first left, right, by rw [List.append_assoc]⟩

/-- What is trimmed at the end of an output is not part of a comment, nor the newline after it. -/
theorem trimRight_comment {c : Comment} (legible : Legible Sql.marker c) (shown : c.blank = false)
    (head : Text) {tail : Text} (ends : tail = [] ∨ tail.head? = some 0x0a) :
    ∃ rest, (head ++ c.toText ++ tail).trimRight = head ++ c.toText ++ rest ∧
      (rest = [] ∨ rest.head? = some 0x0a) := by
  cases legible with
  | blank => cases shown
  | @line body trimmed single =>
    have firm := firm_of_trim trimmed
    have text : Comment.toText (.line Sql.marker body) = 0x2d :: 0x2d :: body := by
      show Sql.marker ++ body = _
      rw [marker_eq]
      rfl
    rw [show Sql.marker ++ body = 0x2d :: 0x2d :: body from text] at firm
    rw [text]
    have before := glyphs_lead (b := 0x2d) (by decide) head (0x2d :: body)
    have apart : (head ++ 0x2d :: 0x2d :: body ++ tail).glyphs =
        (head ++ 0x2d :: 0x2d :: body).glyphs ++ tail.glyphs := by
      cases tail with
      | nil =>
        rw [List.append_nil]
        exact (List.append_nil _).symm
      | cons b tail =>
        have newline : b = 0x0a := by simpa using ends
        exact glyphs_lead (by rw [newline]; decide) _ tail
    have last : ∀ g ∈ (head ++ 0x2d :: 0x2d :: body).glyphs.getLast?, g.isSpace = false := by
      intro g member
      apply firm.2
      rw [before, List.getLast?_append,
        List.getLast?_eq_some_getLast (glyphs_ne_nil (List.cons_ne_nil _ _))] at member
      rw [List.getLast?_eq_some_getLast (glyphs_ne_nil (List.cons_ne_nil _ _))]
      exact member
    refine ⟨tail.trimRight, trimRight_visible apart last, ?_⟩
    obtain ⟨cut, whole⟩ := trimRight_start tail
    cases kept : tail.trimRight with
    | nil => exact .inl rfl
    | cons b rest =>
      rw [kept] at whole
      rw [whole] at ends
      right
      simpa using ends

theorem spelt_endLines (ended : CommentsEnded written) (marked : ∀ part ∈ written, CommentMarked part)
    (spelt : Spelt o written text) : EndLines o written text.trimRight := by
  refine ⟨⟨text, spelt, rfl⟩, ?_⟩
  rintro before c after rfl
  obtain ⟨head, tail, left, right, rfl⟩ := spelt_split spelt
  obtain ⟨legible, shown⟩ := marked (.comment c) (by simp)
  cases right with
  | @cons _ _ t u reads later =>
    obtain rfl : t = c.toText := reads
    have ends : u = [] ∨ u.head? = some 0x0a := by
      rcases ended_split ended with rfl | ⟨more, rfl⟩
      · cases later
        exact .inl rfl
      · cases later with
        | @cons _ _ v _ newline _ =>
          obtain rfl : v = [0x0a] := newline
          exact .inr rfl
    obtain ⟨rest, trimmed, still⟩ := trimRight_comment legible shown head ends
    rw [List.append_assoc] at trimmed
    exact ⟨head, rest, left, by rw [trimmed], still⟩

theorem spelt_numbers {o : Options Int64} (spelt : Spelt o.numbers written text) : Spelt o written text := by
  induction spelt with
  | nil => exact .nil
  | @cons part rest t u first _ ih =>
    refine .cons ?_ ih
    cases part with
    | statement s =>
      obtain ⟨solids, last⟩ := first
      refine ⟨?_, last⟩
      rw [twins_spoken (statement_twins (kin_words o) s)]
      exact solids
    | _ => exact first

end Outputs

/-- Comments end their lines in exactly the sources that settle: there, whatever else is written, every
comment of the output is followed by a newline, or by nothing. What keeps a source from settling is a comment
on the line of an empty statement: it is written on the current line, where another comment may stand
already, and before the first statement no line is started after it. With machine words the texts have to be counted
in them, but not the indentation. -/
theorem comments_end_lines {ε : Type} (d : Sql.Dialect ε) (message : ε → Text) (srcs : List Text) (out : Text) :
    (∀ pol, settles false {} (d.allPieces srcs).1 = true ↔ CommentsEnded (parts pol {} (d.allPieces srcs).1)) ∧
    (settles false {} (d.allPieces srcs).1 = true →
      (∀ (o : Options Int) (start : Printer Int), Printer.ofConfig o.layout = .ok start →
        d.format message o srcs = .ok out → EndLines o (parts o.comments {} (d.allPieces srcs).1) out) ∧
      (∀ (o : Options Int64) (start : Printer Int64), Printer.ofConfig o.layout = .ok start →
        TextsCount o (sourceCalls d srcs) → d.format message o srcs = .ok out →
        EndLines o (parts o.comments {} (d.allPieces srcs).1) out)) := by
  have marked (pol : Comment.Policy) : ∀ part ∈ parts pol {} (d.allPieces srcs).1, CommentMarked part :=
    parts_marked pol (fun c none => absurd none List.not_mem_nil) (allPieces_clean d srcs)
  have exactly (pol : Comment.Policy) :
      settles false {} (d.allPieces srcs).1 = true ↔ CommentsEnded (parts pol {} (d.allPieces srcs).1) := by
    rw [settles_iff pol]
    simp
  refine ⟨exactly, fun settled => ⟨?_, ?_⟩⟩
  · intro o start accepted formatted
    obtain ⟨p, begins⟩ := accepted_config accepted
    obtain ⟨text, spelt, rfl⟩ := written_spelt begins (format_written begins formatted)
    exact spelt_endLines ((exactly o.comments).mp settled) (marked o.comments) spelt
  · intro o start accepted light formatted
    obtain ⟨p, begins⟩ := accepted_words accepted
    obtain ⟨text, spelt, rfl⟩ := written_spelt begins (format_in_order begins light formatted)
    exact spelt_endLines ((exactly o.comments).mp settled) (marked o.comments) (spelt_numbers spelt)

/-- Comments before and behind statements, with an empty statement between them, where a second level of indentation
runs over a word. -/
theorem comments_end_lines_trailing :
    let srcs : List Text := ["-- a\nselect 1; -- b\n;\nselect 2; -- c"]
    let o : Options Int64 := { Options.standard with layout.unit := 0x6000000000000000 }
    settles false {} (Sql.dialect.allPieces srcs).1 = true ∧
      EndLines o (parts o.comments {} (Sql.dialect.allPieces srcs).1)
        "-- a\nSELECT 1; -- b\n\nSELECT 2; -- c" := by
  intro srcs o
  have settled : settles false {} (Sql.dialect.allPieces srcs).1 = true := by decide +kernel
  have light : TextsCount o (sourceCalls Sql.dialect srcs) := by decide +kernel
  have formatted : Sql.dialect.format Sql.Problem.message o srcs =
      .ok "-- a\nSELECT 1; -- b\n\nSELECT 2; -- c" := by decide +kernel
  exact ⟨settled, ((comments_end_lines _ _ _ _).2 settled).2 o _ rfl light formatted⟩

/-- A comment on the line of an empty statement, before the first statement: what follows it becomes a part
of it. -/
theorem comment_swallows_statement :
    let srcs : List Text := ["; -- c\nselect 1"]
    ¬ CommentsEnded (parts Comment.Policy.standard {} (Sql.dialect.allPieces srcs).1) ∧
      Sql.format (Options.standard : Options Int64) srcs = .ok " -- cSELECT 1;" := by
  intro srcs
  constructor
  · have unsettled : settles false {} (Sql.dialect.allPieces srcs).1 = false := by decide +kernel
    intro ended
    have settled : settles false {} (Sql.dialect.allPieces srcs).1 = true :=
      (settles_iff Comment.Policy.standard).mpr ⟨ended, fun opened => by cases opened⟩
    rw [unsettled] at settled
    cases settled
  · decide +kernel

end Galley.Layout.LineEnds
