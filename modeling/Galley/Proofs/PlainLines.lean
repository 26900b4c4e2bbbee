import Galley.Comment.Basic
import Galley.Proofs.RingQueue
import Galley.Proofs.PageWriting

/-! Lines outside any group. Between a hard break and the next call a printer holds nothing back, so that
texts and hard breaks are written as they are asked for. This is so with any numbers for which a hard
break does not fit on a line: with exact ones always, with words as long as no line is wider than a word
can say. -/
namespace Galley.Layout.PlainLines
open PageWriting RingQueue

/-- What is needed of the numbers that columns are counted in. -/
structure Reckons (ι : Type) [Columns ι] : Prop where
  level : (0 : ι) + 0 = 0
  zero : ¬ (0 : ι) < 0
  nothing : (0 : ι) ≤ 0
  pending : (-1 : ι) < 0
  decided : ¬ (infiniteWidth : ι) < 0
  flush (n : ι) : n - 0 = n
  blanks : Columns.toNat (0 : ι) = 0
  none : (Columns.ofNat 0 : ι) = 0

theorem reckons_int : Reckons Int := by
  refine ⟨by decide, by decide, by decide, by decide, by decide, ?_, by decide, by decide⟩
  intro n
  exact Int.sub_zero n

theorem reckons_word : Reckons Int64 := by
  refine ⟨by decide, by decide, by decide, by decide, by decide, ?_, by decide, by decide⟩
  intro n
  exact Int64.sub_zero n

/-- A printer outside any group that holds nothing back and owes nothing: what it has written, and the
columns left on the current line. -/
structure PrinterClear {ι : Type} [Columns ι] (c : Config ι) (out : Text) (space : ι) (p : Printer ι) : Prop where
  config : p.config = c
  buf : p.buf.toList = []
  scan : p.scan.toList = []
  closed : p.closed = []
  scopes : p.scopes = [[]]
  running : p.done = false
  frames : p.page.frames = [⟨0, .inconsistent, false⟩]
  margin : p.page.sink.config.margin = c.margin
  indent : p.page.sink.indent = 0
  blank : p.page.sink.blank = 0
  space : p.page.sink.space = space
  output : p.output = out

variable {ι : Type} [Columns ι] {c : Config ι} {out s : Text} {space : ι} {p : Printer ι}

/-- A hard break does not fit in this many columns. -/
def BreakTooWide (space : ι) : Prop := space < 1 + infiniteWidth - 1

section Calls

theorem count_clear (clear : PrinterClear c out space p) :
    ∃ q, p.count = .ok q ∧ PrinterClear c out space q := by
  refine ⟨{ p with stats.tokens := p.stats.tokens + 1 }, ?_, ?_⟩
  · simp [Printer.count, clear.running]
  · exact ⟨clear.config, clear.buf, clear.scan, clear.closed, clear.scopes, clear.running, clear.frames,
      clear.margin, clear.indent, clear.blank, clear.space, clear.output⟩

theorem clear_idle (clear : PrinterClear c out space p) : p.idle = true := by
  have none : p.scan.length = 0 := length_of_toList clear.scan
  simp [Printer.idle, none, clear.closed]

/-- Nothing is owed before a text. -/
theorem lead_nil (reckons : Reckons ι) (clear : PrinterClear c out space p) (t : Text) : p.page.sink.lead t = [] := by
  unfold Sink.lead
  split
  · rfl
  · rw [clear.indent, clear.blank, Sink.indentation, if_pos reckons.nothing, reckons.blanks]
    rfl

theorem text_clear (reckons : Reckons ι) (clear : PrinterClear c out space p) (filled : s ≠ []) :
    ∃ q, p.call (.text s) = .ok q ∧ PrinterClear c (out ++ s) (space - c.width s) q := by
  obtain ⟨r, counted, ready⟩ := count_clear clear
  have some : s.isEmpty = false := by cases s <;> simp at filled ⊢
  refine ⟨{ r with page.sink := r.page.sink.write s (r.config.width s) }, ?_, ?_⟩
  · show p.count >>= (·.scanText s) = _
    rw [counted, ok_bind, Printer.scanText, if_pos (clear_idle ready)]
  · have lead := lead_nil reckons ready s
    exact {
      config := ready.config
      buf := ready.buf
      scan := ready.scan
      closed := ready.closed
      scopes := ready.scopes
      running := ready.running
      frames := ready.frames
      margin := by simp only [Sink.write, some]; exact ready.margin
      indent := by simp [Sink.write, some, ready.indent]
      blank := by simp [Sink.write, some, ready.blank]
      space := by simp [Sink.write, some, ready.space, ready.config]
      output := by
        have before := ready.output
        simp only [Printer.output, Sink.text] at before ⊢
        simp [Sink.write, some, lead, Sink.mark, Mark.spelling, before] }

/-- A pending entry alone in the buffer is broken and written. -/
theorem lone_advances (reckons : Reckons ι) {r : Printer ι} {t : Token ι} {size : ι} {page : Page ι}
    (buf : r.buf.toList = [⟨t, size⟩]) (waits : size < 0) (scan : r.scan.toList = [r.buf.frontPos])
    (wrote : r.page.write t infiniteWidth = .ok page) :
    ∃ buf scan, buf.toList = [] ∧ scan.toList = [] ∧
      (r.breakHead >>= Printer.advance) =
        .ok { r with
          buf := buf, scan := scan, page := page,
          leftTotal := r.leftTotal + (⟨t, infiniteWidth⟩ : Entry ι).flatWidth } := by
  obtain ⟨rest, popped, none, -⟩ := popFront_cons scan
  obtain ⟨decided, written, held, -⟩ := write_at (r := r.buf) (i := 0) (by simp [buf]) ⟨t, infiniteWidth⟩
  rw [buf, List.set_cons_zero] at held
  obtain ⟨left, taken, empty, -⟩ := popFront_cons held
  have count : r.scan.length = 1 := length_of_toList scan
  have size' : decided.length = 1 := length_of_toList held
  have broken : r.breakHead = .ok { r with buf := decided, scan := rest } := by
    have place : (r.buf.offset : Int) + (0 : Nat) = r.buf.frontPos := by simp [Ring.frontPos]
    rw [place] at written
    simp [Printer.breakHead, front_cons buf, queue, waits, count, front_cons scan, popped, written]
  refine ⟨left, rest, empty, none, ?_⟩
  rw [broken, ok_bind, Printer.advance]
  simp [size', Printer.advanceUpTo, front_cons held, queue, reckons.decided, taken, wrote]

/-- Nothing is left to be checked after that. -/
theorem lone_checks {r q : Printer ι} (count : r.buf.length = 1)
    (wide : r.page.sink.space < r.rightTotal - r.leftTotal)
    (advanced : (r.breakHead >>= Printer.advance) = .ok q) (gone : q.buf.length = 0) :
    (r.checkStream >>= Printer.advance) = .ok q := by
  obtain ⟨broken, brought, written⟩ := bind_ok advanced
  have checked : r.checkStream = .ok q := by
    rw [Printer.checkStream, count, Printer.checkStreamUpTo, if_pos ⟨wide, by omega⟩, brought, ok_bind, written,
      ok_bind, Printer.checkStreamUpTo]
  rw [checked, ok_bind, Printer.advance, gone, Printer.advanceUpTo]

/-- The only break that is pending where no group is open. -/
def withBreak (p : Printer ι) (b : Break ι) : Printer ι :=
  let p := p.restart.pushPending (.lineBreak b)
  { p with rightTotal := p.rightTotal + b.width }

theorem scanBreak_clear (clear : PrinterClear c out space p) (b : Break ι) :
    p.scanBreak b = (withBreak p b).checkStream >>= Printer.advance := by
  have none : p.scan.length = 0 := length_of_toList clear.scan
  simp [Printer.scanBreak, Printer.writeClosed, Printer.resolveLast, clear.closed, none, withBreak]

/-- A hard break ends the line at once. -/
theorem break_clear (reckons : Reckons ι) (clear : PrinterClear c out space p) (short : BreakTooWide space) :
    ∃ q, p.call .hardBreak = .ok q ∧ PrinterClear c (out ++ [0x0a]) c.margin q := by
  obtain ⟨r, counted, ready⟩ := count_clear clear
  have ran : p.call .hardBreak = (withBreak r ⟨.hard, 0, 0, []⟩).checkStream >>= Printer.advance := by
    show p.count >>= (·.scanBreak ⟨.hard, 0, 0, []⟩) = _
    rw [counted, ok_bind, scanBreak_clear ready]
  rw [ran]
  generalize hard : (⟨.hard, 0, 0, []⟩ : Break ι) = b
  have buf : (withBreak r b).buf.toList = [⟨.lineBreak b, -1⟩] := by
    simp [withBreak, Printer.pushPending, Printer.push, Printer.trackPending, Printer.restart, ready.buf]
  have scan : (withBreak r b).scan.toList = [(withBreak r b).buf.frontPos] := by
    simp [withBreak, Printer.pushPending, Printer.push, Printer.trackPending, Printer.restart, ready.scan,
      Ring.frontPos, backPos_pushBack, ready.buf]
  have count : (withBreak r b).buf.length = 1 := length_of_toList buf
  have wide : (withBreak r b).page.sink.space < (withBreak r b).rightTotal - (withBreak r b).leftTotal := by
    rw [← hard]
    show r.page.sink.space < 1 + infiniteWidth - 1
    rw [ready.space]
    exact short
  have wrote : (withBreak r b).page.write (.lineBreak b) infiniteWidth = .ok { r.page with
      sink := { r.page.sink.mark (.taken [] [] 0) with
        indent := 0, blank := 0, space := r.page.sink.config.margin - 0 } } := by
    show r.page.writeBreak b infiniteWidth = _
    rw [← hard]
    simp [Page.writeBreak, ready.frames, Page.staysFlat, reckons.level, Sink.newline, reckons.zero,
      lead_nil reckons ready]
  obtain ⟨buf', scan', empty, none, advanced⟩ := lone_advances reckons buf reckons.pending scan wrote
  have gone : buf'.length = 0 := length_of_toList empty
  refine ⟨_, lone_checks count wide advanced gone, ?_⟩
  exact {
    config := ready.config
    buf := empty
    scan := none
    closed := ready.closed
    scopes := ready.scopes
    running := ready.running
    frames := ready.frames
    margin := ready.margin
    indent := rfl
    blank := rfl
    space := by
      show r.page.sink.config.margin - 0 = c.margin
      rw [reckons.flush, ready.margin]
    output := by
      have before := ready.output
      simp only [Printer.output, Sink.text] at before ⊢
      simp [Sink.mark, Mark.spelling, before] }

theorem finish_clear (clear : PrinterClear c out space p) : ∃ q, p.finish = .ok q ∧ q.output = out := by
  obtain ⟨r, counted, ready⟩ := count_clear clear
  have none : r.scan.length = 0 := length_of_toList ready.scan
  have gone : r.buf.length = 0 := length_of_toList ready.buf
  refine ⟨{ r with closed := [], done := true }, ?_, ready.output⟩
  simp [Printer.finish, counted, ready.scopes, Printer.resolveClosed, ready.closed, Printer.resolveScan, none,
    Printer.advance, gone, Printer.advanceUpTo, pure, Except.pure]

end Calls

section Documents

theorem ofConfig_clear (accepted : Printer.ofConfig c = .ok p) :
    PrinterClear c.withDefaults [] c.withDefaults.margin p ∧
      ¬ c.withDefaults.margin < 0 ∧ ¬ maxMargin < c.withDefaults.margin := by
  unfold Printer.ofConfig at accepted
  dsimp only at accepted
  split at accepted
  · cases accepted
  · next fine =>
    obtain rfl := Except.ok.inj accepted
    refine ⟨⟨rfl, rfl, rfl, rfl, rfl, rfl, rfl, rfl, rfl, rfl, rfl, rfl⟩, ?_, ?_⟩
    · intro negative
      exact fine (.inl negative)
    · intro wide
      exact fine (.inr (.inl wide))

/-- A line, and the newline after it. -/
theorem line_clear (reckons : Reckons ι) {item : Comment} (clear : PrinterClear c out c.margin p)
    (empty : BreakTooWide c.margin)
    (short : item.blank = false → item.toText ≠ [] ∧ BreakTooWide (c.margin - c.width item.toText)) :
    ∃ q, p.run (Comment.lineCalls [item]) = .ok q ∧ PrinterClear c (out ++ (item.toText ++ [0x0a])) c.margin q := by
  by_cases blank : item.blank = true
  · obtain ⟨q, broken, after⟩ := break_clear reckons clear empty
    refine ⟨q, ?_, ?_⟩
    · simp [Comment.lineCalls, blank, Printer.run, broken]
    · simpa [Comment.toText, blank] using after
  · obtain ⟨filled, short⟩ := short (by simpa using blank)
    obtain ⟨mid, written, between⟩ := text_clear reckons clear filled
    obtain ⟨q, broken, after⟩ := break_clear reckons between short
    refine ⟨q, ?_, ?_⟩
    · simp [Comment.lineCalls, blank, Printer.run, written, broken]
    · rwa [List.append_assoc] at after

/-- Lines that are asked for are written, with a newline after each. -/
theorem lines_clear (reckons : Reckons ι) {items : List Comment} (clear : PrinterClear c out c.margin p)
    (empty : BreakTooWide c.margin)
    (short : ∀ item ∈ items, item.blank = false → item.toText ≠ [] ∧ BreakTooWide (c.margin - c.width item.toText)) :
    ∃ q, p.run (Comment.lineCalls items) = .ok q ∧
      PrinterClear c (out ++ items.flatMap (·.toText ++ [0x0a])) c.margin q := by
  induction items generalizing p out with
  | nil =>
    rw [List.flatMap_nil, List.append_nil]
    exact ⟨p, rfl, clear⟩
  | cons item items ih =>
    obtain ⟨mid, first, between⟩ := line_clear reckons clear empty (short item List.mem_cons_self)
    obtain ⟨q, later, after⟩ := ih between fun other member => short other (List.mem_cons_of_mem item member)
    refine ⟨q, ?_, ?_⟩
    · have calls : Comment.lineCalls (ι := ι) (item :: items) =
          Comment.lineCalls [item] ++ Comment.lineCalls items := by
        simp [Comment.lineCalls]
      rw [Printer.run] at first later ⊢
      rw [calls, List.foldlM_append, first, ok_bind, later]
    · rw [List.flatMap_cons]
      rwa [List.append_assoc] at after

theorem printed_lines (reckons : Reckons ι) {items : List Comment} (accepted : Printer.ofConfig c = .ok p)
    (empty : BreakTooWide c.withDefaults.margin)
    (short : ∀ item ∈ items, item.blank = false →
      item.toText ≠ [] ∧ BreakTooWide (c.withDefaults.margin - c.withDefaults.width item.toText)) :
    printCalls c (Comment.lineCalls items) = .ok (items.flatMap (·.toText ++ [0x0a])) := by
  obtain ⟨clear, -⟩ := ofConfig_clear accepted
  obtain ⟨mid, ran, between⟩ := lines_clear reckons clear empty short
  obtain ⟨last, finished, output⟩ := finish_clear between
  rw [List.nil_append] at output
  simp [printCalls, Printer.print, accepted, ran, finished, output]

end Documents

section Widths

theorem short_int {m : Int} (narrow : ¬ maxMargin < m) (n : Nat) : BreakTooWide (m - Columns.ofNat n) := by
  have most : (maxMargin : Int) = 65534 := rfl
  have infinite : (infiniteWidth : Int) = 65535 := rfl
  have count : (Columns.ofNat n : Int) = n := rfl
  unfold BreakTooWide
  rw [count, infinite]
  rw [most] at narrow
  omega

/-- A width that a word can hold, or one more. -/
theorem short_word {m : Int64} (positive : ¬ m < 0) (narrow : ¬ maxMargin < m) {n : Nat}
    (fits : n ≤ 9223372036854775808) : BreakTooWide (m - Columns.ofNat n) := by
  have low : 0 ≤ m.toInt := by
    have := Int64.not_lt.mp positive
    exact Int64.le_iff_toInt_le.mp this
  have high : m.toInt ≤ 65534 := by
    have := Int64.not_lt.mp narrow
    exact Int64.le_iff_toInt_le.mp this
  have value : (m - Int64.ofNat n).toInt = m.toInt - n := by
    rw [Int64.toInt_sub, Int64.toInt_ofNat', Int.sub_bmod_bmod]
    have size : Int64.size = 18446744073709551616 := rfl
    rw [size]
    apply Int.bmod_eq_of_le <;> omega
  show m - Int64.ofNat n < 1 + infiniteWidth - 1
  rw [Int64.lt_iff_toInt_lt, value]
  have infinite : (1 + infiniteWidth - 1 : Int64).toInt = 65535 := by decide
  omega

end Widths

end Galley.Layout.PlainLines
