import Galley.Proofs.Reformatting
import Galley.Proofs.Replaying

/-!
Words that run over. Indentation that adds up to more than a word can count turns negative there, and a printer that
counts in words refuses it. Where it is only near to that, the space of a line runs over, and lines break in other
places than they would. Still nothing is lost: as long as texts and blanks can be counted, every token is written, in
its order and in one of the ways that there are to write it.
-/

namespace Galley.Layout.Wraparound
open RingQueue Extent PageWriting Lookahead Twinning Words
open Bracketing Discipline Documents Reformatting FrontEnds
open Exactness (tokens_set resolve_ok breakHead_forced)
open Tracking (breakHead_decided columnsOf_nonneg columnsOf_sublist)
open Safety (withText withBreak)
open Replaying

/-- A page whose indentation has words. -/
structure PageWorded (page : Page Int) : Prop where
  indent : Fits page.sink.indent
  frames : ∀ f ∈ page.frames, 0 ≤ f.indent ∧ Fits f.indent

/-- A token that moves by a word at most, and is not aligned with what stands before it. -/
def TokenWorded : Token Int → Prop
  | .lineBreak b => Fits b.offset
  | .groupStart g => Fits g.offset ∧ g.align = false
  | .indent delta => Fits delta
  | .text _ | .groupEnd => True
  | .missing => False

/-- A token is written in some way to what is written in words. -/
def WrittenSomehow (page : Page Int) (t : Token Int) (sheet : Page Int64) : Prop :=
  ∃ size next, Wrote page t size next ∧ (opening t = none → size = columns page.sink.config t) ∧
    sheet = next.words ∧ PageWorded next

section Pages

variable {page : Page Int} {sheet : Page Int64} {size : Int64} {t : Token Int} {top : Frame Int}
  {rest : List (Frame Int)}

/-- What runs over a word is negative there, so a sum that is not has a word. -/
theorem word_sum {a b : Int} (low : 0 ≤ a) (fits : Fits a) (also : Fits b) (kept : ¬ word a + word b < 0) :
    0 ≤ a + b ∧ Fits (a + b) := by
  have kept : ¬ word (a + b) < 0 := by rwa [word, Int64.ofInt_add]
  by_cases near : Fits (a + b)
  · exact ⟨Int.not_lt.mp (mt (word_neg near).mpr kept), near⟩
  · have around : word (a + b) = word (a + b - 0x10000000000000000) := by
      have less := Int64.ofInt_sub (a + b) 0x10000000000000000
      rw [show Int64.ofInt 0x10000000000000000 = 0 by decide, Int64.sub_zero] at less
      exact less.symm
    obtain ⟨_, high⟩ := fits
    obtain ⟨least, most⟩ := also
    have beyond : ¬ a + b < 0x8000000000000000 := fun below => near ⟨by omega, below⟩
    have wrapped : Fits (a + b - 0x10000000000000000) := ⟨by omega, by omega⟩
    rw [around, word_neg wrapped] at kept
    omega

/-- Some number compares with the space that is left as a size does in words. -/
theorem size_guess (size : Int64) (space : Int) : ∃ guess : Int, size ≤ word space ↔ guess ≤ space := by
  by_cases fitting : size ≤ word space
  · exact ⟨space, iff_of_true fitting (Int.le_refl _)⟩
  · exact ⟨space + 1, iff_of_false fitting (by omega)⟩

/-- No more blanks are owed than a token has columns. -/
theorem wrote_blank {next : Page Int} {size : Int} (low : 0 ≤ page.sink.blank)
    (counted : 0 ≤ columns page.sink.config t) (wrote : Wrote page t size next) :
    next.sink.blank ≤ page.sink.blank + columns page.sink.config t := by
  cases wrote with
  | text s =>
    simp only [columns] at counted ⊢
    by_cases void : s.isEmpty = true <;> simp [Sink.write, Sink.mark, void] <;> omega
  | @flat _ _ b _ _ soft => simp [Sink.owe, columns, Break.width, soft]
  | taken => exact Int.add_nonneg low counted
  | fit | split | stop | shift | missing => exact Int.le_of_eq (Int.add_zero _).symm

variable (worded : PageWorded page)
include worded

theorem text_worded {s : Text} {size : Int} : PageWorded { page with sink := page.sink.write s size } := by
  obtain ⟨indent, frames⟩ := worded
  refine ⟨?_, frames⟩
  simp only [Sink.write]
  split
  · exact indent
  · dsimp only
    split
    · exact fits_zero
    · exact indent

variable (framed : page.frames = top :: rest)
include framed

theorem start_written {g : Group Int} (moved : Fits g.offset) (plain : g.align = false)
    (ran : page.words.startGroup g.words size = .ok sheet) : WrittenSomehow page (.groupStart g) sheet := by
  obtain ⟨guess, same⟩ := size_guess size page.sink.space
  have above := worded.frames top (by simp [framed])
  simp only [Page.startGroup, Page.words, framed, List.map_cons, Sink.words, same, Group.words, plain,
    Bool.false_eq_true, ↓reduceIte] at ran
  split at ran
  · rename_i fitting
    cases ran
    exact ⟨guess, _, .fit framed fitting, by simp [opening], by simp only [Page.words, framed]; rfl,
      worded.indent, List.forall_mem_cons.mpr ⟨above, worded.frames⟩⟩
  · rename_i wide
    split at ran
    · cases ran
    · rename_i kept
      obtain ⟨low, near⟩ := word_sum above.1 above.2 moved kept
      cases ran
      exact ⟨guess, _, .split framed (Int.not_le.mp wide) (by rw [plain]; rfl) low, by simp [opening],
        by simp only [Page.words, framed, List.map_cons, Frame.words, word, Int64.ofInt_add]; rfl,
        worded.indent, List.forall_mem_cons.mpr ⟨⟨low, near⟩, worded.frames⟩⟩

variable (unit : Fits page.sink.config.unit) (blank : Fits page.sink.blank)
include unit blank

theorem break_written {b : Break Int} (moved : Fits b.offset)
    (ran : page.words.writeBreak b.words size = .ok sheet) : WrittenSomehow page (.lineBreak b) sheet := by
  obtain ⟨guess, same⟩ := size_guess size page.sink.space
  have flat : page.words.staysFlat top.words b.words size = page.staysFlat top b guess := by
    simp only [Page.staysFlat, Page.words, Sink.words, Frame.words, Break.words, same]
  unfold Page.writeBreak at ran
  simp only [Page.words, framed, List.map_cons] at flat ran
  rw [flat] at ran
  by_cases stays : page.staysFlat top b guess = true
  · rw [if_pos stays, show b.words.blank = word b.blank from rfl, owe_words] at ran
    cases ran
    simp only [Page.staysFlat, decide_eq_true_eq] at stays
    exact ⟨guess, _, .flat framed stays.1 stays.2, by simp [opening], by simp [Page.words, framed], worded.indent,
      worded.frames⟩
  · obtain ⟨inside, whole⟩ := worded.frames top (by simp [framed])
    rw [if_neg stays] at ran
    obtain ⟨line, started, made⟩ := bind_ok ran
    cases made
    have kept : ¬ top.words.indent + b.words.offset < 0 := by
      intro negative
      rw [Sink.newline, if_pos negative] at started
      cases started
    obtain ⟨least, near⟩ := word_sum inside whole moved kept
    rw [show top.words.indent + b.words.offset = word (top.indent + b.offset) from (Int64.ofInt_add _ _).symm,
      newline_words unit worded.indent blank near, Sink.newline, if_neg (Int.not_lt.mpr least)] at started
    cases started
    simp only [Page.staysFlat, decide_eq_true_eq, not_and, not_or, Bool.not_eq_true, Int.not_le] at stays
    exact ⟨guess, _, .taken framed stays least, by simp [opening], by simp only [Page.words, framed]; rfl, near,
      worded.frames⟩

/-- What is written in words is written in some way. -/
theorem write_written (told : TokenWorded t)
    (sized : ∀ s, t = .text s → size = word (page.sink.config.width s))
    (ran : page.words.write t.words size = .ok sheet) : WrittenSomehow page t sheet := by
  have inner : ∀ f ∈ rest, 0 ≤ f.indent ∧ Fits f.indent := fun f member => worded.frames f (by simp [framed, member])
  cases t with
  | lineBreak b => exact break_written worded framed unit blank told ran
  | groupStart g => exact start_written worded framed told.1 told.2 ran
  | text s =>
    cases ran
    obtain rfl := sized s rfl
    refine ⟨_, _, .text s _, fun _ => rfl, ?_, text_worded worded⟩
    show Page.mk (page.sink.words.write s (word _)) _ = _
    rw [sink_write_words unit worded.indent blank]
    rfl
  | groupEnd =>
    simp only [Page.write, Token.words, Page.words, framed, List.map_cons] at ran
    cases ran
    exact ⟨0, _, .stop framed, fun _ => rfl, rfl, worded.indent, inner⟩
  | indent delta =>
    obtain ⟨inside, whole⟩ := worded.frames top (by simp [framed])
    simp only [Page.write, Token.words, Page.words, framed, List.map_cons] at ran
    split at ran
    · cases ran
    · rename_i kept
      obtain ⟨least, near⟩ := word_sum inside whole told kept
      cases ran
      refine ⟨0, _, .shift framed least, fun _ => rfl, ?_, worded.indent,
        List.forall_mem_cons.mpr ⟨⟨least, near⟩, inner⟩⟩
      simp only [Page.words, List.map_cons, Frame.words, word, Int64.ofInt_add]
      rfl
  | missing => cases told

end Pages

/-- Tokens of a document whose own columns can be counted in words all together. -/
structure TokensTellable (c : Config Int) (all : List (Token Int)) : Prop where
  unit : Fits c.unit
  counted : Forward c all
  light : columnsOf c all ≤ limit
  nested : levels 1 all = some 1

/-- A page in words on which tokens were written in some way, with others held back and ahead. -/
def PagePoured (c : Config Int) (all : List (Token Int)) (tokens : List (Token Int64)) (ahead : List (Token Int))
    (sheet : Page Int64) : Prop :=
  ∃ written held page, all = written ++ (held ++ ahead) ∧ (∀ t ∈ held, TokenWorded t) ∧
    tokens = held.map Token.words ∧ sheet = page.words ∧ TokensWritten c (Page.ofConfig c) written page ∧
    PageWorded page ∧ page.sink.blank ≤ columnsOf c written ∧ levels 1 written = some page.frames.length

/-- The positions of entries with a negative size, from a position on. -/
def owing : Int → List (Entry Int64) → List Int
  | _, [] => []
  | pos, e :: es => if e.size.toInt < 0 then pos :: owing (pos + 1) es else owing (pos + 1) es

/-- A printer that some tokens lie ahead of. The ones before them are written, or held back, in their order. Undecided
are the positions with a negative size, and the total makes up for it. -/
structure TokensPoured (c : Config Int) (all : List (Token Int)) (scopes : List (List Int64))
    (ahead : List (Token Int)) (p : Printer Int64) : Prop where
  config : p.config = c.words
  scopes : p.scopes = scopes
  page : PagePoured c all (p.buf.toList.map Entry.token) ahead p.page
  texts : ∀ e ∈ p.buf.toList, ∀ s, e.token = .text s → e.size = word (c.width s) ∧ 0 ≤ e.size.toInt
  pending : (p.scan.toList ++ p.closed).Perm (owing p.buf.offset p.buf.toList)
  ascending : p.scan.toList.Pairwise (· < ·)
  owed : ∀ e ∈ p.buf.toList, 0 ≤ e.size.toInt + p.rightTotal.toInt
  total : 0 ≤ p.rightTotal.toInt ∧ p.rightTotal.toInt + columnsOf c ahead ≤ columnsOf c all + 1

/-- Nothing is held back where nothing is undecided. -/
def EmptyWhenIdle (p : Printer Int64) : Prop := p.idle = true → p.buf.toList = []

variable {c : Config Int} {all ahead : List (Token Int)} {scopes : List (List Int64)} {p q : Printer Int64}

section Positions

variable {e : Entry Int64} {es fs : List (Entry Int64)} {pos place : Int}

theorem sum_toInt {a b : Int64} (fits : Fits (a.toInt + b.toInt)) : (a + b).toInt = a.toInt + b.toInt := by
  have sum := Int64.ofInt_add a.toInt b.toInt
  rw [Int64.ofInt_toInt, Int64.ofInt_toInt] at sum
  rw [← sum, word_toInt fits]

theorem neg_toInt {a : Int64} (positive : 0 < a.toInt) : (-a).toInt = -a.toInt := by
  have high := Int64.toInt_lt a
  have back : -a = word (-a.toInt) := by rw [word, Int64.ofInt_neg, Int64.ofInt_toInt]
  rw [back, word_toInt ⟨by omega, by omega⟩]

theorem idle_iff (p : Printer Int64) : p.idle = true ↔ p.scan.toList ++ p.closed = [] := by
  simp [Printer.idle, ← length_toList]

theorem negative_iff (n : Int64) : n < 0 ↔ n.toInt < 0 := Int64.lt_iff_toInt_lt

theorem owing_append (pos : Int) (es fs : List (Entry Int64)) :
    owing pos (es ++ fs) = owing pos es ++ owing (pos + es.length) fs := by
  induction es generalizing pos with
  | nil => simp [owing]
  | cons e es ih =>
    rw [List.cons_append, owing, owing, ih, List.length_cons, Int.natCast_add, Int.add_comm es.length, Int.add_assoc]
    split <;> rfl

theorem mem_owing (member : place ∈ owing pos es) :
    ∃ i e, place = pos + (i : Nat) ∧ es[i]? = some e ∧ e.size.toInt < 0 := by
  induction es generalizing pos with
  | nil => cases member
  | cons e es ih =>
    rw [owing] at member
    have later (inside : place ∈ owing (pos + 1) es) :
        ∃ i f, place = pos + (i : Nat) ∧ (e :: es)[i]? = some f ∧ f.size.toInt < 0 := by
      obtain ⟨i, f, same, found, negative⟩ := ih inside
      exact ⟨i + 1, f, by omega, found, negative⟩
    split at member
    · rcases List.mem_cons.mp member with rfl | inside
      · exact ⟨0, e, by omega, rfl, ‹_›⟩
      · exact later inside
    · exact later member

/-- An entry that is decided leaves the positions with a negative size. -/
theorem owing_set {n : Int64} {i : Nat} (here : es[i]? = some e) (negative : e.size.toInt < 0) (least : 0 ≤ n.toInt) :
    (owing pos es).Perm ((pos + i) :: owing pos (es.set i { e with size := n })) := by
  obtain ⟨bounded, rfl⟩ := List.getElem?_eq_some_iff.mp here
  have count : (es.take i).length = i := List.length_take_of_le (Nat.le_of_lt bounded)
  rw [List.set_eq_take_append_cons_drop, if_pos bounded, owing_append, owing, if_neg (Int.not_lt.mpr least), count]
  conv =>
    lhs
    rw [← List.take_append_drop i es, List.drop_eq_getElem_cons bounded, owing_append, owing, if_pos negative, count]
  exact List.perm_middle

end Positions

section Deciding

variable {pos : Int} (poured : TokensPoured c all scopes ahead p)
include poured

/-- An undecided entry is decided. -/
theorem settle_poured {i : Nat} {e : Entry Int64} {n : Int64} {buf : Ring (Entry Int64)} {scan : Ring Int}
    {closed : List Int} (here : p.buf.toList[i]? = some e)
    (negative : e.size.toInt < 0) (least : 0 ≤ n.toInt)
    (replaced : buf.toList = p.buf.toList.set i { e with size := n }) (still : buf.offset = p.buf.offset)
    (gone : (p.scan.toList ++ p.closed).Perm ((p.buf.offset + i : Int) :: (scan.toList ++ closed)))
    (ascending : scan.toList.Pairwise (· < ·)) :
    TokensPoured c all scopes ahead { p with buf := buf, scan := scan, closed := closed } := by
  have tokens : buf.toList.map Entry.token = p.buf.toList.map Entry.token := by rw [replaced, tokens_set here]
  have member {a : Entry Int64} (inside : a ∈ buf.toList) : a ∈ p.buf.toList ∨ a = { e with size := n } :=
    List.mem_or_eq_of_mem_set (replaced ▸ inside)
  refine ⟨poured.config, poured.scopes, tokens.symm ▸ poured.page, ?_, ?_, ascending, ?_, poured.total⟩
  · intro a inside s text
    rcases member inside with old | rfl
    · exact poured.texts a old s text
    · exact absurd (poured.texts e (List.mem_of_getElem? here) s text).2 (Int.not_le.mpr negative)
  · have settled : (owing p.buf.offset p.buf.toList).Perm _ := owing_set here negative least
    rw [← replaced, ← still] at settled
    exact (List.perm_cons _).mp (gone.symm.trans (poured.pending.trans (still ▸ settled)))
  · intro a inside
    rcases member inside with old | rfl
    · exact poured.owed a old
    · exact Int.add_nonneg least poured.total.1

theorem popBack_perm {scan : Ring Int} (popped : queue p.scan.popBack = .ok (pos, scan)) :
    (p.scan.toList ++ p.closed).Perm (pos :: (scan.toList ++ p.closed)) ∧ scan.toList.Pairwise (· < ·) := by
  have ascending := poured.ascending
  rw [popBack_ok (queue_ok popped)] at ascending ⊢
  exact ⟨by simp, ascending.sublist (List.sublist_append_left _ _)⟩

/-- An undecided position of an open group becomes one of a closed group. -/
theorem closeTop_poured {test : Token Int64 → Bool} (ran : closeTop p test = .ok q) :
    TokensPoured c all scopes ahead q := by
  obtain ⟨top, _, later⟩ := bind_ok ran
  split at later
  · obtain ⟨⟨pos, scan⟩, popped, same⟩ := bind_ok later
    cases same
    obtain ⟨gone, ascending⟩ := popBack_perm poured popped
    have moved : (scan.toList ++ (p.closed ++ [pos])).Perm (pos :: (scan.toList ++ p.closed)) := by
      rw [← List.append_assoc]
      exact List.perm_append_singleton ..
    exact { poured with pending := moved.trans (gone.symm.trans poured.pending), ascending := ascending }
  · cases later
    exact poured

theorem scan_within (inside : pos ∈ p.scan.toList) :
    p.buf.offset ≤ pos ∧ pos < p.buf.offset + (p.buf.toList.length : Int) := by
  obtain ⟨i, _, rfl, found, _⟩ := mem_owing (poured.pending.mem_iff.mp (List.mem_append_left p.closed inside))
  obtain ⟨bounded, _⟩ := List.getElem?_eq_some_iff.mp found
  omega

/-- The head of the buffer is decided. -/
theorem breakHead_poured (ran : p.breakHead = .ok q) :
    TokensPoured c all scopes ahead q := by
  obtain ⟨e, found, _⟩ := bind_ok ran
  obtain ⟨i, _, held⟩ := read_ok (queue_ok found)
  obtain ⟨e, es, front⟩ := List.exists_cons_of_ne_nil (l := p.buf.toList) fun none => by simp [none] at held
  by_cases negative : e.size < 0
  · obtain ⟨buf, scan, closed, rfl, stored, still, dropped⟩ := breakHead_forced front negative ran
    have negative := (negative_iff _).mp negative
    have place : (p.buf.offset + (0 : Nat) : Int) = p.buf.frontPos := Int.add_zero _
    have head : p.buf.frontPos ∈ p.scan.toList ++ p.closed := by
      rw [poured.pending.mem_iff, front, owing, if_pos negative]
      exact List.mem_cons_self
    refine settle_poured poured (i := 0) (n := infiniteWidth) (by rw [front]; rfl) negative (by decide)
      (by rw [front, stored]; rfl) still ?_ ?_ <;> rcases dropped with ⟨scanned, rfl⟩ | ⟨other, rfl, rfl⟩
    · rw [place, scanned]
      exact .refl _
    · -- The open positions ascend, so the front could only be the first of them.
      have apart : p.buf.frontPos ∉ p.scan.toList := by
        intro member
        obtain ⟨first, rest, scanned⟩ := List.exists_cons_of_ne_nil (List.ne_nil_of_mem member)
        have low := (scan_within poured (scanned ▸ List.mem_cons_self : first ∈ p.scan.toList)).1
        have ascending := poured.ascending
        rw [scanned] at member other ascending
        rcases List.mem_cons.mp member with rfl | later
        · exact other rfl
        · have less := (List.pairwise_cons.mp ascending).1 _ later
          rw [Ring.frontPos] at less
          omega
      have member := (List.mem_append.mp head).resolve_left apart
      rw [place]
      exact ((List.perm_cons_erase member).append_left _).trans List.perm_middle
    · exact (List.pairwise_cons.mp (scanned ▸ poured.ascending)).2
    · exact poured.ascending
  · rw [breakHead_decided front negative] at ran
    cases ran
    exact poured

theorem busy_total (busy : ¬ p.idle = true) : 0 < p.rightTotal.toInt := by
  obtain ⟨pos, _, waiting⟩ := List.exists_cons_of_ne_nil (mt (idle_iff p).mpr busy)
  obtain ⟨i, e, _, found, negative⟩ := mem_owing (poured.pending.mem_iff.mp (waiting ▸ List.mem_cons_self))
  have owed := poured.owed e (List.mem_of_getElem? found)
  omega

end Deciding

section Resolving

variable {pos : Int}

/-- A position is resolved, and leaves those that are undecided. -/
theorem resolve_poured (scanned : Ring Int) {scan : Ring Int} {ended closed : List Int}
    (poured : TokensPoured c all scopes ahead { p with scan := scanned, closed := ended })
    (gone : (scanned.toList ++ ended).Perm (pos :: (scan.toList ++ closed)))
    (ascending : scan.toList.Pairwise (· < ·)) (ran : p.resolve pos = .ok q) :
    ∃ buf, q = { p with buf := buf } ∧
      TokensPoured c all scopes ahead { p with buf := buf, scan := scan, closed := closed } := by
  obtain ⟨i, e, buf, rfl, here, rfl, replaced, still⟩ := resolve_ok ran
  obtain ⟨j, f, same, found, negative⟩ := mem_owing (poured.pending.mem_iff.mp (gone.mem_iff.mpr List.mem_cons_self))
  obtain rfl : i = j := by simp only at same; omega
  obtain rfl := Option.some.inj (here.symm.trans found)
  have owed : 0 ≤ e.size.toInt + p.rightTotal.toInt := poured.owed e (List.mem_of_getElem? here)
  have high := Int64.toInt_lt p.rightTotal
  refine ⟨buf, rfl, settle_poured (p := { p with scan := scanned, closed := ended }) poured here negative ?_ replaced
    still gone ascending⟩
  rw [sum_toInt ⟨by omega, by omega⟩]
  exact owed

theorem resolveAll_poured {closed : List Int} (poured : TokensPoured c all scopes ahead { p with closed := closed })
    (ran : closed.foldlM Printer.resolve p = .ok q) :
    TokensPoured c all scopes ahead { q with closed := [] } := by
  induction closed generalizing p with
  | nil =>
    cases ran
    exact poured
  | cons pos closed ih =>
    rw [List.foldlM_cons] at ran
    obtain ⟨r, resolved, later⟩ := bind_ok ran
    obtain ⟨buf, rfl, settled⟩ := resolve_poured p.scan poured List.perm_middle poured.ascending resolved
    exact ih settled later

theorem resolveClosed_poured (poured : TokensPoured c all scopes ahead p) (ran : p.resolveClosed = .ok q) :
    TokensPoured c all scopes ahead q ∧ q.closed = [] := by
  obtain ⟨r, resolved, same⟩ := bind_ok ran
  cases same
  exact ⟨resolveAll_poured poured resolved, rfl⟩

theorem resolveScan_poured (fuel : Nat) (poured : TokensPoured c all scopes ahead p)
    (ran : Printer.resolveScan fuel p = .ok q) :
    TokensPoured c all scopes ahead q ∧ q.closed = p.closed ∧ (p.scan.length ≤ fuel → q.scan.length = 0) := by
  induction fuel generalizing p with
  | zero =>
    cases ran
    exact ⟨poured, rfl, Nat.le_zero.mp⟩
  | succ fuel ih =>
    unfold Printer.resolveScan at ran
    split at ran
    · cases ran
      exact ⟨poured, rfl, fun _ => ‹_›⟩
    · obtain ⟨⟨pos, scan⟩, popped, later⟩ := bind_ok ran
      obtain ⟨r, resolved, rest⟩ := bind_ok later
      obtain ⟨gone, ascending⟩ := popBack_perm poured popped
      obtain ⟨buf, rfl, settled⟩ := resolve_poured (p := { p with scan := scan }) p.scan poured gone ascending resolved
      obtain ⟨again, closed, none⟩ := ih settled rest
      have count := congrArg List.length (popBack_ok (queue_ok popped))
      simp only [List.length_append, length_toList, List.length_singleton] at count
      exact ⟨again, closed, fun enough => none (show scan.length ≤ fuel by omega)⟩

end Resolving

section Writing

variable {t : Token Int} {tokens : List (Token Int64)} {sheet : Page Int64}

theorem tell_poured (told : TokenWorded t) (poured : PagePoured c all tokens (t :: ahead) sheet) :
    PagePoured c all (tokens ++ [t.words]) ahead sheet := by
  obtain ⟨written, held, page, rfl, worded, rfl, rest⟩ := poured
  exact ⟨written, held ++ [t], page, by simp, List.forall_mem_append.mpr ⟨worded, List.forall_mem_singleton.mpr told⟩,
    by simp, rest⟩

variable (tellable : TokensTellable c all)
include tellable

theorem poured_light (poured : PagePoured c all tokens ahead sheet) : Forward c ahead ∧
    columnsOf c ahead ≤ columnsOf c all := by
  obtain ⟨written, held, _, parts, _⟩ := poured
  have last : ahead.Sublist all := by
    rw [parts, ← List.append_assoc]
    exact List.sublist_append_right ..
  exact ⟨fun t member => tellable.counted t (last.subset member), columnsOf_sublist last tellable.counted⟩

/-- The columns of a token that lies ahead can be counted. -/
theorem columns_toInt_ahead (poured : PagePoured c all tokens (t :: ahead) sheet) :
    0 ≤ columns c t ∧ (word (columns c t)).toInt = columns c t := by
  obtain ⟨counted, high⟩ := poured_light tellable poured
  obtain ⟨counted, later⟩ := List.forall_mem_cons.mp counted
  have least := columnsOf_nonneg later
  have light := tellable.light
  simp only [columnsOf, limit] at high light
  exact ⟨counted, word_toInt ⟨by omega, by omega⟩⟩

theorem write_poured {t : Token Int64} {next : Page Int64} {size : Int64}
    (poured : PagePoured c all (t :: tokens) ahead sheet) (sized : ∀ s, t = .text s → size = word (c.width s))
    (ran : sheet.write t size = .ok next) : PagePoured c all tokens ahead next := by
  obtain ⟨written, held, page, parts, told, same, rfl, laid, worded, high, depth⟩ := poured
  cases held with
  | nil => cases same
  | cons head rest =>
    obtain ⟨rfl, rfl⟩ := List.cons.inj same
    obtain ⟨first, told⟩ := List.forall_mem_cons.mp told
    have member : head ∈ all := by simp [parts]
    have grounded := written_last laid
    have config := grounded.config
    have counted := tellable.counted head member
    obtain ⟨top, inner, framed⟩ : ∃ top inner, page.frames = top :: inner := by
      obtain ⟨above, indent, frames⟩ := grounded.bottom
      exact List.exists_cons_of_ne_nil (by simp [frames])
    -- The blanks that are owed are among the columns written, also where the space of the line has run over.
    have blank : Fits page.sink.blank := by
      have low := grounded.blank
      have light := tellable.light
      have less : columnsOf c written ≤ columnsOf c all :=
        columnsOf_sublist (parts ▸ List.sublist_append_left ..) tellable.counted
      rw [limit] at light
      constructor <;> omega
    have nested := tellable.nested
    rw [parts, levels_append, depth, Option.bind_some] at nested
    obtain ⟨n, here, _⟩ := Option.bind_eq_some_iff.mp nested
    obtain ⟨count, final, wrote, exact, rfl, after⟩ := write_written worded framed (config ▸ tellable.unit) blank
      first (fun s text => config.symm ▸ sized s (congrArg Token.words text)) ran
    have owed := wrote_blank grounded.blank (config ▸ counted) wrote
    rw [config] at exact owed
    obtain ⟨ground, frames⟩ := write_grounded grounded counted exact here (write_of_wrote wrote)
    refine ⟨written ++ [head], rest, final, by simp [parts], told, rfl, rfl, written_concat laid wrote ground, after,
      ?_, ?_⟩
    · rw [columnsOf_append, columnsOf, columnsOf]
      omega
    · rw [levels_append, depth, frames]
      simp [levels, here]

variable (poured : TokensPoured c all scopes ahead p)
include poured

/-- Totals start anew where nothing is held back. -/
theorem restart_poured (empty : p.buf.toList = []) : TokensPoured c all scopes ahead p.restart := by
  have light := (poured_light tellable poured.page).2
  refine { poured with owed := fun e member => ?_, total := ⟨show (0 : Int) ≤ 1 by decide, ?_⟩ }
  · simp [Printer.restart, empty] at member
  · show (1 : Int) + _ ≤ _
    omega

/-- The head of the buffer is written, if it is decided. -/
theorem pop_poured {e : Entry Int64} {es : List (Entry Int64)} {buf : Ring (Entry Int64)} (left : Int64)
    (front : p.buf.toList = e :: es)
    (decided : ¬ e.size.toInt < 0) (tail : buf.toList = es) (moved : buf.offset = p.buf.offset + 1)
    (ran : p.page.write e.token e.size = .ok sheet) :
    TokensPoured c all scopes ahead { p with buf := buf, page := sheet, leftTotal := left } := by
  obtain ⟨config, open_, page, texts, pending, ascending, owed, total⟩ := poured
  rw [front] at texts owed page pending
  rw [owing, if_neg decided] at pending
  have later {a : Entry Int64} (member : a ∈ buf.toList) : a ∈ e :: es := List.mem_cons_of_mem _ (tail ▸ member)
  refine ⟨config, open_, ?_, fun a member => texts a (later member), ?_, ascending,
    fun a member => owed a (later member), total⟩
  · rw [tail]
    exact write_poured tellable page (fun s text => (texts e List.mem_cons_self s text).1) ran
  · simpa [tail, moved] using pending

theorem advanceUpTo_poured (fuel : Nat) (ran : Printer.advanceUpTo fuel p = .ok q) :
    TokensPoured c all scopes ahead q ∧ q.scan = p.scan ∧ q.closed = p.closed ∧
      (p.buf.length ≤ fuel → EmptyWhenIdle q) := by
  have empty {r : Printer Int64} (none : r.buf.length = 0) : EmptyWhenIdle r := by
    intro _
    rwa [← List.length_eq_zero_iff, length_toList]
  induction fuel generalizing p with
  | zero =>
    cases ran
    exact ⟨poured, rfl, rfl, fun none => empty (Nat.le_zero.mp none)⟩
  | succ fuel ih =>
    unfold Printer.advanceUpTo at ran
    split at ran
    · cases ran
      exact ⟨poured, rfl, rfl, fun _ => empty ‹_›⟩
    · rename_i filled
      obtain ⟨e, es, front⟩ := List.exists_cons_of_ne_nil (l := p.buf.toList)
        (by rwa [ne_eq, ← List.length_eq_zero_iff, length_toList])
      obtain ⟨buf, popped, tail, moved⟩ := popFront_cons front
      simp only [front_cons front, popped, queue, ok_bind, negative_iff] at ran
      split at ran
      · rename_i undecided
        cases ran
        refine ⟨poured, rfl, rfl, fun _ idle => ?_⟩
        have pending := poured.pending
        rw [(idle_iff _).mp idle, front, owing, if_pos undecided] at pending
        simpa using pending.length_eq
      · rename_i decided
        obtain ⟨sheet, written, later⟩ := bind_ok ran
        obtain ⟨again, scan, closed, ripe⟩ := ih (pop_poured tellable poured _ front decided tail moved written) later
        have count := congrArg List.length front
        have rest := congrArg List.length tail
        simp only [length_toList, List.length_cons] at count rest
        exact ⟨again, scan, closed, fun enough => ripe (show buf.length ≤ fuel by omega)⟩

theorem advance_poured (ran : p.advance = .ok q) :
    TokensPoured c all scopes ahead q ∧ q.scan = p.scan ∧ q.closed = p.closed ∧ EmptyWhenIdle q := by
  obtain ⟨again, scan, closed, rests⟩ := advanceUpTo_poured tellable poured _ ran
  exact ⟨again, scan, closed, rests (Nat.le_refl _)⟩

theorem checkStreamUpTo_poured (fuel : Nat) (ran : Printer.checkStreamUpTo fuel p = .ok q) :
    TokensPoured c all scopes ahead q ∧ (EmptyWhenIdle p → EmptyWhenIdle q) := by
  induction fuel generalizing p with
  | zero =>
    cases ran
    exact ⟨poured, id⟩
  | succ fuel ih =>
    unfold Printer.checkStreamUpTo at ran
    split at ran
    · obtain ⟨r, broken, later⟩ := bind_ok ran
      obtain ⟨s, advanced, rest⟩ := bind_ok later
      obtain ⟨poured, _, _, rests⟩ := advance_poured tellable (breakHead_poured poured broken) advanced
      obtain ⟨again, kept⟩ := ih poured rest
      exact ⟨again, fun _ => kept rests⟩
    · cases ran
      exact ⟨poured, id⟩

end Writing

section Scans

variable {t : Token Int}

variable (tellable : TokensTellable c all)
include tellable

variable (told : TokenWorded t) (poured : TokensPoured c all scopes (t :: ahead) p)
include told poured

/-- Another token is held back, decided or not. -/
theorem push_poured {e : Entry Int64} {n : Int64} {scan : Ring Int} {stats : Stats} {fresh : List Int}
    (scanned : scan.toList = p.scan.toList ++ fresh) (right : n = p.rightTotal + word (columns c t))
    (token : e.token = t.words) (texts : ∀ s, t = .text s → e.size = word (c.width s))
    (sign : fresh = [] ∧ 0 ≤ e.size.toInt ∨
      fresh = [p.buf.offset + (p.buf.toList.length : Int)] ∧ e.size.toInt = -p.rightTotal.toInt ∧
        0 < p.rightTotal.toInt) :
    TokensPoured c all scopes ahead
      { p with buf := p.buf.pushBack e, scan := scan, rightTotal := n, stats := stats } := by
  obtain ⟨counted, width⟩ := columns_toInt_ahead tellable poured.page
  have least := columnsOf_nonneg (List.forall_mem_cons.mp (poured_light tellable poured.page).1).2
  have light := tellable.light
  obtain ⟨sum, room⟩ := poured.total
  simp only [columnsOf, limit] at room light
  -- The total stays within the columns of the document, so it does not run over.
  have total : n.toInt = p.rightTotal.toInt + columns c t := by
    rw [right, sum_toInt (by rw [width]; exact ⟨by omega, by omega⟩), width]
  have new : owing (p.buf.offset + (p.buf.toList.length : Int)) [e] = fresh := by
    rcases sign with ⟨rfl, decided⟩ | ⟨rfl, negative, positive⟩
    · rw [owing, if_neg (Int.not_lt.mpr decided)]
      rfl
    · rw [owing, if_pos (by omega)]
      rfl
  have member {a : Entry Int64} (inside : a ∈ (p.buf.pushBack e).toList) : a ∈ p.buf.toList ∨ a = e := by
    simpa [toList_pushBack] using inside
  refine ⟨poured.config, poured.scopes, ?_, ?_, ?_, ?_, ?_, show 0 ≤ n.toInt by omega, show n.toInt + _ ≤ _ by omega⟩
  · rw [toList_pushBack, List.map_append, List.map_singleton, token]
    exact tell_poured told poured.page
  · intro a inside s text
    rcases member inside with old | rfl
    · exact poured.texts a old s text
    · obtain rfl : t = .text s := by cases t <;> simp_all [Token.words]
      rw [texts s rfl]
      exact ⟨rfl, width ▸ counted⟩
  · rw [scanned, offset_pushBack, toList_pushBack, owing_append, new, List.append_assoc]
    exact (List.perm_append_comm.append_left _).trans
      ((List.append_assoc ..).symm ▸ poured.pending.append_right fresh)
  · rw [scanned]
    rcases sign with ⟨rfl, _⟩ | ⟨rfl, _⟩
    · rw [List.append_nil]
      exact poured.ascending
    · refine List.pairwise_append.mpr ⟨poured.ascending, List.pairwise_singleton .., fun pos inside next same => ?_⟩
      exact List.mem_singleton.mp same ▸ (scan_within poured inside).2
  · intro a inside
    show 0 ≤ a.size.toInt + n.toInt
    rcases member inside with old | rfl
    · have before := poured.owed a old
      omega
    · omega

/-- A token is written at once where nothing is held back. -/
theorem now_poured {size : Int64} {sheet : Page Int64} (empty : p.buf.toList = [])
    (sized : ∀ s, t.words = .text s → size = word (c.width s)) (ran : p.page.write t.words size = .ok sheet) :
    TokensPoured c all scopes ahead { p with page := sheet } ∧ EmptyWhenIdle { p with page := sheet } := by
  have page := poured.page
  obtain ⟨counted, _⟩ := columns_toInt_ahead tellable page
  obtain ⟨low, high⟩ := poured.total
  rw [empty] at page
  rw [columnsOf] at high
  refine ⟨{ poured with page := ?_, total := ⟨low, show p.rightTotal.toInt + _ ≤ _ by omega⟩ }, fun _ => empty⟩
  rw [empty]
  exact write_poured tellable (tell_poured told page) sized ran

/-- A token is held back, undecided. -/
theorem pending_poured {n : Int64} (mute : ∀ s, t ≠ .text s) (positive : 0 < p.rightTotal.toInt)
    (right : n = p.rightTotal + word (columns c t)) :
    TokensPoured c all scopes ahead { p.pushPending t.words with rightTotal := n } := by
  refine push_poured tellable told poured (e := ⟨t.words, -p.rightTotal⟩) ?_ right rfl
    (fun s text => absurd text (mute s)) (.inr ⟨rfl, neg_toInt positive, positive⟩)
  show (p.scan.pushBack (p.buf.pushBack _).backPos).toList = _
  rw [toList_pushBack, backPos_pushBack]

/-- A token is held back, decided. -/
theorem decided_poured {n size : Int64} (least : 0 ≤ size.toInt) (texts : ∀ s, t = .text s → size = word (c.width s))
    (right : n = p.rightTotal + word (columns c t)) :
    TokensPoured c all scopes ahead { p.push ⟨t.words, size⟩ with rightTotal := n } :=
  push_poured tellable told poured (e := ⟨t.words, size⟩) (List.append_nil _).symm right rfl texts (.inl ⟨rfl, least⟩)

omit told poured

theorem scanStart_poured {g : Group Int} (told : TokenWorded (.groupStart g))
    (poured : TokensPoured c all scopes (.groupStart g :: ahead) p) (rests : EmptyWhenIdle p) :
    TokensPoured c all scopes ahead (p.scanStart g.words) ∧ EmptyWhenIdle (p.scanStart g.words) := by
  have pushed {r : Printer Int64} (poured : TokensPoured c all scopes (.groupStart g :: ahead) r)
      (positive : 0 < r.rightTotal.toInt) : TokensPoured c all scopes ahead (r.pushPending (.groupStart g.words)) ∧
      EmptyWhenIdle (r.pushPending (.groupStart g.words)) := by
    refine ⟨pending_poured tellable told poured (by simp) positive (n := r.rightTotal) (Int64.add_zero _).symm,
      fun idle => ?_⟩
    have none : (r.scan.pushBack _).toList ++ r.closed = [] := (idle_iff _).mp idle
    simp [toList_pushBack] at none
  unfold Printer.scanStart
  split
  · rename_i idle
    exact pushed (restart_poured tellable poured (rests idle)) (show 0 < (1 : Int64).toInt by decide)
  · exact pushed poured (busy_total poured ‹_›)

theorem scanBreak_poured {b : Break Int} (told : TokenWorded (.lineBreak b))
    (poured : TokensPoured c all scopes (.lineBreak b :: ahead) p) (rests : EmptyWhenIdle p)
    (ran : p.scanBreak b.words = .ok q) : TokensPoured c all scopes ahead q ∧ EmptyWhenIdle q := by
  rw [Safety.scanBreak_eq] at ran
  obtain ⟨r, closed, later⟩ := bind_ok ran
  obtain ⟨s, last, later⟩ := bind_ok later
  obtain ⟨u, checked, advanced⟩ := bind_ok later
  have ended : TokensPoured c all scopes (.lineBreak b :: ahead) r ∧ r.closed = [] ∧ EmptyWhenIdle r := by
    unfold Printer.writeClosed at closed
    split at closed
    · cases closed
      exact ⟨poured, List.isEmpty_iff.mp ‹_›, rests⟩
    · obtain ⟨v, resolved, advanced⟩ := bind_ok closed
      obtain ⟨poured, none⟩ := resolveClosed_poured poured resolved
      obtain ⟨poured, _, same, rests⟩ := advance_poured tellable poured advanced
      exact ⟨poured, same.trans none, rests⟩
  obtain ⟨poured, none, rests⟩ := ended
  have settled : TokensPoured c all scopes (.lineBreak b :: ahead) s ∧ 0 < s.rightTotal.toInt := by
    unfold Printer.resolveLast at last
    split at last
    · rename_i empty
      cases last
      rw [← length_toList, List.length_eq_zero_iff] at empty
      exact ⟨restart_poured tellable poured (rests ((idle_iff r).mpr (by rw [empty, none]; rfl))),
        show 0 < (1 : Int64).toInt by decide⟩
    · rename_i filled
      have positive := busy_total poured fun idle => filled (by
        rw [← length_toList, (List.append_eq_nil_iff.mp ((idle_iff r).mp idle)).1]; rfl)
      obtain ⟨top, _, later⟩ := bind_ok last
      split at later
      · obtain ⟨⟨pos, scan⟩, popped, resolved⟩ := bind_ok later
        obtain ⟨gone, ascending⟩ := popBack_perm poured popped
        obtain ⟨buf, rfl, settled⟩ := resolve_poured (p := { r with scan := scan }) r.scan poured gone ascending
          resolved
        exact ⟨settled, positive⟩
      · cases later
        exact ⟨poured, positive⟩
  have pushed : TokensPoured c all scopes ahead (withBreak s b.words) :=
    pending_poured tellable told settled.1 (by simp) settled.2 (by rw [breakWidth_words]; rfl)
  obtain ⟨poured, _⟩ := checkStreamUpTo_poured tellable pushed _ checked
  obtain ⟨poured, _, _, rests⟩ := advance_poured tellable poured advanced
  exact ⟨poured, rests⟩

include told poured

/-- A token is taken in. -/
theorem take_poured (rests : EmptyWhenIdle p) (ran : take p t.words = .ok q) :
    TokensPoured c all scopes ahead q ∧ EmptyWhenIdle q := by
  have now {size : Int64} {sheet : Page Int64} (idle : p.idle = true)
      (sized : ∀ s, t.words = .text s → size = word (c.width s)) (ran : p.page.write t.words size = .ok sheet) :
      TokensPoured c all scopes ahead { p with page := sheet } ∧ EmptyWhenIdle { p with page := sheet } :=
    now_poured tellable told poured (rests idle) sized ran
  cases t with
  | lineBreak b => exact scanBreak_poured tellable told poured rests ran
  | groupStart g =>
    cases ran
    exact scanStart_poured tellable told poured rests
  | missing => cases told
  | text s =>
    have width : p.config.width s = word (c.width s) := by rw [poured.config, width_words]
    cases idle : p.idle with
    | true =>
      simp only [take, Token.words, Printer.scanText, idle, ↓reduceIte] at ran
      cases ran
      exact now idle (fun s' same => by cases same; exact width) rfl
    | false =>
      obtain ⟨counted, exact⟩ := columns_toInt_ahead tellable poured.page
      have pushed : TokensPoured c all scopes ahead (withText p s) :=
        decided_poured tellable told poured (by rw [width]; exact exact ▸ counted)
          (fun s' same => by cases same; exact width) (by rw [width]; rfl)
      obtain ⟨again, kept⟩ := checkStreamUpTo_poured tellable pushed _ ((Safety.scanText_eq p s idle).symm.trans ran)
      exact ⟨again, kept fun quiet => by cases idle.symm.trans quiet⟩
  | groupEnd =>
    cases idle : p.idle with
    | true =>
      simp only [take, Token.words, Printer.scanEnd, idle, ↓reduceIte] at ran
      obtain ⟨sheet, written, same⟩ := bind_ok ran
      cases same
      exact now idle (by simp [Token.words]) written
    | false =>
      obtain ⟨r, last, later⟩ := bind_ok ((scanEnd_eq p idle).symm.trans ran)
      obtain ⟨s, own, advanced⟩ := bind_ok later
      have pushed : TokensPoured c all scopes ahead (s.push ⟨.groupEnd, 0⟩) :=
        decided_poured tellable told (closeTop_poured (closeTop_poured poured last) own) (Int.le_refl 0) (by simp)
          (Int64.add_zero _).symm
      obtain ⟨poured, _, _, rests⟩ := advance_poured tellable pushed advanced
      exact ⟨poured, rests⟩
  | indent delta =>
    cases idle : p.idle with
    | true =>
      simp only [take, Token.words, Printer.scanIndent, idle, ↓reduceIte] at ran
      obtain ⟨sheet, written, same⟩ := bind_ok ran
      cases same
      exact now idle (by simp [Token.words]) written
    | false =>
      simp only [take, Token.words, Printer.scanIndent, idle, Bool.false_eq_true, ↓reduceIte] at ran
      cases ran
      exact ⟨decided_poured tellable told poured (Int.le_refl 0) (by simp) (Int64.add_zero _).symm,
        fun quiet => by cases idle.symm.trans quiet⟩

end Scans

section Runs

variable {calls : List (Call Int)} {xs : List (Call Int64)}

/-- A call in words, and what it moves by. -/
def RisesInWords (k : Call Int64) (j : Call Int) : Prop :=
  CallSpells k j ∧ CallRises j ∧ Fits (moves (tokenAt .initial j))

theorem rising_balanced (twins : CallsTwinned RisesInWords xs calls) : Balanced calls :=
  balanced_of_twins (fun _ _ kin => kin.2.1) twins

theorem count_asks {f : Printer Int64 → Except Fault (Printer Int64)} (ran : (p.count >>= f) = .ok q) :
    f (counted p) = .ok q := by
  rwa [count_counted (count_ok ran), ok_bind] at ran

theorem rescope_poured (poured : TokensPoured c all scopes ahead p) (others : List (List Int64)) :
    TokensPoured c all others ahead (rescope (counted p) others) := { poured with scopes := rfl }

theorem run_around {k l : Call Int64} (ran : p.run (k :: xs ++ [l]) = .ok q) :
    ∃ r u, p.call k = .ok r ∧ r.run xs = .ok u ∧ u.call l = .ok q := by
  rw [List.cons_append, ← List.singleton_append, run_append, run_one] at ran
  obtain ⟨r, first, later⟩ := bind_ok ran
  rw [run_append] at later
  obtain ⟨u, within, last⟩ := bind_ok later
  exact ⟨r, u, first, within, run_one u l ▸ last⟩

theorem transcript_around (k l : Call Int) (balanced : Balanced calls) (s : Standing) :
    transcript s (k :: calls ++ [l]) ++ ahead =
      tokenAt s k :: (transcript (s.after k) calls ++ tokenAt (s.after k) l :: ahead) := by
  simp [transcript, transcript_append, balanced_after balanced]

variable (tellable : TokensTellable c all)
include tellable

/-- The token of a call is taken in, with the groups open that the call leaves open. -/
theorem tell_taken {t : Token Int} {others : List (List Int64)} (told : TokenWorded t)
    (poured : TokensPoured c all scopes (t :: ahead) p) (rests : EmptyWhenIdle p)
    (ran : take (rescope (counted p) others) t.words = .ok q) : TokensPoured c all others ahead q ∧ EmptyWhenIdle q :=
  take_poured tellable told (rescope_poured poured others) rests ran

/-- A call that leaves the open groups as they are. -/
theorem call_poured {k : Call Int64} (t : Token Int) (told : TokenWorded t)
    (poured : TokensPoured c all scopes (t :: ahead) p) (rests : EmptyWhenIdle p)
    (asks : p.call k = p.count >>= fun q => take q t.words) (ran : p.run [k] = .ok q) :
    TokensPoured c all scopes ahead q ∧ EmptyWhenIdle q := by
  obtain rfl := poured.scopes
  rw [run_one, asks] at ran
  exact tell_taken tellable told poured rests (count_asks ran)

/-- What is asked for in words is taken in, token by token. -/
theorem run_poured (twins : CallsTwinned RisesInWords xs calls) (s : Standing) (inside : s.scopes ≠ [])
    (poured : TokensPoured c all scopes (transcript s calls ++ ahead) p) (rests : EmptyWhenIdle p)
    (ran : p.run xs = .ok q) : TokensPoured c all scopes ahead q ∧ EmptyWhenIdle q := by
  induction twins generalizing s scopes ahead p q with
  | nil =>
    cases ran
    exact ⟨poured, rests⟩
  | text t => exact call_poured tellable (.text t) trivial poured rests rfl ran
  | space => exact call_poured tellable (.lineBreak ⟨.space, 1, 0, []⟩) fits_zero poured rests rfl ran
  | softBreak => exact call_poured tellable (.lineBreak ⟨.zero, 0, 0, []⟩) fits_zero poured rests rfl ran
  | hardBreak => exact call_poured tellable (.lineBreak ⟨.hard, 0, 0, []⟩) fits_zero poured rests rfl ran
  | append first _ left right =>
    rw [run_append] at ran
    obtain ⟨r, before, after⟩ := bind_ok ran
    rw [transcript_append, balanced_after (rising_balanced first), List.append_assoc] at poured
    obtain ⟨poured, rests⟩ := left s inside poured rests before
    exact right s inside poured rests after
  | @group breaks policy offset other _ _ kin inner ih =>
    obtain ⟨same, _, fits⟩ := kin
    cases same
    obtain ⟨r, u, opens, within, closes⟩ := run_around ran
    rw [transcript_around _ _ (rising_balanced inner)] at poured
    obtain ⟨fresh, known⟩ := openGroup_ok opens
    obtain ⟨entered, due⟩ := tell_taken tellable (t := .groupStart ⟨breaks, other, false⟩) ⟨fits, rfl⟩ poured rests
      ((openGroup_eq fresh known).symm.trans opens)
    obtain ⟨entered, due⟩ := ih _ (by simp [Standing.after]) entered due within
    obtain ⟨fresh, scope, outer, rest, opened⟩ := closeGroup_ok closes
    obtain ⟨rfl, below⟩ := List.cons.inj (opened.symm.trans entered.scopes)
    obtain rfl : outer :: rest = scopes := below.trans poured.scopes
    exact tell_taken tellable (t := .groupEnd) trivial entered due ((closeGroup_eq fresh opened).symm.trans closes)
  | @indented delta other _ _ kin inner ih =>
    obtain ⟨same, rises, fits⟩ := kin
    cases same
    obtain ⟨more⟩ := rises
    obtain ⟨r, u, pushes, within, pops⟩ := run_around ran
    rw [transcript_around _ _ (rising_balanced inner)] at poured
    obtain ⟨fresh, least, scope, rest, opened⟩ := pushIndent_ok pushes
    obtain ⟨entered, due⟩ := tell_taken tellable (t := .indent other) fits poured rests
      ((pushIndent_eq fresh least opened).symm.trans pushes)
    obtain ⟨entered, due⟩ := ih _ (by cases s; simp_all [Standing.after, Standing.push]) entered due within
    obtain ⟨fresh, _, _, _, pushed⟩ := popIndent_ok pops
    rw [entered.scopes] at pushed
    cases pushed
    have active : tokenAt (s.after (.indent other)) .outdent = .indent (-other) := by
      obtain ⟨first, others, scopes⟩ := List.exists_cons_of_ne_nil inside
      simp [tokenAt, Standing.active, Standing.after, Standing.push, scopes]
    obtain rfl : scope :: rest = scopes := opened.symm.trans poured.scopes
    rw [active] at entered
    refine tell_taken tellable (t := .indent (-other)) ?_ entered due ?_
    · obtain ⟨_, high⟩ := fits
      exact ⟨Int.neg_le_neg (Int.le_of_lt high), by omega⟩
    · rw [Token.words, word, Int64.ofInt_neg]
      exact (popIndent_eq fresh entered.scopes).symm.trans pops

/-- Nothing is left at the end of a document. -/
theorem finish_poured (poured : TokensPoured c all scopes [] p) (ran : p.finish = .ok q) :
    ∃ last, q.page = last.words ∧ TokensWritten c (Page.ofConfig c) all last := by
  obtain ⟨fresh, closed, _⟩ := finish_ok ran
  rw [finish_eq fresh closed] at ran
  obtain ⟨r, resolved, later⟩ := bind_ok ran
  obtain ⟨s, scanned, later⟩ := bind_ok later
  obtain ⟨u, advanced, same⟩ := bind_ok later
  cases same
  obtain ⟨poured, none⟩ := resolveClosed_poured (rescope_poured poured p.scopes) resolved
  obtain ⟨poured, still, empty⟩ := resolveScan_poured _ poured scanned
  obtain ⟨poured, scan, after, rests⟩ := advance_poured tellable poured advanced
  have done : u.scan.toList = [] := by
    rw [scan, ← List.length_eq_zero_iff, length_toList]
    exact empty (Nat.le_refl _)
  have page := poured.page
  rw [rests ((idle_iff u).mpr (by rw [done, after, still, none]; rfl))] at page
  obtain ⟨written, held, last, rfl, _, same, sheet, laid, _⟩ := page
  obtain rfl := List.map_eq_nil_iff.mp same.symm
  rw [List.append_nil, List.append_nil]
  exact ⟨last, sheet, laid⟩

end Runs

/-- The columns of the texts and blanks that calls ask for under some options can be counted in words, however far
they are moved. -/
def TextsCount (o : Options Int64) (calls : Options Int → List (Call Int)) : Prop :=
  columnsOf o.numbers.config.withDefaults (transcript .initial (calls o.numbers)) ≤ limit

instance (o : Options Int64) (calls : Options Int → List (Call Int)) : Decidable (TextsCount o calls) :=
  inferInstanceAs (Decidable (_ ≤ _))

/-- What calls are written as, in one of the ways that there are, without the white space at its end. -/
def WrittenAs (o : Options Int) (calls : List (Call Int)) (out : Text) : Prop :=
  ∃ last, out = last.sink.text.trimRight ∧ TokensWritten o.config.withDefaults (Page.ofConfig o.config.withDefaults)
    (transcript .initial calls) last

section Printing

variable {o : Options Int64} {start : Printer Int} {calls : List (Call Int)} {xs : List (Call Int64)} {out : Text}
  {lines : List Text} {docs : List Yaml.Document} {problem : Option Text} {ε : Type} {d : Sql.Dialect ε}
  {message : ε → Text} {srcs : List Text}

section Words

variable (begins : Printer.ofConfig o.numbers.config = .ok start)
include begins

theorem kin_rises : OptionsAlike RisesInWords o o.numbers := by
  have spells := kin_words o
  have rises := kin_apart begins begins rfl rfl rfl
  have fits : Fits (step o.numbers) := (Exactness.withDefaults_fits (numbers_fits _).1 (numbers_fits _).2).2
  exact ⟨spells.keyword, spells.comments, ⟨spells.list, rises.list.1, fits⟩, ⟨spells.clause, rises.clause.1, fits⟩,
    ⟨spells.box, rises.box.1, fits_zero⟩, ⟨spells.indent, rises.indent.1, fits⟩⟩

/-- What is printed in words is written in order, however far it is indented, if its texts and blanks can be
counted. -/
theorem printed_in_order (twins : CallsTwinned RisesInWords xs calls)
    (light : columnsOf o.numbers.config.withDefaults (transcript .initial calls) ≤ limit)
    (printed : Printer.print o.config xs = .ok q) : WrittenAs o.numbers calls q.output.trimRight := by
  obtain ⟨margin, unit⟩ := numbers_fits o.config
  have admitted := balanced_admitted (rising_balanced twins) .initial (by simp [Standing.initial])
  have tellable : TokensTellable o.numbers.config.withDefaults (transcript .initial calls) :=
    ⟨(Exactness.withDefaults_fits margin unit).2, Indentation.admitted_counted admitted _, light,
      Indentation.admitted_nested admitted⟩
  have same := Exactness.ofConfig_words margin unit
  rw [numbers_words, ← numbers_config, begins] at same
  rw [Printer.print, same] at printed
  obtain ⟨p, ran, finished⟩ := bind_ok (x := start.words.run xs) printed
  have first : TokensPoured o.numbers.config.withDefaults (transcript .initial calls) [[]] (transcript .initial calls)
      start.words ∧ EmptyWhenIdle start.words := by
    simp only [Printer.ofConfig] at begins
    split at begins
    · cases begins
    · cases begins
      have none {P : Entry Int64 → Prop} : ∀ e ∈ ([] : List (Entry Int64)), P e := by simp
      refine ⟨⟨rfl, rfl, ⟨[], [], _, rfl, by simp, rfl, rfl, .nil (ofConfig_grounded _),
        ⟨fits_zero, List.forall_mem_singleton.mpr ⟨Int.le_refl 0, fits_zero⟩⟩, Int.le_refl 0, rfl⟩, none, .nil, .nil,
        none, Int.le_refl 0, ?_⟩, fun _ => rfl⟩
      show (0 : Int) + _ ≤ _
      omega
  obtain ⟨poured, _⟩ := run_poured tellable twins .initial (by simp [Standing.initial])
    (by rw [List.append_nil]; exact first.1) first.2 ran
  obtain ⟨last, page, laid⟩ := finish_poured tellable poured finished
  have output : q.output = last.sink.text := by
    rw [Printer.output, page]
    exact Exactness.output_words { start with page := last }
  exact ⟨last, by rw [output], laid⟩

/-- What is formatted of documents in words is written in order. -/
theorem stream_in_order (light : TextsCount o (streamCalls lines docs))
    (formatted : Yaml.formatRead o lines docs problem = .ok out) :
    WrittenAs o.numbers (streamCalls lines docs o.numbers) out := by
  obtain ⟨q, printed, rfl⟩ := stream_prints formatted
  exact printed_in_order begins (sealed_twins (documents_sealed (kin_rises begins) _ _ _ _)) light printed

/-- What is formatted of sources in words is written in order. -/
theorem format_in_order (light : TextsCount o (sourceCalls d srcs)) (formatted : d.format message o srcs = .ok out) :
    WrittenAs o.numbers (sourceCalls d srcs o.numbers) out := by
  obtain ⟨q, printed, rfl⟩ := format_prints formatted
  exact printed_in_order begins (sealed_twins (source_sealed (kin_rises begins) _)) light printed

end Words

section Numbers

variable {o : Options Int} (begins : Printer.ofConfig o.config = .ok start)
include begins

theorem printed_written {p : Printer Int} (twins : CallsTwinned BothRise calls calls)
    (printed : Printer.print o.config calls = .ok p) : WrittenAs o calls p.output.trimRight := by
  obtain ⟨q, again, written⟩ := balanced_print begins (twins_balanced twins)
  cases printed.symm.trans again
  exact ⟨_, rfl, written⟩

theorem format_written (formatted : d.format message o srcs = .ok out) : WrittenAs o (sourceCalls d srcs o) out := by
  obtain ⟨q, printed, rfl⟩ := format_prints formatted
  exact printed_written begins (sealed_twins (source_sealed (kin_apart begins begins rfl rfl rfl) _)) printed

theorem stream_written (formatted : Yaml.formatRead o lines docs problem = .ok out) :
    WrittenAs o (streamCalls lines docs o) out := by
  obtain ⟨q, printed, rfl⟩ := stream_prints formatted
  exact printed_written begins (sealed_twins (documents_sealed (kin_apart begins begins rfl rfl rfl) _ _ _ _)) printed

end Numbers

end Printing

end Galley.Layout.Wraparound
