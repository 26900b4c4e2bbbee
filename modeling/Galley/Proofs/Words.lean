import Galley.Proofs.PageWriting

/-! Columns counted in machine words. Sums and differences commute with wrapping around, whatever the
numbers are; only a comparison can tell a word from the number that it stands for. So a printer that
counts in words does what one that counts exactly does, seen in words, and only where columns are
compared they must fit into a word for that. -/
namespace Galley.Layout

/-- A number as a word. -/
abbrev word (n : Int) : Int64 := Int64.ofInt n

def Config.words (c : Config Int) : Config Int64 := ⟨word c.margin, word c.unit, c.tabs, c.ansi⟩

def Break.words (b : Break Int) : Break Int64 := ⟨b.kind, word b.blank, word b.offset, b.preBreak⟩

def Group.words (g : Group Int) : Group Int64 := ⟨g.breaks, word g.offset, g.align⟩

def Token.words : Token Int → Token Int64
  | .text s => .text s
  | .lineBreak b => .lineBreak b.words
  | .groupStart g => .groupStart g.words
  | .groupEnd => .groupEnd
  | .indent delta => .indent (word delta)
  | .missing => .missing

def Entry.words (e : Entry Int) : Entry Int64 := ⟨e.token.words, word e.size⟩

def Mark.words : Mark Int → Mark Int64
  | .text lead s => .text lead s
  | .flat blank => .flat (word blank)
  | .taken lead preBreak indent => .taken lead preBreak (word indent)
  | .start fits => .start fits
  | .stop => .stop
  | .shift delta => .shift (word delta)

def Sink.words (s : Sink Int) : Sink Int64 :=
  ⟨s.config.words, s.marks.map Mark.words, word s.space, word s.indent, word s.blank⟩

def Frame.words (f : Frame Int) : Frame Int64 := ⟨word f.indent, f.breaks, f.fits⟩

def Page.words (p : Page Int) : Page Int64 := ⟨p.sink.words, p.frames.map Frame.words⟩

/-- A queue with its elements seen in another way. -/
def Ring.map {α β : Type} (f : α → β) (r : Ring α) : Ring β :=
  ⟨r.slots.map f, r.head, r.length, r.offset, by simpa using r.length_le⟩

/-- A printer that counts exactly, seen in words. -/
def Printer.words (p : Printer Int) : Printer Int64 where
  config := p.config.words
  page := p.page.words
  buf := p.buf.map Entry.words
  scan := p.scan
  closed := p.closed
  leftTotal := word p.leftTotal
  rightTotal := word p.rightTotal
  scopes := p.scopes.map (·.map word)
  stats := p.stats
  done := p.done

def Call.words : Call Int → Call Int64
  | .text s => .text s
  | .lineBreak width offset => .lineBreak (word width) (word offset)
  | .hardBreak => .hardBreak
  | .trailingComma => .trailingComma
  | .groupStart breaks offset => .groupStart breaks (word offset)
  | .alignStart breaks => .alignStart breaks
  | .groupEnd => .groupEnd
  | .indent delta => .indent (word delta)
  | .outdent => .outdent
  | .emit t => .emit t.words
  | .eof => .eof

namespace Words
open Extent PageWriting

/-- A number that has a word of its own. -/
def Fits (n : Int) : Prop := -0x8000000000000000 ≤ n ∧ n < 0x8000000000000000

section Numbers

variable {a b : Int}

theorem word_toInt (fits : Fits a) : (word a).toInt = a := Int64.toInt_ofInt_of_le fits.1 fits.2

theorem columns_toInt (fits : Fits a) : Columns.toInt (word a) = Columns.toInt a := word_toInt fits

theorem word_lt (left : Fits a) (right : Fits b) : word a < word b ↔ a < b := by
  rw [Int64.lt_iff_toInt_lt, word_toInt left, word_toInt right]

theorem word_le (left : Fits a) (right : Fits b) : word a ≤ word b ↔ a ≤ b := by
  rw [Int64.le_iff_toInt_le, word_toInt left, word_toInt right]

theorem word_inj (left : Fits a) (right : Fits b) : word a = word b ↔ a = b := by
  rw [← Int64.toInt_inj, word_toInt left, word_toInt right]

theorem word_toNat (fits : Fits a) : Columns.toNat (word a) = Columns.toNat a :=
  congrArg Int.toNat (word_toInt fits)

theorem fits_zero : Fits 0 := by simp [Fits]

theorem word_zero : word 0 = 0 := rfl

theorem word_nonpos (fits : Fits a) : word a ≤ 0 ↔ a ≤ 0 := by
  rw [← word_zero]
  exact word_le fits fits_zero

theorem word_neg (fits : Fits a) : word a < 0 ↔ a < 0 := by
  rw [← word_zero]
  exact word_lt fits fits_zero

theorem word_pos (fits : Fits a) : 0 < word a ↔ 0 < a := by
  rw [← word_zero]
  exact word_lt fits_zero fits

end Numbers

section Results

variable {ε α β γ δ : Type}

/-- A computation seen step by step. -/
theorem bind_seen {x : Except ε α} {y : Except ε β} {seen : α → β} {final : γ → δ} {f : α → Except ε γ}
    {g : β → Except ε δ} (first : y = seen <$> x) (rest : ∀ a, x = .ok a → g (seen a) = final <$> f a) :
    y >>= g = final <$> (x >>= f) := by
  subst first
  cases x with
  | error e => rfl
  | ok a => exact rest a rfl

theorem same_seen (x : Except ε α) : x = id <$> x := (id_map x).symm

theorem ite_related {P Q : Prop} [Decidable P] [Decidable Q] {γ δ : Type} {R : γ → δ → Prop} {x x' : γ} {y y' : δ}
    (same : Q ↔ P) (yes : P → R x y) (no : ¬ P → R x' y') : R (if P then x else x') (if Q then y else y') := by
  by_cases holds : P
  · rw [if_pos holds, if_pos (same.mpr holds)]
    exact yes holds
  · rw [if_neg holds, if_neg (mt same.mp holds)]
    exact no holds

theorem ite_seen {P Q : Prop} [Decidable P] [Decidable Q] {x x' : Except ε α} {y y' : Except ε β}
    {seen : α → β} (same : Q ↔ P) (yes : P → y = seen <$> x) (no : ¬ P → y' = seen <$> x') :
    (if Q then y else y') = seen <$> (if P then x else x') :=
  ite_related (R := fun x y => y = seen <$> x) same yes no

end Results

section Queues

variable {α β : Type} (f : α → β) (r : Ring α)

theorem get_seen {i : Nat} (bound : i < (r.map f).length) : (r.map f).get i bound = f (r.get i bound) := by
  simp [Ring.get, Ring.slot, Ring.map]

theorem toList_seen : (r.map f).toList = r.toList.map f := by
  apply List.ext_getElem
  · simp [Ring.toList, Ring.map]
  · intro i left right
    simp only [Ring.toList, List.getElem_ofFn, List.getElem_map]
    exact get_seen f r _

theorem copied_seen (data : Array α) {n : Nat} (held : n ≤ (r.map f).length) (kept : n ≤ r.length) :
    (r.map f).copied (data.map f) n held = (r.copied data n kept).map f := by
  induction n with
  | zero => rfl
  | succ n ih => rw [Ring.copied_succ, Ring.copied_succ, ih, get_seen, Array.map_setIfInBounds]

theorem grow_seen (a : α) : (r.map f).grow (f a) = (r.grow a).map f := by
  have size : (r.map f).doubled = r.doubled := by simp [Ring.doubled, Ring.map]
  have slots := copied_seen f r (Array.replicate r.doubled a) (Nat.le_refl _) (Nat.le_refl _)
  rw [Array.map_replicate] at slots
  simp only [Ring.grow, size, slots]
  rfl

theorem withRoom_seen (a : α) : (r.map f).withRoom (f a) = (r.withRoom a).map f := by
  have size : (r.map f).slots.size = r.slots.size := Array.size_map
  have same : (r.map f).length = (r.map f).slots.size ↔ r.length = r.slots.size := by
    rw [size]
    exact Iff.rfl
  by_cases full : r.length = r.slots.size
  · rw [Ring.withRoom, Ring.withRoom, if_pos full, if_pos (same.mpr full), grow_seen]
  · rw [Ring.withRoom, Ring.withRoom, if_neg full, if_neg (mt same.mp full)]

theorem place_seen (a : α) (room : r.length < r.slots.size) (held : (r.map f).length < (r.map f).slots.size) :
    (r.map f).place (f a) held = (r.place a room).map f := by
  simp [Ring.place, Ring.map, Ring.slot]

theorem pushBack_seen (a : α) : (r.map f).pushBack (f a) = (r.pushBack a).map f := by
  have room := withRoom_seen f r a
  simp only [Ring.pushBack, room]
  exact place_seen f _ a _ _

theorem dropFirst_seen : (r.map f).dropFirst = r.dropFirst.map f := by
  simp [Ring.dropFirst, Ring.map]

theorem popFront_seen : (r.map f).popFront = (fun x => (f x.1, x.2.map f)) <$> r.popFront := by
  by_cases filled : 0 < r.length
  · have held : 0 < (r.map f).length := filled
    simp only [Ring.popFront, filled, held, ↓reduceDIte, get_seen, dropFirst_seen]
    rfl
  · have empty : ¬ 0 < (r.map f).length := filled
    simp only [Ring.popFront, filled, empty, ↓reduceDIte]
    rfl

theorem read_seen (pos : Int) : (r.map f).read pos = f <$> r.read pos := by
  unfold Ring.read
  have index : (r.map f).index? pos = r.index? pos := rfl
  rw [index]
  cases r.index? pos with
  | none => rfl
  | some i => exact congrArg Except.ok (get_seen f r i.isLt)

theorem write_seen (pos : Int) (a : α) : (r.map f).write pos (f a) = Ring.map f <$> r.write pos a := by
  unfold Ring.write
  have index : (r.map f).index? pos = r.index? pos := rfl
  rw [index]
  cases r.index? pos with
  | none => rfl
  | some i =>
    simp only [Functor.map, Except.map, Ring.map, Ring.slot, Array.size_map, Array.map_set]

theorem front_seen : (r.map f).front = f <$> r.front := read_seen f r r.frontPos

theorem queue_seen {x : Except Ring.Misuse α} {y : Except Ring.Misuse β} (seen : y = f <$> x) :
    queue y = f <$> queue x := by
  subst seen
  cases x <;> rfl

end Queues

/-- The columns that a token takes, and those by which it moves lines. -/
def load (c : Config Int) (t : Token Int) : Int :=
  columns c t +
    match t with
    | .lineBreak b => b.offset.natAbs
    | .groupStart g => g.offset.natAbs
    | .indent delta => delta.natAbs
    | _ => 0

/-- The columns by which a token moves lines. -/
def moves : Token Int → Int
  | .lineBreak b => b.offset
  | .groupStart g => g.offset
  | .indent delta => delta
  | _ => 0

/-- The columns that a token adds to a page at most. A break that is wider than a line is never flat, and
only lines that move to the right get wider. -/
def cost (c : Config Int) : Token Int → Int
  | .text s => c.width s
  | .lineBreak b => (if b.width ≤ c.margin then b.width else 0) + b.offset.toNat
  | .groupStart g => g.offset.toNat
  | .indent delta => delta.toNat
  | _ => 0

/-- A page on which nothing is further apart than some columns. -/
structure PageNarrow (bound : Int) (page : Page Int) : Prop where
  unit : Fits page.sink.config.unit
  margin : 0 ≤ page.sink.config.margin ∧ page.sink.config.margin ≤ bound
  space : page.sink.config.margin - bound ≤ page.sink.space ∧ page.sink.space ≤ page.sink.config.margin
  indent : 0 ≤ page.sink.indent ∧ page.sink.indent ≤ bound
  blank : 0 ≤ page.sink.blank ∧ page.sink.blank ≤ bound
  frames : ∀ f ∈ page.frames, 0 ≤ f.indent ∧ f.indent ≤ bound

/-- The columns that may add up before a word runs over. -/
def limit : Int := 0x4000000000000000

/-- The largest number that has a word. -/
def most : Int := 0x7fffffffffffffff

section Pages

variable {sink : Sink Int} {page : Page Int} {size bound : Int}

theorem fits_within {n : Int} (room : bound ≤ most) (low : -bound ≤ n) (high : n ≤ bound) : Fits n := by
  simp only [most] at room
  constructor <;> omega

/-- What is moved to the left of a word's numbers is still one of them. -/
theorem fits_moved {a b : Int} (room : bound + b.toNat ≤ most) (fits : Fits b) (low : 0 ≤ a)
    (high : a ≤ bound) : Fits (a + b) := by
  obtain ⟨least, _⟩ := fits
  simp only [most] at room
  constructor <;> omega

theorem indentation_words {c : Config Int} {n : Int} (unit : Fits c.unit) (fits : Fits n) :
    Sink.indentation c.words (word n) = Sink.indentation c n := by
  simp only [Sink.indentation, Config.words, word_nonpos fits, word_toNat fits, word_toNat unit]

theorem lead_words (unit : Fits sink.config.unit) (indent : Fits sink.indent) (blank : Fits sink.blank)
    (s : Text) : sink.words.lead s = sink.lead s := by
  simp only [Sink.lead, Sink.words, indentation_words unit indent, word_toNat blank]

/-- What is owed is settled in words where it is settled. -/
private theorem settled_words {n : Int} (fits : Fits n) :
    (if 0 < word n then 0 else word n) = word (if 0 < n then 0 else n) := by
  by_cases owed : 0 < n
  · rw [if_pos owed, if_pos ((word_pos fits).mpr owed)]
    rfl
  · rw [if_neg owed, if_neg (mt (word_pos fits).mp owed)]

theorem sink_write_words (unit : Fits sink.config.unit) (indent : Fits sink.indent) (blank : Fits sink.blank)
    (s : Text) : sink.words.write s (word size) = (sink.write s size).words := by
  have lead := lead_words unit indent blank s
  cases void : s.isEmpty with
  | true =>
    simp only [Sink.write, void, ↓reduceIte, lead]
    rfl
  | false =>
    have less := Int64.ofInt_sub sink.space size
    have first := settled_words indent
    have second := settled_words blank
    simp only [Sink.write, void, lead, Bool.false_eq_true, ↓reduceIte]
    simp only [Sink.words, Sink.mark, List.map_cons, Mark.words, Sink.mk.injEq, true_and]
    exact ⟨less.symm, first, second⟩

theorem narrow_fits (narrow : PageNarrow bound page) (room : bound ≤ most) :
    Fits page.sink.space ∧ Fits page.sink.indent ∧ Fits page.sink.blank := by
  obtain ⟨_, margin, space, indent, blank, _⟩ := narrow
  exact ⟨fits_within room (by omega) (by omega), fits_within room (by omega) (by omega),
    fits_within room (by omega) (by omega)⟩

theorem owe_words (sink : Sink Int) (n : Int) : sink.words.owe (word n) = (sink.owe n).words := by
  have more := Int64.ofInt_add sink.blank n
  have less := Int64.ofInt_sub sink.space n
  simp only [Sink.owe, Sink.words, Sink.mark, List.map_cons, Mark.words, Sink.mk.injEq, true_and]
  exact ⟨less.symm, more.symm⟩

theorem newline_words {preBreak : Text} {indent : Int} (unit : Fits sink.config.unit) (owed : Fits sink.indent)
    (blank : Fits sink.blank) (fits : Fits indent) :
    sink.words.newline preBreak (word indent) = Sink.words <$> sink.newline preBreak indent := by
  have lead := lead_words unit owed blank preBreak
  have less := Int64.ofInt_sub sink.config.margin indent
  refine ite_seen (word_neg fits) (fun _ => ?_) fun _ => ?_
  · rw [columns_toInt fits]
    rfl
  · rw [lead]
    refine congrArg Except.ok ?_
    simp only [Sink.words, Sink.mark, List.map_cons, Mark.words, Sink.mk.injEq, true_and]
    exact ⟨less.symm, rfl⟩

variable (narrow : PageNarrow bound page)
include narrow

theorem writeBreak_words {b : Break Int} (room : bound + b.offset.toNat ≤ most)
    (shift : Fits b.offset) (fits : Fits size) :
    page.words.writeBreak b.words (word size) = Page.words <$> page.writeBreak b size := by
  have within : bound ≤ most := by omega
  obtain ⟨space, owed, blank⟩ := narrow_fits narrow within
  unfold Page.writeBreak
  cases framed : page.frames with
  | nil => simp [Page.words, framed]
  | cons top rest =>
    have inside := narrow.frames top (by simp [framed])
    have flat : page.words.staysFlat top.words b.words (word size) = page.staysFlat top b size := by
      have same : word size ≤ word page.sink.space ↔ size ≤ page.sink.space := word_le fits space
      simp only [Page.staysFlat, Page.words, Sink.words, Frame.words, Break.words, same]
    have moved : top.words.indent + b.words.offset = word (top.indent + b.offset) :=
      (Int64.ofInt_add _ _).symm
    simp only [Page.words, framed, List.map_cons] at flat ⊢
    refine ite_seen (by rw [flat]) (fun _ => ?_) fun _ => ?_
    · rw [show b.words.blank = word b.blank from rfl, owe_words]
      simp [Page.words]
    · rw [moved]
      have near := fits_moved room shift inside.1 inside.2
      refine bind_seen (newline_words narrow.unit owed blank near) fun sink ran => ?_
      simp [Page.words]

theorem startGroup_words {g : Group Int} (room : bound + g.offset.toNat ≤ most)
    (shift : Fits g.offset) (fits : Fits size) :
    page.words.startGroup g.words (word size) = Page.words <$> page.startGroup g size := by
  have within : bound ≤ most := by omega
  obtain ⟨space, _, _⟩ := narrow_fits narrow within
  unfold Page.startGroup
  cases framed : page.frames with
  | nil => simp [Page.words, framed]
  | cons top rest =>
    have inside := narrow.frames top (by simp [framed])
    have reached := narrow.space
    simp only [Page.words, framed, List.map_cons]
    refine ite_seen (word_le fits space) (fun _ => ?_) fun _ => ?_
    · simp [Page.words, Frame.words, Sink.words, Sink.mark, Mark.words, Group.words]
    · have base : (if g.words.align then page.sink.words.column else top.words.indent) =
          word (if g.align then page.sink.column else top.indent) := by
        cases aligned : g.align with
        | true => simp [Group.words, aligned, Sink.column, Sink.words, Config.words]
        | false => simp [Group.words, aligned, Frame.words]
      have moved : (if g.words.align then page.sink.words.column else top.words.indent) + g.words.offset =
          word ((if g.align then page.sink.column else top.indent) + g.offset) := by
        rw [base]
        exact (Int64.ofInt_add _ _).symm
      have near : Fits ((if g.align then page.sink.column else top.indent) + g.offset) := by
        apply fits_moved room shift <;> simp only [Sink.column] <;> split <;> omega
      rw [moved]
      refine ite_seen (word_neg near) (fun _ => ?_) fun _ => ?_
      · rw [columns_toInt near]
        rfl
      · simp [Page.words, Frame.words, Sink.words, Sink.mark, Mark.words, Group.words]

/-- A token is written in words as it is written, if its size and all it moves fit into words. -/
theorem write_words {t : Token Int} (room : bound + (moves t).toNat ≤ most)
    (shift : Fits (moves t)) (fits : Fits size) :
    page.words.write t.words (word size) = Page.words <$> page.write t size := by
  have within : bound ≤ most := by omega
  obtain ⟨_, indent, blank⟩ := narrow_fits narrow within
  cases t with
  | text s =>
    simp only [Page.write, Token.words]
    rw [show page.words.sink = page.sink.words from rfl, sink_write_words narrow.unit indent blank s]
    rfl
  | lineBreak b => exact writeBreak_words narrow room shift fits
  | groupStart g => exact startGroup_words narrow room shift fits
  | groupEnd =>
    simp only [Page.write, Token.words]
    cases framed : page.frames with
    | nil => simp [Page.words, framed]
    | cons top rest => simp [Page.words, framed, Sink.words, Sink.mark, Mark.words]
  | indent delta =>
    simp only [Page.write, Token.words]
    cases framed : page.frames with
    | nil => simp [Page.words, framed]
    | cons top rest =>
      have inside := narrow.frames top (by simp [framed])
      have near : Fits (top.indent + delta) := fits_moved room shift inside.1 inside.2
      have moved : top.words.indent + word delta = word (top.indent + delta) := (Int64.ofInt_add _ _).symm
      simp only [Page.words, framed, List.map_cons, moved]
      refine ite_seen (word_neg near) (fun _ => ?_) fun _ => ?_
      · rw [columns_toInt near]
        rfl
      · simp [Page.words, Frame.words, Sink.words, Sink.mark, Mark.words]
  | missing => rfl

theorem narrow_mono {wider : Int} (le : bound ≤ wider) : PageNarrow wider page := by
  obtain ⟨unit, margin, space, indent, blank, frames⟩ := narrow
  refine ⟨unit, by omega, by omega, by omega, by omega, fun f member => ?_⟩
  have inside := frames f member
  omega

/-- Writing widens a page by no more than the token's cost. A break that is wider than a line must come
with a size that fits on none, and in no group that stays on one line. -/
theorem narrow_wrote {t : Token Int} {next : Page Int} (counted : 0 ≤ columns page.sink.config t)
    (sized : opening t = none → size = columns page.sink.config t)
    (wide : ∀ b, t = .lineBreak b → page.sink.config.margin < b.width →
      page.sink.config.margin < size ∧ ∀ f ∈ page.frames.head?, f.fits = false)
    (wrote : Wrote page t size next) : PageNarrow (bound + cost page.sink.config t) next := by
  cases wrote with
  | text s =>
    have same : size = page.sink.config.width s := sized rfl
    simp only [columns] at counted
    simp only [cost]
    obtain ⟨unit, margin, space, indent, blank, frames⟩ :=
      narrow_mono narrow (Int.le_add_of_nonneg_right counted)
    cases void : s.isEmpty with
    | true =>
      simp only [Sink.write, void, ↓reduceIte]
      exact ⟨unit, margin, space, indent, blank, frames⟩
    | false =>
      have reached := narrow.space
      simp only [Sink.write, void, Bool.false_eq_true, ↓reduceIte]
      refine ⟨unit, margin, ?_, ?_, ?_, frames⟩
      · simp only [Sink.mark]
        omega
      · dsimp only
        split <;> omega
      · dsimp only
        split <;> omega
  | @flat top rest b _ framed soft fitting =>
    have width : b.width = b.blank := by simp [Break.width, soft]
    have reached := narrow.space
    have owed := narrow.blank
    have slim : b.width ≤ page.sink.config.margin := by
      refine Int.not_lt.mp fun wider => ?_
      obtain ⟨large, bare⟩ := wide b rfl wider
      rcases fitting with fits | ⟨_, fits⟩
      · simp [bare top (by simp [framed])] at fits
      · omega
    simp only [columns, width] at counted
    rw [width] at slim
    simp only [cost, width, if_pos slim]
    have more : bound ≤ bound + (b.blank + b.offset.toNat) := by omega
    obtain ⟨unit, margin, space, indent, blank, frames⟩ := narrow_mono narrow more
    refine ⟨unit, margin, ?_, indent, ?_, frames⟩
    · simp only [Sink.owe, Sink.mark]
      omega
    · simp only [Sink.owe]
      omega
  | @taken top rest b _ framed broken indented =>
    have inside := narrow.frames top (by simp [framed])
    have more : bound + b.offset.toNat ≤ bound + cost page.sink.config (.lineBreak b) := by
      simp only [columns] at counted
      simp only [cost]
      split <;> omega
    have least : bound ≤ bound + cost page.sink.config (.lineBreak b) := by omega
    obtain ⟨unit, margin, space, indent, blank, frames⟩ := narrow_mono narrow least
    refine ⟨unit, margin, ?_, ?_, ?_, frames⟩
    · simp only [Sink.mark]
      omega
    · dsimp only
      omega
    · dsimp only
      omega
  | @fit top rest g _ framed fits =>
    have inside := narrow.frames top (by simp [framed])
    simp only [cost]
    have more : bound ≤ bound + g.offset.toNat := by omega
    obtain ⟨unit, margin, space, indent, blank, frames⟩ := narrow_mono narrow more
    refine ⟨unit, margin, space, indent, blank, List.forall_mem_cons.mpr ⟨?_, frames⟩⟩
    dsimp only
    omega
  | @split top rest g _ column framed wide placed indented =>
    have inside := narrow.frames top (by simp [framed])
    have reached := narrow.space
    simp only [cost]
    have more : bound ≤ bound + g.offset.toNat := by omega
    obtain ⟨unit, margin, space, indent, blank, frames⟩ := narrow_mono narrow more
    refine ⟨unit, margin, space, indent, blank, List.forall_mem_cons.mpr ⟨?_, frames⟩⟩
    simp only [Sink.column] at placed
    dsimp only
    split at placed <;> omega
  | @stop top rest _ framed =>
    simp only [cost, Int.add_zero]
    refine ⟨narrow.unit, narrow.margin, narrow.space, narrow.indent, narrow.blank, fun f member => ?_⟩
    exact narrow.frames f (by simp [framed, member])
  | @shift top rest delta _ framed indented =>
    have inside := narrow.frames top (by simp [framed])
    simp only [cost]
    have more : bound ≤ bound + delta.toNat := by omega
    obtain ⟨unit, margin, space, indent, blank, frames⟩ := narrow_mono narrow more
    refine ⟨unit, margin, space, indent, blank, List.forall_mem_cons.mpr ⟨?_, fun f member => ?_⟩⟩
    · dsimp only
      omega
    · exact frames f (by simp [framed, member])
  | missing =>
    simp only [cost, Int.add_zero]
    exact narrow

end Pages

section Printers

variable (p : Printer Int)

theorem width_words (c : Config Int) (s : Text) : c.words.width s = word (c.width s) :=
  Int64.ofInt_eq_ofNat.symm

theorem breakWidth_words (b : Break Int) : b.words.width = word b.width := by
  unfold Break.width
  by_cases hard : b.kind = .hard
  · rw [if_pos hard, if_pos (show b.words.kind = .hard from hard)]
    exact Int64.ofInt_eq_ofNat.symm
  · rw [if_neg hard, if_neg (show ¬ b.words.kind = .hard from hard)]
    rfl

theorem push_words (t : Token Int) (size : Int) :
    p.words.push ⟨t.words, word size⟩ = (p.push ⟨t, size⟩).words := by
  have pushed := pushBack_seen Entry.words p.buf ⟨t, size⟩
  simp only [Printer.push, Printer.words]
  rw [show (⟨t.words, word size⟩ : Entry Int64) = Entry.words ⟨t, size⟩ from rfl, pushed]
  rfl

theorem pushPending_words (t : Token Int) : p.words.pushPending t.words = (p.pushPending t).words := by
  have total : -p.words.rightTotal = word (-p.rightTotal) := (Int64.ofInt_neg _).symm
  rw [Printer.pushPending, total, push_words]
  rfl

theorem flatWidth_words (e : Entry Int) : e.words.flatWidth = word e.flatWidth := by
  obtain ⟨t, size⟩ := e
  cases t with
  | lineBreak b =>
    simp only [Entry.flatWidth, Entry.words, Token.words]
    exact breakWidth_words b
  | _ => rfl

theorem scanStart_words (g : Group Int) : p.words.scanStart g.words = (p.scanStart g).words := by
  have idle : p.words.idle = p.idle := rfl
  simp only [Printer.scanStart, idle]
  cases p.idle with
  | true => exact pushPending_words p.restart (.groupStart g)
  | false => exact pushPending_words p (.groupStart g)

theorem resolve_words (pos : Int) : p.words.resolve pos = Printer.words <$> p.resolve pos := by
  refine bind_seen (queue_seen _ (read_seen Entry.words p.buf pos)) fun e _ => ?_
  have sum : word e.size + word p.rightTotal = word (e.size + p.rightTotal) := (Int64.ofInt_add _ _).symm
  have stored := write_seen Entry.words p.buf pos { e with size := e.size + p.rightTotal }
  simp only [Entry.words, ← sum] at stored
  exact bind_seen (queue_seen _ stored) fun buf _ => rfl

theorem resolveAll_words (positions : List Int) :
    positions.foldlM Printer.resolve p.words = Printer.words <$> positions.foldlM Printer.resolve p := by
  induction positions generalizing p with
  | nil => rfl
  | cons pos positions ih =>
    simp only [List.foldlM_cons]
    exact bind_seen (resolve_words p pos) fun q _ => ih q

theorem resolveClosed_words : p.words.resolveClosed = Printer.words <$> p.resolveClosed :=
  bind_seen (resolveAll_words p p.closed) fun _ _ => rfl

theorem resolveScan_words (fuel : Nat) :
    Printer.resolveScan fuel p.words = Printer.words <$> Printer.resolveScan fuel p := by
  induction fuel generalizing p with
  | zero => rfl
  | succ fuel ih =>
    refine ite_seen Iff.rfl (fun _ => rfl) fun _ => ?_
    refine bind_seen (same_seen (queue p.scan.popBack)) fun last _ => ?_
    exact bind_seen (resolve_words { p with scan := last.2 } last.1) fun q _ => ih q

theorem isBreak_words (t : Token Int) : Printer.isBreak t.words = Printer.isBreak t := by
  cases t <;> rfl

theorem isGroupStart_words (t : Token Int) : Printer.isGroupStart t.words = Printer.isGroupStart t := by
  cases t <;> rfl

theorem pendingIs_words {test : Token Int → Bool} {also : Token Int64 → Bool}
    (blind : ∀ t : Token Int, also t.words = test t) : p.words.pendingIs also = p.pendingIs test := by
  rw [← id_map (p.pendingIs test)]
  refine ite_seen Iff.rfl (fun _ => rfl) fun _ => ?_
  refine bind_seen (same_seen (queue p.scan.back)) fun pos _ => ?_
  refine bind_seen (queue_seen _ (read_seen Entry.words p.buf pos)) fun e _ => ?_
  exact congrArg Except.ok (blind e.token)

theorem resolveLast_words : p.words.resolveLast = Printer.words <$> p.resolveLast := by
  refine ite_seen Iff.rfl (fun _ => rfl) fun _ => ?_
  have pending := pendingIs_words p isBreak_words
  refine bind_seen (pending.trans (same_seen _)) fun last _ => ?_
  refine ite_seen Iff.rfl (fun _ => ?_) fun _ => rfl
  refine bind_seen (same_seen (queue p.scan.popBack)) fun top _ => ?_
  exact resolve_words { p with scan := top.2 } top.1

theorem count_words : p.words.count = Printer.words <$> p.count :=
  ite_seen Iff.rfl (fun _ => rfl) fun _ => rfl

end Printers

end Words

end Galley.Layout
