import Galley.Proofs.Glyphs
import Galley.Proofs.Reformatting

/-! The blanks of JSON values that are laid out. A document whose breaks write no text of their own is
written as its words, with blanks before, between and after them. Deleting the blanks outside string
literals leaves the words of a value without anything between them, which is the value in its compact
form. -/
namespace Galley.Layout.Spacing
open PageWriting Rendering TextOrder
open Twinning (BreaksUnmarked)
open Json (stringText)

/-- A space, a tab or a newline. -/
def isBlank (b : UInt8) : Bool := b == 0x20 || b == 0x09 || b == 0x0a

/-- Words in order and whole, with blanks before, between and after them. -/
inductive WordsSpaced : List Text → Text → Prop where
  | nil : WordsSpaced [] []
  | blank {ws : List Text} {t : Text} {b : UInt8} (blank : isBlank b = true) (rest : WordsSpaced ws t) :
      WordsSpaced ws (b :: t)
  | word {ws : List Text} {t : Text} (w : Text) (rest : WordsSpaced ws t) : WordsSpaced (w :: ws) (w ++ t)

section Words

variable {ws : List Text} {t u v w lead : Text}

theorem spaced_blanks (blank : ∀ b ∈ lead, isBlank b = true) (rest : WordsSpaced ws t) :
    WordsSpaced ws (lead ++ t) := by
  induction lead with
  | nil => exact rest
  | cons b lead ih =>
    exact .blank (blank b List.mem_cons_self) (ih fun x member => blank x (List.mem_cons_of_mem b member))

theorem spaced_nil (spaced : WordsSpaced [] t) : ∀ b ∈ t, isBlank b = true := by
  generalize none : ([] : List Text) = ws at spaced
  induction spaced with
  | nil => simp
  | blank blank _ ih => simpa [blank] using ih none
  | word => cases none

/-- The first word stands after some blanks. -/
theorem spaced_cons (spaced : WordsSpaced (w :: ws) t) :
    ∃ lead rest, t = lead ++ (w ++ rest) ∧ (∀ b ∈ lead, isBlank b = true) ∧ WordsSpaced ws rest := by
  generalize all : w :: ws = words at spaced
  induction spaced with
  | nil => cases all
  | blank blank _ ih =>
    obtain ⟨lead, rest, rfl, blanks, later⟩ := ih all
    exact ⟨_ :: lead, rest, rfl, by simpa [blank] using blanks, later⟩
  | word _ rest =>
    cases all
    exact ⟨[], _, rfl, by simp, rest⟩

/-- A word may be read as two, with nothing between them. -/
theorem spaced_split (spaced : WordsSpaced ((u ++ v) :: ws) t) : WordsSpaced (u :: v :: ws) t := by
  obtain ⟨lead, rest, rfl, blanks, later⟩ := spaced_cons spaced
  rw [List.append_assoc]
  exact spaced_blanks blanks (.word u (.word v later))

end Words

section Layout

/-- The texts of tokens. -/
def words : List (Token Int) → List Text
  | [] => []
  | .text s :: ts => s :: words ts
  | _ :: ts => words ts

theorem words_append (ts us : List (Token Int)) : words (ts ++ us) = words ts ++ words us := by
  induction ts with
  | nil => rfl
  | cons t ts ih => cases t <;> simp [words, ih]

theorem lead_isBlank {sink : Sink Int} {s : Text} {b : UInt8} (member : b ∈ sink.lead s) : isBlank b = true := by
  rcases lead_blank member with rfl | rfl <;> rfl

/-- A token leaves its text, if it has one, and blanks. -/
theorem wrote_spaced {page next : Page Int} {t : Token Int} {ts : List (Token Int)} {size : Int} {rest : Text}
    (unmarked : BreaksUnmarked [t]) (wrote : Wrote page t size next) (spaced : WordsSpaced (words ts) rest) :
    ∃ more, next.sink.text ++ rest = page.sink.text ++ more ∧ WordsSpaced (words (t :: ts)) more := by
  have quiet {m : Mark Int} (silent : m.spelling = []) :
      (page.sink.mark m).text ++ rest = page.sink.text ++ rest := by
    rw [text_mark, silent, List.append_nil]
  cases wrote with
  | text s =>
    refine ⟨page.sink.lead s ++ (s ++ rest), ?_, spaced_blanks (fun _ => lead_isBlank) (.word s spaced)⟩
    simp only [text_write, List.append_assoc]
  | flat => exact ⟨rest, by simp [Sink.owe, Sink.text, Mark.spelling], spaced⟩
  | @taken top _ b _ =>
    -- Nothing is owed before a newline but to the text of the break, and it has none.
    have none : b.preBreak = [] := unmarked b List.mem_cons_self
    refine ⟨page.sink.lead b.preBreak ++ 0x0a :: rest, ?_, spaced_blanks (fun _ => lead_isBlank) (.blank rfl spaced)⟩
    have spelt : (page.sink.mark (.taken (page.sink.lead b.preBreak) b.preBreak (top.indent + b.offset))).text =
        page.sink.text ++ (page.sink.lead b.preBreak ++ b.preBreak ++ [0x0a]) := text_mark _ _
    show (page.sink.mark _).text ++ rest = _
    rw [spelt, none]
    simp
  | fit | split | stop | shift => exact ⟨rest, quiet rfl, spaced⟩
  | missing => exact ⟨rest, rfl, spaced⟩

/-- What is laid out is the words of the tokens, with blanks around them. -/
theorem lays_spaced {c : Config Int} {page last : Page Int} {ts : List (Token Int)} (lays : TokensLaid c page ts last)
    (unmarked : BreaksUnmarked ts) : ∃ out, last.sink.text = page.sink.text ++ out ∧ WordsSpaced (words ts) out := by
  induction ts generalizing page with
  | nil =>
    cases lays.laid
    exact ⟨[], (List.append_nil _).symm, .nil⟩
  | cons t ts ih =>
    obtain ⟨next, wrote, later⟩ := lays_cons lays
    obtain ⟨out, written, spaced⟩ := ih later fun b member => unmarked b (List.mem_cons_of_mem t member)
    have first : BreaksUnmarked [t] := fun b member => by
      obtain rfl := List.mem_singleton.mp member
      exact unmarked b List.mem_cons_self
    obtain ⟨more, same, all⟩ := wrote_spaced first wrote spaced
    exact ⟨more, written.trans same, all⟩

end Layout

section Values

/-- Lists of words with a word between neighbours. -/
def joined (sep : Text) : List (List Text) → List Text
  | [] => []
  | [ws] => ws
  | ws :: rest => ws ++ sep :: joined sep rest

/-- Words between brackets, or the brackets alone. -/
def enclosed (left : Text) (items : List (List Text)) (right : Text) : List Text :=
  if items.isEmpty then [left ++ right] else left :: joined [0x2c] items ++ [right]

mutual

/-- The words of a value. -/
def valueWords : Json → List Text
  | .object members => enclosed [0x7b] (memberWords members) [0x7d]
  | .array elements => enclosed [0x5b] (elementWords elements) [0x5d]
  | v => [v.leafText]

/-- The words of the elements of an array. -/
def elementWords : List Json → List (List Text)
  | [] => []
  | v :: rest => valueWords v :: elementWords rest

/-- The words of the members of an object. -/
def memberWords : List (Text × Json) → List (List Text)
  | [] => []
  | (name, v) :: rest => ((stringText name ++ [0x3a]) :: valueWords v) :: memberWords rest

end

open Documents (tokens)

variable {unit : Int}

theorem words_doc_append (a b : Doc Int) :
    words (tokens unit (a.append b)) = words (tokens unit a) ++ words (tokens unit b) := by
  cases a with
  | nil => rfl
  | _ =>
    cases b with
    | nil => exact (List.append_nil _).symm
    | _ => exact words_append _ _

theorem words_doc_nest (amount : Int) (levels : Bool) (d : Doc Int) :
    words (tokens unit (.nest amount levels d)) = words (tokens unit d) := by
  show words (_ ++ [_]) = _
  rw [words_append]
  exact List.append_nil _

theorem words_doc_group (breaks : Breaks) (align : Bool) (d : Doc Int) :
    words (tokens unit (.group breaks align d)) = words (tokens unit d) := by
  show words (_ ++ [_]) = _
  rw [words_append]
  exact List.append_nil _

theorem words_doc_join (sep : Text) (ds : List (Doc Int)) :
    words (tokens unit (Doc.join sep ds)) = joined sep (ds.map fun d => words (tokens unit d)) := by
  induction ds with
  | nil => rfl
  | cons d ds ih =>
    cases ds with
    | nil => rfl
    | cons e ds =>
      rw [Doc.join, Doc.appendLine, words_doc_append, words_doc_append, words_doc_append, ih, List.append_assoc]
      · rfl
      · simp

theorem words_doc_bracketed (left right : Text) (ds : List (Doc Int)) :
    words (tokens unit (Json.bracketed left ds right)) =
      enclosed left (ds.map fun d => words (tokens unit d)) right := by
  cases ds with
  | nil => rfl
  | cons d ds =>
    rw [Json.bracketed, if_neg (by simp), Doc.bracket, Doc.grouped, words_doc_group, Doc.fold, Doc.fold, Doc.fold,
      Doc.fold, words_doc_append, words_doc_append, words_doc_append, Doc.nestLevel, words_doc_nest,
      words_doc_append, words_doc_join, enclosed, if_neg (by simp)]
    · rfl
    all_goals simp

mutual

theorem words_value : ∀ v : Json, words (tokens unit v.doc) = valueWords v
  | .object members => by
    rw [Json.doc, Json.shape, Json.Shape.doc, valueWords, words_doc_bracketed, words_members]
  | .array [] => rfl
  | .array (v :: rest) => by
    rw [Json.doc, Json.shape, Json.Shape.doc, valueWords, words_doc_bracketed, words_elements]
  | .null => rfl
  | .bool _ => rfl
  | .number _ => rfl
  | .string _ => rfl

theorem words_elements : ∀ vs : List Json,
    (Json.Shape.elementDocs (Json.elementShapes vs)).map (fun d => words (tokens unit d)) = elementWords vs
  | [] => rfl
  | v :: rest => by
    rw [Json.elementShapes, Json.Shape.elementDocs, elementWords, List.map_cons, ← Json.doc, words_value v,
      words_elements rest]

theorem words_members : ∀ ms : List (Text × Json),
    (Json.Shape.memberDocs (Json.memberShapes ms)).map (fun d => words (tokens unit d)) = memberWords ms
  | [] => rfl
  | (name, v) :: rest => by
    rw [Json.memberShapes, Json.Shape.memberDocs, memberWords, List.map_cons, words_members rest, Doc.nestUnder,
      Doc.grouped, words_doc_group, words_doc_append, Doc.nestLevel, words_doc_nest, words_doc_append, ← Json.doc,
      words_value v]
    rfl

end

open FrontEnds in
theorem parallel_unmarked {κ : Type} [Columns κ] {d : Doc Int} {e : Doc κ} (parallel : CallsParallel d e) :
    BreaksUnmarked (tokens unit d) := by
  have quiet {t : Token Int} (silent : ∀ b, t = .lineBreak b → b.preBreak = []) : BreaksUnmarked [t] :=
    fun b member => silent b (List.mem_singleton.mp member).symm
  induction parallel with
  | nil => exact fun b member => by cases member
  | text s => exact quiet fun b same => by cases same
  | line | softBreak => exact quiet fun b same => by cases same; rfl
  | nest _ inner =>
    exact Twinning.unmarked_append (Twinning.unmarked_append (quiet fun b same => by cases same) inner)
      (quiet fun b same => by cases same)
  | group _ inner =>
    exact Twinning.unmarked_append (Twinning.unmarked_append (quiet fun b same => by cases same) inner)
      (quiet fun b same => by cases same)
  | concat _ _ first second => exact Twinning.unmarked_append first second

/-- A value is laid out as its words, under every configuration that is accepted. -/
theorem value_spaced {c : Config Int} {start : Printer Int} (accepted : Printer.ofConfig c = .ok start) (v : Json) :
    ∃ out, (v.doc : Doc Int).render c = .ok out ∧ WordsSpaced (valueWords v) out := by
  have parallel : FrontEnds.CallsParallel (v.doc : Doc Int) (v.doc : Doc Int) := FrontEnds.shape_parallel v.shape
  obtain ⟨page, lays, rendered⟩ := Documents.render_lays accepted (FrontEnds.parallel_sound parallel)
  obtain ⟨out, written, spaced⟩ := lays_spaced lays (parallel_unmarked parallel)
  rw [words_value] at spaced
  exact ⟨out, rendered.trans (congrArg Except.ok written), spaced⟩

end Values

section Blanks

/-- Where a byte of a JSON text stands: outside string literals, inside one, or inside after a backslash. -/
inductive Spot where
  | outside
  | inside
  | escaped

/-- Where the next byte stands. -/
def Spot.next : Spot → UInt8 → Spot
  | .outside, b => if b = 0x22 then .inside else .outside
  | .inside, b => if b = 0x22 then .outside else if b = 0x5c then .escaped else .inside
  | .escaped, _ => .inside

/-- The text from a spot on, without the blanks outside string literals. -/
def squeezeFrom : Spot → Text → Text
  | _, [] => []
  | .outside, b :: t => if isBlank b then squeezeFrom .outside t else b :: squeezeFrom (Spot.next .outside b) t
  | spot, b :: t => b :: squeezeFrom (spot.next b) t

/-- A text without the blanks outside string literals. -/
def squeeze (t : Text) : Text := squeezeFrom .outside t

/-- Whatever follows it, a text from one spot to another is kept whole. -/
def TextPasses (spot next : Spot) (t : Text) : Prop := ∀ rest, squeezeFrom spot (t ++ rest) = t ++ squeezeFrom next rest

variable {spot next last : Spot} {t u : Text}

theorem passes_append (first : TextPasses spot next t) (second : TextPasses next last u) :
    TextPasses spot last (t ++ u) := by
  intro rest
  rw [List.append_assoc, first, second, List.append_assoc]

/-- Bytes that are neither blanks nor quotes are kept outside string literals. -/
theorem passes_outside (plain : t.all (fun b => !isBlank b && b != 0x22) = true) : TextPasses .outside .outside t := by
  induction t with
  | nil => exact fun rest => rfl
  | cons b t ih =>
    intro rest
    simp only [List.all_cons, Bool.and_eq_true, Bool.not_eq_true', bne_iff_ne] at plain
    obtain ⟨⟨shown, other⟩, more⟩ := plain
    have later := ih (by simpa using more) rest
    simp [squeezeFrom, shown, Spot.next, other, later]

/-- Bytes that are neither quotes nor backslashes are kept inside string literals. -/
theorem passes_inside (plain : t.all (fun b => b != 0x22 && b != 0x5c) = true) : TextPasses .inside .inside t := by
  induction t with
  | nil => exact fun rest => rfl
  | cons b t ih =>
    intro rest
    simp only [List.all_cons, Bool.and_eq_true, bne_iff_ne] at plain
    obtain ⟨⟨quote, backslash⟩, more⟩ := plain
    have later := ih (by simpa using more) rest
    simp [squeezeFrom, Spot.next, quote, backslash, later]

/-- An escape is kept, whichever byte is escaped. -/
theorem passes_escape (b : UInt8) : TextPasses .inside .inside [0x5c, b] := by
  intro rest
  simp [squeezeFrom, Spot.next]

/-- Words that are kept whole are all that is left. -/
theorem squeeze_spaced {ws : List Text} (whole : ∀ w ∈ ws, TextPasses .outside .outside w) (spaced : WordsSpaced ws t) :
    squeeze t = ws.flatten := by
  induction spaced with
  | nil => rfl
  | blank blank _ ih =>
    rw [squeeze, squeezeFrom, if_pos blank]
    exact ih whole
  | word w _ ih =>
    rw [squeeze, whole w List.mem_cons_self, List.flatten_cons]
    exact congrArg (w ++ ·) (ih fun u member => whole u (List.mem_cons_of_mem w member))

end Blanks

section Leaves

open Text (Glyph)

/-- A character inside a string literal is spelt without an open quote. -/
theorem glyph_passes {s : Text} {g : Glyph} (member : g ∈ s.glyphs) :
    TextPasses .inside .inside (Json.stringGlyph g) := by
  have hexes : ∀ n < 0x20, (Text.hex 4 n).all (fun b => b != 0x22 && b != 0x5c) = true := by decide +kernel
  unfold Json.stringGlyph
  split
  · have spelt : ("\\ufffd" : Text) = [0x5c, 0x75] ++ [0x66, 0x66, 0x66, 0x64] := by decide +kernel
    rw [spelt]
    exact passes_append (passes_escape 0x75) (passes_inside rfl)
  rename_i formed
  split
  · exact passes_escape 0x22
  rename_i quote
  split
  · exact passes_escape 0x5c
  rename_i backslash
  split
  · exact passes_escape 0x6e
  split
  · exact passes_escape 0x72
  split
  · exact passes_escape 0x74
  split
  · rename_i small
    exact passes_append (passes_escape 0x75) (passes_inside (hexes g.code small))
  · -- A quote or a backslash among the bytes would be the character itself.
    have other {x : UInt8} (among : x ∈ g.bytes) (ascii : x.toNat < 0x80) : g.code = x.toNat := by
      obtain ⟨b, tail, bytes, read⟩ := Text.Glyphs.glyph_cases member
      rw [bytes] at among
      rcases read with sequence | ⟨replaced, rfl⟩
      · exact Text.Glyphs.sequence_byte sequence among ascii
      · exact absurd (show g.malformed = true by simp [Glyph.malformed, replaced, bytes]) formed
    refine passes_inside (List.all_eq_true.mpr fun b among => ?_)
    rw [Bool.and_eq_true, bne_iff_ne, bne_iff_ne]
    constructor
    · rintro rfl
      exact quote (beq_iff_eq.mpr (other among (by decide)))
    · rintro rfl
      exact backslash (beq_iff_eq.mpr (other among (by decide)))

theorem string_passes (s : Text) : TextPasses .outside .outside (stringText s) := by
  have quote (rest : Text) : squeezeFrom .outside (0x22 :: rest) = 0x22 :: squeezeFrom .inside rest := rfl
  have unquote : TextPasses .inside .outside [0x22] := fun rest => rfl
  have inner (gs : List Glyph) (among : ∀ g ∈ gs, g ∈ s.glyphs) :
      TextPasses .inside .inside (gs.flatMap Json.stringGlyph) := by
    induction gs with
    | nil => exact fun rest => rfl
    | cons g gs ih =>
      rw [List.flatMap_cons]
      exact passes_append (glyph_passes (among g List.mem_cons_self))
        (ih fun x member => among x (List.mem_cons_of_mem g member))
  exact passes_append (passes_append (t := [0x22]) quote (inner s.glyphs fun _ member => member)) unquote

/-- A byte of a number: a digit, a sign, a point or the mark of an exponent. -/
def isNumeric (b : UInt8) : Bool := (0x30 ≤ b && b ≤ 0x39) || b == 0x2d || b == 0x2b || b == 0x2e || b == 0x45

theorem digit_numeric {c : Char} {b : UInt8} (digit : c.isDigit = true) (spelt : b ∈ String.utf8EncodeChar c) :
    isNumeric b = true := by
  simp only [Char.isDigit, Bool.and_eq_true, decide_eq_true_eq] at digit
  have single : c.utf8Size = 1 := by
    rw [Char.utf8Size_eq_one_iff]
    exact UInt32.le_trans digit.2 (by decide)
  rw [String.utf8EncodeChar_eq_singleton single, List.mem_singleton] at spelt
  have least : '0'.val.toNat ≤ c.val.toNat := digit.1
  have greatest : c.val.toNat ≤ '9'.val.toNat := digit.2
  have bounds : '0'.val.toNat = 0x30 ∧ '9'.val.toNat = 0x39 := by decide
  have same : b.toNat = c.val.toNat := by
    rw [spelt, UInt32.toNat_toUInt8]
    omega
  have low : 0x30 ≤ b := by
    show 0x30 ≤ b.toNat
    omega
  have high : b ≤ 0x39 := by
    show b.toNat ≤ 0x39
    omega
  simp [isNumeric, low, high]

theorem ofNat_numeric (n : Nat) : ∀ b ∈ Text.ofNat n, isNumeric b = true := by
  intro b member
  have encoded : Text.ofNat n = (Nat.toDigits 10 n).flatMap String.utf8EncodeChar := by
    rw [Text.ofNat, Text.ofString, Nat.repr, String.toUTF8, String.toByteArray_ofList, List.utf8Encode]
    simp
  rw [encoded] at member
  obtain ⟨c, digit, spelt⟩ := List.mem_flatMap.mp member
  exact digit_numeric (Nat.isDigit_of_mem_toDigits (by decide) (by decide) digit) spelt

theorem ofIntSigned_numeric (n : Int) : ∀ b ∈ Text.ofIntSigned n, isNumeric b = true := by
  have plain (n : Int) : ∀ b ∈ Text.ofInt n, isNumeric b = true := by
    cases n with
    | ofNat m => exact ofNat_numeric m
    | negSucc m =>
      have signed : Text.ofInt (Int.negSucc m) = 0x2d :: Text.ofNat m.succ := by
        rw [Text.ofInt, Int.repr, Text.ofString, String.toUTF8, String.toByteArray_append]
        simp [Text.ofNat, Text.ofString]
        rfl
      rw [signed]
      exact List.forall_mem_cons.mpr ⟨rfl, ofNat_numeric m.succ⟩
  unfold Text.ofIntSigned
  split
  · exact plain n
  · exact List.forall_mem_cons.mpr ⟨rfl, plain n⟩

theorem decimal_numeric (d : Json.Decimal) : ∀ b ∈ d.toText, isNumeric b = true := by
  have digits : ∀ b ∈ d.digits, isNumeric b = true := ofNat_numeric d.coefficient
  have sign : ∀ b ∈ (if d.negative then ("-" : Text) else []), isNumeric b = true := by
    rw [← List.all_eq_true]
    cases d.negative <;> rfl
  have zeros (n : Nat) : ∀ b ∈ List.replicate n 0x30 ++ d.digits, isNumeric b = true :=
    List.forall_mem_append.mpr ⟨fun b zero => List.eq_of_mem_replicate zero ▸ rfl, digits⟩
  unfold Json.Decimal.toText
  dsimp only
  generalize (if d.negative then ("-" : Text) else []) = lead at sign ⊢
  split
  · split
    · exact List.forall_mem_append.mpr ⟨sign, digits⟩
    · refine List.forall_mem_append.mpr ⟨List.forall_mem_append.mpr ⟨sign, fun b member => ?_⟩, ?_⟩
      · exact zeros _ b (List.mem_of_mem_take member)
      · exact List.forall_mem_cons.mpr ⟨rfl, fun b member => zeros _ b (List.mem_of_mem_drop member)⟩
  · have fraction : ∀ b ∈ (if d.digits.length = 1 then [] else 0x2e :: d.digits.drop 1), isNumeric b = true := by
      split
      · simp
      · exact List.forall_mem_cons.mpr ⟨rfl, fun b member => digits b (List.mem_of_mem_drop member)⟩
    have whole : ∀ b ∈ d.digits.take 1, isNumeric b = true := fun b member => digits b (List.mem_of_mem_take member)
    exact List.forall_mem_append.mpr ⟨List.forall_mem_append.mpr ⟨List.forall_mem_append.mpr ⟨sign, whole⟩, fraction⟩,
      List.forall_mem_cons.mpr ⟨rfl, ofIntSigned_numeric _⟩⟩

theorem numeric_shown {b : UInt8} (numeric : isNumeric b = true) : (!isBlank b && b != 0x22) = true := by
  have other {x : UInt8} (off : isNumeric x = false) : b ≠ x := by
    rintro rfl
    rw [off] at numeric
    cases numeric
  simp [isBlank, other (x := 0x20) rfl, other (x := 0x09) rfl, other (x := 0x0a) rfl, other (x := 0x22) rfl]

/-- The words of a value are kept whole. -/
theorem leaf_passes (v : Json) : TextPasses .outside .outside v.leafText := by
  cases v with
  | null => exact passes_outside rfl
  | bool b => cases b <;> exact passes_outside rfl
  | number d => exact passes_outside (List.all_eq_true.mpr fun b member => numeric_shown (decimal_numeric d b member))
  | string s => exact string_passes s
  | array _ => exact passes_outside (t := "[]") rfl
  | object _ => exact passes_outside (t := "\x7b\x7d") rfl

theorem joined_forall {P : Text → Prop} {sep : Text} {items : List (List Text)} (between : P sep)
    (each : ∀ ws ∈ items, ∀ w ∈ ws, P w) : ∀ w ∈ joined sep items, P w := by
  induction items with
  | nil => simp [joined]
  | cons ws items ih =>
    have first := each ws List.mem_cons_self
    have later := ih fun us member => each us (List.mem_cons_of_mem ws member)
    cases items with
    | nil => exact first
    | cons us items => exact List.forall_mem_append.mpr ⟨first, List.forall_mem_cons.mpr ⟨between, later⟩⟩

theorem enclosed_passes {left right : Text} {items : List (List Text)} (opens : TextPasses .outside .outside left)
    (closes : TextPasses .outside .outside right) (each : ∀ ws ∈ items, ∀ w ∈ ws, TextPasses .outside .outside w) :
    ∀ w ∈ enclosed left items right, TextPasses .outside .outside w := by
  unfold enclosed
  split
  · exact List.forall_mem_singleton.mpr (passes_append opens closes)
  · have inner : ∀ w ∈ joined [0x2c] items, TextPasses .outside .outside w :=
      joined_forall (passes_outside rfl) each
    exact List.forall_mem_append.mpr ⟨List.forall_mem_cons.mpr ⟨opens, inner⟩, List.forall_mem_singleton.mpr closes⟩

mutual

theorem value_passes : ∀ v : Json, ∀ w ∈ valueWords v, TextPasses .outside .outside w
  | .object members => by
    rw [valueWords]
    exact enclosed_passes (passes_outside rfl) (passes_outside rfl) (members_pass members)
  | .array elements => by
    rw [valueWords]
    exact enclosed_passes (passes_outside rfl) (passes_outside rfl) (elements_pass elements)
  | .null => List.forall_mem_singleton.mpr (leaf_passes _)
  | .bool _ => List.forall_mem_singleton.mpr (leaf_passes _)
  | .number _ => List.forall_mem_singleton.mpr (leaf_passes _)
  | .string _ => List.forall_mem_singleton.mpr (leaf_passes _)

theorem elements_pass : ∀ vs : List Json, ∀ ws ∈ elementWords vs, ∀ w ∈ ws, TextPasses .outside .outside w
  | [] => by simp [elementWords]
  | v :: rest => by
    rw [elementWords]
    exact List.forall_mem_cons.mpr ⟨value_passes v, elements_pass rest⟩

theorem members_pass : ∀ ms : List (Text × Json), ∀ ws ∈ memberWords ms, ∀ w ∈ ws, TextPasses .outside .outside w
  | [] => by simp [memberWords]
  | (name, v) :: rest => by
    rw [memberWords]
    have named := passes_append (string_passes name) (passes_outside (t := [0x3a]) rfl)
    exact List.forall_mem_cons.mpr ⟨List.forall_mem_cons.mpr ⟨named, value_passes v⟩, members_pass rest⟩

end

end Leaves

section Compact

mutual

/-- A value without any blanks: its parts between brackets, with commas between them. -/
def compact : Json → Text
  | .object members => [0x7b] ++ Text.join [0x2c] (compactMembers members) ++ [0x7d]
  | .array elements => [0x5b] ++ Text.join [0x2c] (compactElements elements) ++ [0x5d]
  | v => v.leafText

/-- The elements of an array without any blanks. -/
def compactElements : List Json → List Text
  | [] => []
  | v :: rest => compact v :: compactElements rest

/-- The members of an object without any blanks: a name, a colon and a value each. -/
def compactMembers : List (Text × Json) → List Text
  | [] => []
  | (name, v) :: rest => (stringText name ++ [0x3a] ++ compact v) :: compactMembers rest

end

theorem joined_flatten (sep : Text) (items : List (List Text)) :
    (joined sep items).flatten = Text.join sep (items.map List.flatten) := by
  induction items with
  | nil => rfl
  | cons ws items ih =>
    cases items with
    | nil => rfl
    | cons us items =>
      rw [joined, List.flatten_append, List.flatten_cons, ih]
      · simp [Text.join]
      · simp

theorem enclosed_flatten (left right : Text) (items : List (List Text)) :
    (enclosed left items right).flatten = left ++ Text.join [0x2c] (items.map List.flatten) ++ right := by
  unfold enclosed
  cases items with
  | nil => simp [Text.join]
  | cons ws items =>
    rw [if_neg (by simp), List.flatten_append, List.flatten_cons, joined_flatten]
    simp

mutual

theorem value_flatten : ∀ v : Json, (valueWords v).flatten = compact v
  | .object members => by
    rw [valueWords, compact, enclosed_flatten, members_flatten]
  | .array elements => by
    rw [valueWords, compact, enclosed_flatten, elements_flatten]
  | .null => List.append_nil _
  | .bool _ => List.append_nil _
  | .number _ => List.append_nil _
  | .string _ => List.append_nil _

theorem elements_flatten : ∀ vs : List Json, (elementWords vs).map List.flatten = compactElements vs
  | [] => rfl
  | v :: rest => by
    rw [elementWords, compactElements, List.map_cons, value_flatten v, elements_flatten rest]

theorem members_flatten : ∀ ms : List (Text × Json), (memberWords ms).map List.flatten = compactMembers ms
  | [] => rfl
  | (name, v) :: rest => by
    rw [memberWords, compactMembers, List.map_cons, List.flatten_cons, value_flatten v, members_flatten rest]

end

/-- What is left of a value that was laid out is its compact form. -/
theorem squeeze_value {v : Json} {out : Text} (spaced : WordsSpaced (valueWords v) out) : squeeze out = compact v :=
  (squeeze_spaced (value_passes v) spaced).trans (value_flatten v)

end Compact

end Galley.Layout.Spacing
