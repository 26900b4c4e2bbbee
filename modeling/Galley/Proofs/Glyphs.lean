import Galley.Text.Space
import Galley.Text.Width

/-! Characters and their bytes. Any run of the characters of a text is read again from its own bytes, so
that trimming a text once is enough; and the spelling of characters is read as these characters. A text
takes no more columns than it has bytes. -/
namespace Galley.Text.Glyphs

section Reading

theorem glyphsAfter_drop (n : Nat) (t : Text) : glyphsAfter n t = glyphs (t.drop n) := by
  induction t generalizing n with
  | nil => cases n <;> rfl
  | cons b t ih =>
    cases n with
    | zero => rfl
    | succ n => exact ih n

theorem glyphs_cons (b : UInt8) (t : Text) :
    glyphs (b :: t) =
      ⟨(readCode b t).1, b :: t.take (readCode b t).2⟩ :: glyphs (t.drop (readCode b t).2) := by
  rw [← glyphsAfter_drop]
  rfl

theorem readCode_within (b : UInt8) (t : Text) : (readCode b t).2 ≤ t.length := by
  unfold readCode
  match t with
  | [] => grind
  | [x] => grind
  | [x, y] => grind
  | x :: y :: z :: t => grind

/-- A sequence that ends within a text is read from the text alone. -/
theorem readCode_cut {b : UInt8} {t u : Text} (within : (readCode b (t ++ u)).2 ≤ t.length) :
    readCode b t = readCode b (t ++ u) := by
  unfold readCode at within ⊢
  match t with
  | [] => cases u <;> grind
  | [x] => cases u <;> grind
  | [x, y] => cases u <;> grind
  | x :: y :: z :: t => grind

/-- A text that is not well formed at its start begins with the replacement, or does so as soon as more
follows. -/
theorem readCode_start (b : UInt8) (t u : Text) :
    readCode b (t ++ u) = readCode b t ∨ (readCode b t).1 = replacement := by
  unfold readCode
  match t with
  | [] => grind
  | [x] => grind
  | [x, y] => grind
  | x :: y :: z :: t => grind

end Reading

/-- The character that is spelt for a code point. -/
def scalar (c : Nat) : Nat := if 0xd800 ≤ c && c < 0xe000 || 0x110000 ≤ c then replacement else c

section Sequences

/-- The well-formed sequences: a first byte, the bytes that go on with it, and the character that they
spell. The second byte is held to what keeps characters from being spelt longer than they need, and to
those that there are. -/
inductive Sequence (b : UInt8) : Text → Nat → Prop where
  | one (ascii : b.toNat < 0x80) : Sequence b [] b.toNat
  | two {x : UInt8} (low : 0xc2 ≤ b.toNat) (high : b.toNat ≤ 0xdf) (second : isTail x = true) :
      Sequence b [x] (b.toNat % 0x20 * 0x40 + low6 x)
  | three {x y : UInt8} (low : 0xe0 ≤ b.toNat) (high : b.toNat ≤ 0xef) (second : isTail x = true)
      (least : b.toNat = 0xe0 → 0xa0 ≤ x.toNat) (greatest : b.toNat = 0xed → x.toNat ≤ 0x9f)
      (third : isTail y = true) : Sequence b [x, y] (b.toNat % 0x10 * 0x1000 + low6 x * 0x40 + low6 y)
  | four {x y z : UInt8} (low : 0xf0 ≤ b.toNat) (high : b.toNat ≤ 0xf4) (second : isTail x = true)
      (least : b.toNat = 0xf0 → 0x90 ≤ x.toNat) (greatest : b.toNat = 0xf4 → x.toNat ≤ 0x8f)
      (third : isTail y = true) (fourth : isTail z = true) :
      Sequence b [x, y, z] (b.toNat % 0x08 * 0x40000 + low6 x * 0x1000 + low6 y * 0x40 + low6 z)

variable {b x : UInt8} {t tail rest : Text} {c : Nat}

theorem between_iff (lo hi b : UInt8) : between lo hi b = true ↔ lo.toNat ≤ b.toNat ∧ b.toNat ≤ hi.toNat := by
  simp [between, UInt8.le_iff_toNat_le]

theorem isTail_iff : isTail b = true ↔ 0x80 ≤ b.toNat ∧ b.toNat ≤ 0xbf := between_iff _ _ b

/-- A second byte that is held to a smaller range after one first byte each. -/
private theorem between_second {least greatest lo hi : UInt8} (low : 0x80 ≤ lo.toNat) (high : hi.toNat ≤ 0xbf) :
    between (if b = least then lo else 0x80) (if b = greatest then hi else 0xbf) x = true ↔
      isTail x = true ∧ (b.toNat = least.toNat → lo.toNat ≤ x.toNat) ∧
        (b.toNat = greatest.toNat → x.toNat ≤ hi.toNat) := by
  have lower : (if b = least then lo else 0x80).toNat ≤ x.toNat ↔
      0x80 ≤ x.toNat ∧ (b.toNat = least.toNat → lo.toNat ≤ x.toNat) := by
    rw [UInt8.toNat_inj]
    by_cases first : b = least
    · rw [if_pos first]
      simp only [first, forall_const]
      omega
    · rw [if_neg first]
      simp only [first, false_implies, and_true]
      exact Iff.rfl
  have upper : x.toNat ≤ (if b = greatest then hi else 0xbf).toNat ↔
      x.toNat ≤ 0xbf ∧ (b.toNat = greatest.toNat → x.toNat ≤ hi.toNat) := by
    rw [UInt8.toNat_inj]
    by_cases last : b = greatest
    · rw [if_pos last]
      simp only [last, forall_const]
      omega
    · rw [if_neg last]
      simp only [last, false_implies, and_true]
      exact Iff.rfl
  rw [between_iff, isTail_iff, lower, upper]
  grind

/-- A sequence is read, whatever follows it. -/
theorem readCode_sequence (sequence : Sequence b tail c) (rest : Text) :
    readCode b (tail ++ rest) = (c, tail.length) := by
  have ascii : b < 0x80 ↔ b.toNat < 0x80 := UInt8.lt_iff_toNat_lt
  have two : between 0xc2 0xdf b = true ↔ 0xc2 ≤ b.toNat ∧ b.toNat ≤ 0xdf := between_iff _ _ b
  have three : between 0xe0 0xef b = true ↔ 0xe0 ≤ b.toNat ∧ b.toNat ≤ 0xef := between_iff _ _ b
  have four : between 0xf0 0xf4 b = true ↔ 0xf0 ≤ b.toNat ∧ b.toNat ≤ 0xf4 := between_iff _ _ b
  unfold readCode
  cases sequence with
  | one single => rw [if_pos (ascii.mpr single)]; rfl
  | two low high second =>
    have tails : between 0x80 0xbf _ = true := second
    rw [if_neg (mt ascii.mp (by omega)), if_pos (two.mpr ⟨low, high⟩)]
    simp [tails]
  | @three x y low high second least greatest third =>
    have tails : between 0x80 0xbf y = true := third
    have held : between (if b = 0xe0 then 0xa0 else 0x80) (if b = 0xed then 0x9f else 0xbf) x = true :=
      (between_second (by decide) (by decide)).mpr ⟨second, least, greatest⟩
    rw [if_neg (mt ascii.mp (by omega)), if_neg (mt two.mp (by omega)), if_pos (three.mpr ⟨low, high⟩)]
    simp [held, tails]
  | @four x y z low high second least greatest third fourth =>
    have tails : between 0x80 0xbf y = true := third
    have last : between 0x80 0xbf z = true := fourth
    have held : between (if b = 0xf0 then 0x90 else 0x80) (if b = 0xf4 then 0x8f else 0xbf) x = true :=
      (between_second (by decide) (by decide)).mpr ⟨second, least, greatest⟩
    rw [if_neg (mt ascii.mp (by omega)), if_neg (mt two.mp (by omega)), if_neg (mt three.mp (by omega)),
      if_pos (four.mpr ⟨low, high⟩)]
    simp [held, tails, last]

/-- What is read is a sequence, or else the replacement of its first byte alone. -/
theorem readCode_cases (b : UInt8) (t : Text) :
    Sequence b (t.take (readCode b t).2) (readCode b t).1 ∨ readCode b t = (replacement, 0) := by
  unfold readCode
  by_cases ascii : b < 0x80
  · rw [if_pos ascii]
    exact .inl (.one ascii)
  rw [if_neg ascii]
  by_cases two : between 0xc2 0xdf b = true
  · rw [if_pos two]
    obtain ⟨low, high⟩ := (between_iff _ _ _).mp two
    match t with
    | [] => exact .inr rfl
    | x :: t =>
      by_cases second : between 0x80 0xbf x = true
      · simp only [if_pos second]
        exact .inl (.two low high second)
      · exact .inr (if_neg second)
  rw [if_neg two]
  by_cases three : between 0xe0 0xef b = true
  · rw [if_pos three]
    obtain ⟨low, high⟩ := (between_iff _ _ _).mp three
    match t with
    | [] => exact .inr rfl
    | [_] => exact .inr rfl
    | x :: y :: t =>
      by_cases tails : (between (if b = 0xe0 then 0xa0 else 0x80) (if b = 0xed then 0x9f else 0xbf) x &&
          between 0x80 0xbf y) = true
      · simp only [if_pos tails]
        obtain ⟨held, third⟩ := Bool.and_eq_true_iff.mp tails
        obtain ⟨second, least, greatest⟩ := (between_second (by decide) (by decide)).mp held
        exact .inl (.three low high second least greatest third)
      · exact .inr (if_neg tails)
  rw [if_neg three]
  by_cases four : between 0xf0 0xf4 b = true
  · rw [if_pos four]
    obtain ⟨low, high⟩ := (between_iff _ _ _).mp four
    match t with
    | [] => exact .inr rfl
    | [_] => exact .inr rfl
    | [_, _] => exact .inr rfl
    | x :: y :: z :: t =>
      by_cases tails : (between (if b = 0xf0 then 0x90 else 0x80) (if b = 0xf4 then 0x8f else 0xbf) x &&
          between 0x80 0xbf y && between 0x80 0xbf z) = true
      · simp only [if_pos tails]
        obtain ⟨front, fourth⟩ := Bool.and_eq_true_iff.mp tails
        obtain ⟨held, third⟩ := Bool.and_eq_true_iff.mp front
        obtain ⟨second, least, greatest⟩ := (between_second (by decide) (by decide)).mp held
        exact .inl (.four low high second least greatest third fourth)
      · exact .inr (if_neg tails)
  · exact .inr (if_neg four)

/-- Longer sequences spell no ASCII character. -/
theorem sequence_ascii (sequence : Sequence b tail c) (ascii : c < 0x80) : tail = [] ∧ c = b.toNat := by
  cases sequence with
  | one single => exact ⟨rfl, rfl⟩
  | two low high second => omega
  | @three x y low high second least greatest third =>
    rw [isTail_iff] at second
    simp only [low6] at ascii
    omega
  | @four x y z low high second least greatest third fourth =>
    rw [isTail_iff] at second
    simp only [low6] at ascii
    omega

theorem sequence_single (sequence : Sequence b [] c) : c < 0x80 := by
  generalize none : ([] : Text) = tail at sequence
  cases sequence with
  | one ascii => exact ascii
  | _ => cases none

/-- What a sequence spells is a character. -/
theorem sequence_valid (sequence : Sequence b tail c) : ¬(0xd800 ≤ c && c < 0xe000 || 0x110000 ≤ c) := by
  have bits (x : UInt8) : low6 x < 0x40 := Nat.mod_lt _ (by decide)
  simp only [Bool.or_eq_true, Bool.and_eq_true, decide_eq_true_eq]
  cases sequence with
  | one single => omega
  | @two x low high second =>
    have := bits x
    omega
  | @three x y low high second least greatest third =>
    rw [isTail_iff] at second
    have := bits y
    simp only [low6] at this ⊢
    omega
  | @four x y z low high second least greatest third fourth =>
    rw [isTail_iff] at second
    have := bits y
    have := bits z
    simp only [low6] at *
    omega

theorem sequence_scalar (sequence : Sequence b tail c) : scalar c = c := if_neg (sequence_valid sequence)

/-- A byte of a sequence that is ASCII is all of it. -/
theorem sequence_byte (sequence : Sequence b tail c) {x : UInt8} (member : x ∈ b :: tail) (ascii : x.toNat < 0x80) :
    c = x.toNat := by
  cases sequence with
  | one single =>
    obtain rfl := List.mem_singleton.mp member
    rfl
  | two low high second =>
    rw [isTail_iff] at second
    simp only [List.mem_cons, List.not_mem_nil, or_false] at member
    rcases member with rfl | rfl <;> omega
  | three low high second least greatest third =>
    rw [isTail_iff] at second third
    simp only [List.mem_cons, List.not_mem_nil, or_false] at member
    rcases member with rfl | rfl | rfl <;> omega
  | four low high second least greatest third fourth =>
    rw [isTail_iff] at second third fourth
    simp only [List.mem_cons, List.not_mem_nil, or_false] at member
    rcases member with rfl | rfl | rfl | rfl <;> omega

theorem sequence_lead (sequence : Sequence b tail c) : isTail b = false := by
  rw [← Bool.not_eq_true, isTail_iff]
  cases sequence <;> omega

private theorem toNat_ofNat {n : Nat} (small : n < 0x100) : (UInt8.ofNat n).toNat = n := by
  rw [UInt8.toNat_ofNat']
  exact Nat.mod_eq_of_lt small

private theorem toNat_tail6 (n : Nat) : (tail6 n).toNat = 0x80 + n % 0x40 := toNat_ofNat (by omega)

private theorem low6_tail6 (n : Nat) : low6 (tail6 n) = n % 0x40 := by
  rw [low6, toNat_tail6]
  omega

private theorem isTail_tail6 (n : Nat) : isTail (tail6 n) = true := by
  rw [isTail_iff, toNat_tail6]
  omega

theorem scalar_of_valid (valid : ¬(0xd800 ≤ c && c < 0xe000 || 0x110000 ≤ c)) : scalar c = c :=
  if_neg valid

theorem scalar_of_low (low : c < 0xd800) : scalar c = c := by
  apply scalar_of_valid
  simp only [Bool.or_eq_true, Bool.and_eq_true, decide_eq_true_eq]
  omega

/-- A code point is spelt by the sequence of its character. -/
theorem encode_sequence (c : Nat) : ∃ b tail, encode c = b :: tail ∧ Sequence b tail (scalar c) := by
  unfold encode
  by_cases one : c < 0x80
  · refine ⟨UInt8.ofNat c, [], if_pos one, ?_⟩
    have lead : (UInt8.ofNat c).toNat = c := toNat_ofNat (by omega)
    have spelt : Sequence (UInt8.ofNat c) [] _ := .one (by omega)
    rw [scalar_of_low (by omega)]
    rwa [lead] at spelt
  rw [if_neg one]
  by_cases two : c < 0x800
  · refine ⟨UInt8.ofNat (0xc0 + c / 0x40), [tail6 c], if_pos two, ?_⟩
    have lead : (UInt8.ofNat (0xc0 + c / 0x40)).toNat = 0xc0 + c / 0x40 := toNat_ofNat (by omega)
    have spelt : Sequence (UInt8.ofNat (0xc0 + c / 0x40)) [tail6 c] _ :=
      .two (by omega) (by omega) (isTail_tail6 c)
    have code : (0xc0 + c / 0x40) % 0x20 * 0x40 + c % 0x40 = c := by omega
    rw [scalar_of_low (by omega)]
    rwa [lead, low6_tail6, code] at spelt
  rw [if_neg two]
  by_cases invalid : (0xd800 ≤ c && c < 0xe000 || 0x110000 ≤ c) = true
  · refine ⟨0xef, [0xbf, 0xbd], if_pos invalid, ?_⟩
    have spelt : Sequence 0xef [0xbf, 0xbd] _ :=
      .three (by decide) (by decide) (by decide) (by decide) (by decide) (by decide)
    rw [scalar, if_pos invalid]
    exact spelt
  rw [if_neg invalid, scalar_of_valid invalid]
  simp only [Bool.or_eq_true, Bool.and_eq_true, decide_eq_true_eq] at invalid
  by_cases three : c < 0x10000
  · refine ⟨UInt8.ofNat (0xe0 + c / 0x1000), [tail6 (c / 0x40), tail6 c], if_pos three, ?_⟩
    have lead : (UInt8.ofNat (0xe0 + c / 0x1000)).toNat = 0xe0 + c / 0x1000 := toNat_ofNat (by omega)
    have next := toNat_tail6 (c / 0x40)
    have spelt : Sequence (UInt8.ofNat (0xe0 + c / 0x1000)) [tail6 (c / 0x40), tail6 c] _ :=
      .three (by omega) (by omega) (isTail_tail6 _) (by omega) (by omega) (isTail_tail6 _)
    have code : (0xe0 + c / 0x1000) % 0x10 * 0x1000 + c / 0x40 % 0x40 * 0x40 + c % 0x40 = c := by omega
    rwa [lead, low6_tail6, low6_tail6, code] at spelt
  · refine ⟨UInt8.ofNat (0xf0 + c / 0x40000), [tail6 (c / 0x1000), tail6 (c / 0x40), tail6 c], if_neg three, ?_⟩
    have lead : (UInt8.ofNat (0xf0 + c / 0x40000)).toNat = 0xf0 + c / 0x40000 := toNat_ofNat (by omega)
    have next := toNat_tail6 (c / 0x1000)
    have spelt : Sequence (UInt8.ofNat (0xf0 + c / 0x40000)) [tail6 (c / 0x1000), tail6 (c / 0x40), tail6 c] _ :=
      .four (by omega) (by omega) (isTail_tail6 _) (by omega) (by omega) (isTail_tail6 _) (isTail_tail6 _)
    have code : (0xf0 + c / 0x40000) % 0x08 * 0x40000 + c / 0x1000 % 0x40 * 0x1000 + c / 0x40 % 0x40 * 0x40 +
        c % 0x40 = c := by omega
    rwa [lead, low6_tail6, low6_tail6, low6_tail6, code] at spelt

/-- A character is spelt by its sequence alone. -/
theorem sequence_encode (sequence : Sequence b tail c) : encode c = b :: tail := by
  have valid := sequence_valid sequence
  have bits (x : UInt8) : low6 x < 0x40 := Nat.mod_lt _ (by decide)
  have same {n : Nat} {x : UInt8} (equal : n = x.toNat) : UInt8.ofNat n = x := by
    rw [equal, UInt8.ofNat_toNat]
  have next {n : Nat} {x : UInt8} (goesOn : isTail x = true) (equal : n % 0x40 = low6 x) : tail6 n = x := by
    rw [isTail_iff] at goesOn
    rw [low6] at equal
    exact same (by omega)
  cases sequence with
  | one ascii => rw [encode, if_pos ascii, UInt8.ofNat_toNat]
  | @two x low high second =>
    have := bits x
    rw [encode, if_neg (by omega), if_pos (by omega), same (x := b) (by omega), next second (by omega)]
  | @three x y low high second least greatest third =>
    have := bits x
    have := bits y
    have longer : 0x800 ≤ b.toNat % 0x10 * 0x1000 + low6 x * 0x40 + low6 y := by
      rw [isTail_iff] at second
      simp only [low6]
      omega
    rw [encode, if_neg (by omega), if_neg (by omega), if_neg valid, if_pos (by omega), same (x := b) (by omega),
      next second (by omega), next third (by omega)]
  | @four x y z low high second least greatest third fourth =>
    have := bits x
    have := bits y
    have := bits z
    have longer : 0x10000 ≤ b.toNat % 0x08 * 0x40000 + low6 x * 0x1000 + low6 y * 0x40 + low6 z := by
      rw [isTail_iff] at second
      simp only [low6]
      omega
    rw [encode, if_neg (by omega), if_neg (by omega), if_neg valid, if_neg (by omega), same (x := b) (by omega),
      next second (by omega), next third (by omega), next fourth (by omega)]

end Sequences

section Runs

theorem ofGlyphs_append (gs hs : List Glyph) : ofGlyphs (gs ++ hs) = ofGlyphs gs ++ ofGlyphs hs :=
  List.flatMap_append

/-- Characters that a text begins or ends with are read again from their own bytes. -/
theorem glyphs_append {t : Text} {first rest : List Glyph} (read : t.glyphs = first ++ rest) :
    (ofGlyphs first).glyphs = first ∧ (ofGlyphs rest).glyphs = rest := by
  induction first generalizing t with
  | nil =>
    have whole : ofGlyphs rest = t := by rw [← ofGlyphs_glyphs t, read, List.nil_append]
    rw [whole]
    exact ⟨rfl, read⟩
  | cons g first ih =>
    cases t with
    | nil => cases read
    | cons b t =>
      rw [glyphs_cons, List.cons_append] at read
      obtain ⟨same, later⟩ := List.cons.inj read
      obtain ⟨before, after⟩ := ih later
      refine ⟨?_, after⟩
      have taken : (t.take (readCode b t).2).length = (readCode b t).2 :=
        List.length_take_of_le (readCode_within b t)
      -- What follows the first character is spelt by the others, so that cutting behind `first` leaves
      -- all the bytes of that character.
      have spelt : t = (t.take (readCode b t).2 ++ ofGlyphs first) ++ ofGlyphs rest := by
        rw [List.append_assoc, ← ofGlyphs_append, ← later, ofGlyphs_glyphs, List.take_append_drop]
      have kept := readCode_cut (b := b) (t := t.take (readCode b t).2 ++ ofGlyphs first) (u := ofGlyphs rest)
        (by rw [← spelt, List.length_append, taken]; exact Nat.le_add_right _ _)
      rw [← spelt] at kept
      have start : ofGlyphs (g :: first) = b :: (t.take (readCode b t).2 ++ ofGlyphs first) := by
        rw [← same]
        rfl
      rw [start, glyphs_cons, kept, ← same, List.take_append_of_le_length (Nat.le_of_eq taken.symm),
        List.drop_append_of_le_length (Nat.le_of_eq taken.symm), List.drop_eq_nil_of_le (Nat.le_of_eq taken),
        List.nil_append, before, List.take_take, Nat.min_self]

/-- A character of a text is read from a sequence, or stands for a byte that is in none. -/
theorem glyph_cases {g : Glyph} {t : Text} (member : g ∈ t.glyphs) :
    ∃ b tail, g.bytes = b :: tail ∧ (Sequence b tail g.code ∨ g.code = replacement ∧ tail = []) := by
  obtain ⟨first, rest, split⟩ := List.append_of_mem member
  have alone := (glyphs_append split).2
  cases start : ofGlyphs (g :: rest) with
  | nil =>
    rw [start] at alone
    cases alone
  | cons b t =>
    rw [start, glyphs_cons] at alone
    obtain ⟨same, -⟩ := List.cons.inj alone
    refine ⟨b, t.take (readCode b t).2, by rw [← same], ?_⟩
    rcases readCode_cases b t with sequence | single
    · left
      rw [← same]
      exact sequence
    · right
      rw [← same, single]
      exact ⟨rfl, rfl⟩

theorem mem_of_glyph {g : Glyph} {t : Text} (member : g ∈ t.glyphs) {b : UInt8} (byte : b ∈ g.bytes) : b ∈ t := by
  rw [← ofGlyphs_glyphs t]
  exact List.mem_flatMap.mpr ⟨g, member, byte⟩

/-- An ASCII character is read only where its byte stands. -/
theorem mem_of_code {t : Text} {b : UInt8} (ascii : b.toNat < 0x80) (read : b.toNat ∈ t.codes) : b ∈ t := by
  obtain ⟨g, member, code⟩ := List.mem_map.mp read
  obtain ⟨x, tail, spelt, shape⟩ := glyph_cases member
  rcases shape with sequence | ⟨lost, -⟩
  · obtain ⟨-, same⟩ := sequence_ascii sequence (by omega)
    have equal : x = b := UInt8.toNat_inj.mp (same.symm.trans code)
    apply mem_of_glyph member
    rw [spelt, equal]
    exact List.mem_cons_self
  · rw [lost, replacement] at code
    omega

/-- What is read can be spelt. -/
theorem codes_scalar (t : Text) : t.codes.map scalar = t.codes := by
  rw [codes, List.map_map]
  apply List.map_congr_left
  intro g member
  obtain ⟨b, tail, -, shape⟩ := glyph_cases member
  rcases shape with sequence | ⟨lost, -⟩
  · exact sequence_scalar sequence
  · rw [Function.comp_apply, lost]
    decide

theorem glyphs_ne_nil {t : Text} (filled : t ≠ []) : t.glyphs ≠ [] := by
  intro none
  have whole := ofGlyphs_glyphs t
  rw [none] at whole
  exact filled whole.symm

end Runs

section Spelling

theorem glyphs_encode (c : Nat) : glyphs (encode c) = [⟨scalar c, encode c⟩] := by
  obtain ⟨b, tail, spelt, sequence⟩ := encode_sequence c
  have read := readCode_sequence sequence []
  rw [List.append_nil] at read
  rw [spelt, glyphs_cons, read, List.take_length, List.drop_length]
  rfl

/-- Characters that are spelt after a text are read apart from it. -/
theorem glyphs_ofCodes (t : Text) (cs : List Nat) :
    glyphs (t ++ ofCodes cs) = t.glyphs ++ glyphs (ofCodes cs) := by
  cases cs with
  | nil =>
    show glyphs (t ++ []) = t.glyphs ++ []
    rw [List.append_nil, List.append_nil]
  | cons c cs =>
    obtain ⟨b, tail, spelt, sequence⟩ := encode_sequence c
    have start : ofCodes (c :: cs) = b :: (tail ++ ofCodes cs) := by
      rw [ofCodes, List.flatMap_cons, spelt]
      rfl
    rw [start]
    exact glyphs_lead (sequence_lead sequence) t _

/-- What is spelt is read again. -/
theorem codes_ofCodes (cs : List Nat) : codes (ofCodes cs) = cs.map scalar := by
  induction cs with
  | nil => rfl
  | cons c cs ih =>
    have whole : ofCodes (c :: cs) = encode c ++ ofCodes cs := rfl
    rw [whole, codes, glyphs_ofCodes, glyphs_encode, List.map_append, List.map_cons (f := scalar), ← ih]
    rfl

/-- What is read from a well-formed text is spelt as it was. -/
theorem ofCodes_codes {t : Text} (valid : t.wellFormed = true) : ofCodes t.codes = t := by
  have each : ∀ g ∈ t.glyphs, encode g.code = g.bytes := by
    intro g member
    obtain ⟨b, tail, spelt, shape⟩ := glyph_cases member
    rcases shape with sequence | ⟨lost, single⟩
    · rw [spelt, sequence_encode sequence]
    · have sound := List.all_eq_true.mp valid g member
      simp [Glyph.malformed, lost, spelt, single] at sound
  conv => rhs; rw [← ofGlyphs_glyphs t]
  unfold ofCodes codes ofGlyphs
  rw [List.flatMap_map, List.flatMap_def, List.flatMap_def, List.map_congr_left each]

theorem ofCodes_append (cs ds : List Nat) : ofCodes (cs ++ ds) = ofCodes cs ++ ofCodes ds :=
  List.flatMap_append

/-- An ASCII byte is spelt for its character alone. -/
theorem mem_of_ofCodes {cs : List Nat} {b : UInt8} (ascii : b.toNat < 0x80) (member : b ∈ ofCodes cs) :
    b.toNat ∈ cs := by
  obtain ⟨c, inside, byte⟩ := List.mem_flatMap.mp member
  obtain ⟨x, tail, spelt, sequence⟩ := encode_sequence c
  rw [spelt] at byte
  have same : scalar c = b.toNat := sequence_byte sequence byte ascii
  by_cases invalid : (0xd800 ≤ c && c < 0xe000 || 0x110000 ≤ c) = true
  · rw [scalar, if_pos invalid, replacement] at same
    omega
  · rw [scalar_of_valid invalid] at same
    rwa [← same]

theorem isSpace_scalar {c : Nat} (visible : isSpace c = false) : isSpace (scalar c) = false := by
  unfold scalar
  split
  · rfl
  · exact visible

end Spelling

section Trimming

/-- Characters without the white space at either end. -/
def strip (gs : List Glyph) : List Glyph :=
  ((gs.dropWhile Glyph.isSpace).reverse.dropWhile Glyph.isSpace).reverse

/-- Characters that neither begin nor end with white space. -/
def EdgesVisible (gs : List Glyph) : Prop :=
  (∀ g ∈ gs.head?, g.isSpace = false) ∧ ∀ g ∈ gs.getLast?, g.isSpace = false

private theorem dropWhile_head (gs : List Glyph) : ∀ g ∈ (gs.dropWhile Glyph.isSpace).head?, g.isSpace = false := by
  intro g member
  have stopped := List.head?_dropWhile_not Glyph.isSpace gs
  rw [Option.mem_def.mp member] at stopped
  exact stopped

private theorem dropWhile_of_head {gs : List Glyph} (visible : ∀ g ∈ gs.head?, g.isSpace = false) :
    gs.dropWhile Glyph.isSpace = gs := by
  cases gs with
  | nil => rfl
  | cons g gs => exact List.dropWhile_cons_of_neg (by simp [visible g rfl])

theorem strip_of_firm {gs : List Glyph} (firm : EdgesVisible gs) : strip gs = gs := by
  obtain ⟨first, last⟩ := firm
  rw [strip, dropWhile_of_head first, dropWhile_of_head (by simpa using last), List.reverse_reverse]

private theorem strip_start (gs : List Glyph) : ∃ after, gs.dropWhile Glyph.isSpace = strip gs ++ after := by
  refine ⟨((gs.dropWhile Glyph.isSpace).reverse.takeWhile Glyph.isSpace).reverse, ?_⟩
  rw [strip, ← List.reverse_append, List.takeWhile_append_dropWhile, List.reverse_reverse]

theorem strip_infix (gs : List Glyph) : ∃ before after, gs = before ++ (strip gs ++ after) := by
  obtain ⟨after, split⟩ := strip_start gs
  refine ⟨gs.takeWhile Glyph.isSpace, after, ?_⟩
  rw [← split, List.takeWhile_append_dropWhile]

theorem strip_firm (gs : List Glyph) : EdgesVisible (strip gs) := by
  constructor
  · intro g member
    obtain ⟨after, split⟩ := strip_start gs
    apply dropWhile_head gs
    rw [split, List.head?_append, Option.mem_def.mp member]
    rfl
  · intro g member
    rw [strip, List.getLast?_reverse] at member
    exact dropWhile_head _ g member

theorem glyphs_trim (t : Text) : (trim t).glyphs = strip t.glyphs := by
  obtain ⟨before, after, split⟩ := strip_infix t.glyphs
  have tail := (glyphs_append split).2
  exact (glyphs_append tail).1

theorem firm_trim (t : Text) : EdgesVisible (trim t).glyphs := by
  rw [glyphs_trim]
  exact strip_firm t.glyphs

theorem trim_of_firm {t : Text} (firm : EdgesVisible t.glyphs) : trim t = t := by
  show ofGlyphs (strip t.glyphs) = t
  rw [strip_of_firm firm, ofGlyphs_glyphs]

theorem firm_of_trim {t : Text} (trimmed : trim t = t) : EdgesVisible t.glyphs := by
  rw [← trimmed]
  exact firm_trim t

theorem trim_trim (t : Text) : trim (trim t) = trim t := trim_of_firm (firm_trim t)

theorem trim_infix (t : Text) : ∃ before after, t = before ++ (trim t ++ after) := by
  obtain ⟨before, after, split⟩ := strip_infix t.glyphs
  refine ⟨ofGlyphs before, ofGlyphs after, ?_⟩
  have whole := ofGlyphs_glyphs t
  rw [split, ofGlyphs_append, ofGlyphs_append] at whole
  exact whole.symm

theorem mem_trim {t : Text} {b : UInt8} (member : b ∈ trim t) : b ∈ t := by
  obtain ⟨before, after, split⟩ := trim_infix t
  rw [split]
  exact List.mem_append_right before (List.mem_append_left after member)

theorem length_trim (t : Text) : (trim t).length ≤ t.length := by
  obtain ⟨before, after, split⟩ := trim_infix t
  have whole := congrArg List.length split
  rw [List.length_append, List.length_append] at whole
  omega

private theorem mem_dropWhile {gs : List Glyph} {g : Glyph} (member : g ∈ gs) (visible : g.isSpace = false) :
    g ∈ gs.dropWhile Glyph.isSpace := by
  rw [← List.takeWhile_append_dropWhile (p := Glyph.isSpace) (l := gs)] at member
  rcases List.mem_append.mp member with early | late
  · have space := List.all_eq_true.mp (List.all_takeWhile (p := Glyph.isSpace)) g early
    rw [visible] at space
    cases space
  · exact late

/-- What can be seen stays. -/
theorem mem_codes_trim {t : Text} {c : Nat} (read : c ∈ t.codes) (visible : isSpace c = false) :
    c ∈ (trim t).codes := by
  obtain ⟨g, member, rfl⟩ := List.mem_map.mp read
  rw [codes, glyphs_trim]
  apply List.mem_map_of_mem
  apply List.mem_reverse.mpr
  exact mem_dropWhile (List.mem_reverse.mpr (mem_dropWhile member visible)) visible

/-- Nothing is trimmed from a text that ends visibly, whatever is trimmed after it. -/
theorem trimRight_visible {t u : Text} (apart : (t ++ u).glyphs = t.glyphs ++ u.glyphs)
    (last : ∀ g ∈ t.glyphs.getLast?, g.isSpace = false) : trimRight (t ++ u) = t ++ trimRight u := by
  have stops : t.glyphs.reverse.dropWhile Glyph.isSpace = t.glyphs.reverse :=
    dropWhile_of_head (by simpa using last)
  rw [trimRight, apart, List.reverse_append, List.dropWhile_append]
  split
  · next none =>
    have nothing : trimRight u = [] := by
      rw [trimRight, List.isEmpty_iff.mp none]
      rfl
    rw [stops, List.reverse_reverse, ofGlyphs_glyphs, nothing, List.append_nil]
  · rw [List.reverse_append, List.reverse_reverse, ofGlyphs_append, ofGlyphs_glyphs]
    rfl

/-- An ASCII character is trimmed if it is white space and nothing is left after it. -/
theorem trimRight_split {b : UInt8} (ascii : b < 0x80) (s t : Text) :
    trimRight (s ++ b :: t) =
      if isSpace b.toNat && (trimRight t).isEmpty then trimRight s else s ++ b :: trimRight t := by
  have before : ofGlyphs s.glyphs = s := ofGlyphs_glyphs s
  simp only [ofGlyphs] at before
  have read : glyphs (s ++ b :: t) = (s.glyphs ++ [⟨b.toNat, [b]⟩]) ++ t.glyphs := by
    rw [glyphs_ascii ascii, List.append_assoc, List.singleton_append]
  rw [trimRight, trimRight, trimRight, read, List.reverse_append, List.dropWhile_append]
  cases kept : t.glyphs.reverse.dropWhile Glyph.isSpace with
  | nil => cases space : isSpace b.toNat <;> simp [Glyph.isSpace, space, ofGlyphs, before]
  | cons g gs =>
    have inside : g ∈ t.glyphs := List.mem_reverse.mp ((List.dropWhile_sublist _).subset (kept ▸ List.mem_cons_self))
    obtain ⟨lead, tail, spelt, -⟩ := glyph_cases inside
    simp [ofGlyphs, spelt, before]

theorem trimRight_cons {b : UInt8} (ascii : b < 0x80) (t : Text) :
    trimRight (b :: t) = if isSpace b.toNat && (trimRight t).isEmpty then [] else b :: trimRight t :=
  trimRight_split ascii [] t

theorem trimRight_start (t : Text) : ∃ after, t = trimRight t ++ after := by
  refine ⟨ofGlyphs (t.glyphs.reverse.takeWhile Glyph.isSpace).reverse, ?_⟩
  rw [trimRight, ← ofGlyphs_append, ← List.reverse_append, List.takeWhile_append_dropWhile, List.reverse_reverse,
    ofGlyphs_glyphs]

/-- A text that begins visibly does so at any start of it: what is cut off in the middle of a sequence
is shown as a replacement. -/
theorem head_start {t u : Text} (visible : ∀ g ∈ (t ++ u).glyphs.head?, g.isSpace = false) :
    ∀ g ∈ t.glyphs.head?, g.isSpace = false := by
  cases t with
  | nil =>
    intro g member
    cases member
  | cons b t =>
    rw [List.cons_append, glyphs_cons] at visible
    intro g member
    rw [glyphs_cons] at member
    obtain rfl := Option.some.inj member
    rcases readCode_start b t u with same | lost
    · have seen := visible _ rfl
      rw [Glyph.isSpace, same] at seen
      exact seen
    · rw [Glyph.isSpace, lost]
      rfl

/-- A blank between two visible texts leaves them as they are. -/
theorem firm_spaced {t u : Text} (first : ∀ g ∈ t.glyphs.head?, g.isSpace = false) (filled : t ≠ [])
    (last : ∀ g ∈ u.glyphs.getLast?, g.isSpace = false) (shown : u ≠ []) : EdgesVisible (t ++ 0x20 :: u).glyphs := by
  rw [glyphs_ascii (by decide)]
  constructor
  · intro g member
    apply first
    obtain ⟨h, hs, start⟩ := List.exists_cons_of_ne_nil (glyphs_ne_nil filled)
    rw [start] at member ⊢
    exact member
  · intro g member
    apply last
    rw [List.getLast?_append, List.getLast?_cons,
      List.getLast?_eq_some_getLast (glyphs_ne_nil shown)] at member
    rw [List.getLast?_eq_some_getLast (glyphs_ne_nil shown)]
    exact member

end Trimming

section Measuring

/-- The columns of some characters, each on its own. -/
def columns : List Nat → Nat
  | [] => 0
  | c :: cs => codeWidth c + columns cs

@[simp] theorem columns_append (cs ds : List Nat) : columns (cs ++ ds) = columns cs + columns ds := by
  induction cs with
  | nil => simp [columns]
  | cons c cs ih => simp [columns, ih, Nat.add_assoc]

theorem codeWidth_le (c : Nat) : codeWidth c ≤ 2 := by
  unfold codeWidth
  grind

theorem codeWidth_low {c : Nat} (low : c < 0x300) : codeWidth c ≤ 1 := by
  unfold codeWidth
  grind

theorem shownWidthOf_le (inside : Bool) (cs : List Nat) : shownWidthOf inside cs ≤ columns cs := by
  induction cs generalizing inside with
  | nil => exact Nat.le_refl 0
  | cons c cs ih =>
    have opened := ih true
    have followed := ih (!endsEscape c)
    have closed := ih false
    unfold shownWidthOf columns
    split
    · omega
    · split <;> omega

theorem clusterWidth_le (cs : List Nat) : clusterWidth cs ≤ columns cs := by
  induction cs with
  | nil => exact Nat.le_refl 0
  | cons c cs ih =>
    rw [clusterWidth] at ih ⊢
    rw [columns, List.map_cons, List.find?_cons]
    split
    · exact Nat.le_add_right _ _
    · omega

theorem plainWidth_le (t : Text) : plainWidth t ≤ columns t.codes := by
  have parts (css : List (List Nat)) :
      css.foldr (fun c n => clusterWidth c + n) 0 ≤ columns css.flatten := by
    induction css with
    | nil => exact Nat.le_refl 0
    | cons cs css ih =>
      have first := clusterWidth_le cs
      rw [List.foldr_cons, List.flatten_cons, columns_append]
      omega
  have whole := parts (clusters t.codes)
  rwa [clusters_flatten] at whole

/-- A character takes no more columns than it has bytes. -/
theorem codeWidth_bytes {g : Glyph} {t : Text} (member : g ∈ t.glyphs) : codeWidth g.code ≤ g.bytes.length := by
  obtain ⟨b, tail, spelt, shape⟩ := glyph_cases member
  rw [spelt, List.length_cons]
  have most := codeWidth_le g.code
  rcases shape with sequence | ⟨lost, single⟩
  · cases tail with
    | nil =>
      exact codeWidth_low (Nat.lt_trans (sequence_single sequence) (by decide))
    | cons x tail =>
      rw [List.length_cons]
      omega
  · rw [lost, single]
    decide

theorem columns_codes (t : Text) : columns t.codes ≤ t.length := by
  have parts (gs : List Glyph) (fine : ∀ g ∈ gs, codeWidth g.code ≤ g.bytes.length) :
      columns (gs.map Glyph.code) ≤ (ofGlyphs gs).length := by
    induction gs with
    | nil => exact Nat.le_refl 0
    | cons g gs ih =>
      have first := fine g List.mem_cons_self
      have later := ih fun h member => fine h (List.mem_cons_of_mem g member)
      rw [List.map_cons, columns, ofGlyphs, List.flatMap_cons, List.length_append]
      rw [ofGlyphs] at later
      omega
  have whole := parts t.glyphs fun g member => codeWidth_bytes member
  rwa [ofGlyphs_glyphs] at whole

theorem columns_trim (t : Text) : columns (trim t).codes ≤ columns t.codes := by
  obtain ⟨before, after, split⟩ := strip_infix t.glyphs
  rw [codes, codes, glyphs_trim]
  conv => rhs; rw [split]
  rw [List.map_append, List.map_append, columns_append, columns_append]
  omega

end Measuring

end Galley.Text.Glyphs
