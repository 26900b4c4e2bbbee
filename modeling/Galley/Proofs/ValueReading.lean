import Galley.Proofs.Spacing

/-! Reading JSON values that were laid out. Whatever blanks stand between the words of a value, the reader
gets its tokens from them one by one, and makes the value from them. Main statement: a value is laid out
without a fault as long as the columns that it asks for can be counted, its compact form is left when the
blanks outside string literals are deleted, and it is read back if its leaves and names are. -/
namespace Galley.Json.Reading
open Layout.Spacing

/-- The end of a text, white space or a structural character. -/
def Delimited (rest : Text) : Prop := ∀ b, rest.head? = some b → isSpace b = true ∨ isPunctuation b = true

section Numbers

variable {t rest : Text} {b : UInt8}

/-- Whether a text starts with a byte of a number does not change by what follows it. -/
theorem head_delimited (delimited : Delimited rest) (other : isSpace b = false ∧ isPunctuation b = false) :
    (t ++ rest).head? = some b ↔ t.head? = some b := by
  cases t with
  | nil =>
    refine ⟨fun starts => ?_, fun starts => by cases starts⟩
    rcases delimited b starts with space | sign
    · rw [other.1] at space
      cases space
    · rw [other.2] at sign
      cases sign
  | cons x t => exact Iff.rfl

theorem isSpace_iff : isSpace b = true ↔ b ∈ [0x20, 0x09, 0x0a, 0x0d] := by
  simp [isSpace, or_assoc]

theorem isPunctuation_iff : isPunctuation b = true ↔ b ∈ [0x7b, 0x7d, 0x5b, 0x5d, 0x3a, 0x2c] := by
  simp [isPunctuation, or_assoc]

/-- A byte of a kind that no white space is of is none. -/
theorem space_apart {p : UInt8 → Bool} (off : [0x20, 0x09, 0x0a, 0x0d].any p = false) (kind : p b = true) :
    isSpace b = false := by
  rw [← Bool.not_eq_true, isSpace_iff]
  intro space
  exact absurd kind (List.any_eq_false.mp off b space)

/-- A byte of a kind that no structural character is of is none. -/
theorem punctuation_apart {p : UInt8 → Bool} (off : [0x7b, 0x7d, 0x5b, 0x5d, 0x3a, 0x2c].any p = false)
    (kind : p b = true) : isPunctuation b = false := by
  rw [← Bool.not_eq_true, isPunctuation_iff]
  intro sign
  exact absurd kind (List.any_eq_false.mp off b sign)

theorem digit_other (digit : isDigit b = true) : isSpace b = false ∧ isPunctuation b = false :=
  ⟨space_apart rfl digit, punctuation_apart rfl digit⟩

theorem digitCount_le (t : Text) : digitCount t ≤ t.length := (List.takeWhile_sublist _).length_le

theorem digitCount_append (delimited : Delimited rest) (t : Text) : digitCount (t ++ rest) = digitCount t := by
  have stops : rest.takeWhile isDigit = [] := by
    cases rest with
    | nil => rfl
    | cons b rest =>
      cases digit : isDigit b with
      | false => simp [digit]
      | true =>
        obtain ⟨shown, plain⟩ := digit_other digit
        rcases delimited b rfl with space | sign
        · rw [shown] at space
          cases space
        · rw [plain] at sign
          cases sign
  unfold digitCount
  induction t with
  | nil => rw [List.nil_append, stops]; rfl
  | cons b t ih => cases digit : isDigit b <;> simp [digit, ih]

/-- The length of the sign of a number. -/
def signLength (t : Text) : Nat := if t.head? = some 0x2d then 1 else 0

/-- The length of what a number has before its point. -/
def wholeLength (t : Text) : Nat := if t.head? = some 0x30 then 1 else digitCount t

/-- The length of the sign of an exponent. -/
def markLength (t : Text) : Nat := if t.head? = some 0x2b ∨ t.head? = some 0x2d then 1 else 0

/-- The length of a number of which the bytes up to its exponent are read. -/
def powerLength? (here : Nat) (t : Text) : Option Nat :=
  if t.head? = some 0x65 ∨ t.head? = some 0x45 then
    let mark := markLength (t.drop 1)
    let power := digitCount ((t.drop 1).drop mark)
    if power = 0 then none else some (here + 1 + mark + power)
  else some here

/-- The length of a number of which the bytes up to its point are read. -/
def fractionLength? (here : Nat) (t : Text) : Option Nat :=
  let point := t.head? = some 0x2e
  let fraction := if point then digitCount (t.drop 1) else 0
  if point ∧ fraction = 0 then none
  else powerLength? (here + if point then fraction + 1 else 0) (if point then t.drop (fraction + 1) else t)

theorem numberLength?_eq (t : Text) :
    numberLength? t =
      if wholeLength (t.drop (signLength t)) = 0 then none
      else fractionLength? (signLength t + wholeLength (t.drop (signLength t)))
        ((t.drop (signLength t)).drop (wholeLength (t.drop (signLength t)))) := rfl

theorem signLength_le (t : Text) : signLength t ≤ t.length := by
  cases t with
  | nil => exact Nat.le_refl 0
  | cons b t =>
    unfold signLength
    split <;> simp

theorem wholeLength_le (t : Text) : wholeLength t ≤ t.length := by
  unfold wholeLength
  split
  · rename_i zero
    cases t with
    | nil => cases zero
    | cons b t => simp
  · exact digitCount_le t

theorem markLength_le (t : Text) : markLength t ≤ t.length := by
  cases t with
  | nil => exact Nat.le_refl 0
  | cons b t =>
    unfold markLength
    split <;> simp

theorem powerLength?_le {here n : Nat} (read : powerLength? here t = some n) : n ≤ here + t.length := by
  unfold powerLength? at read
  split at read
  · rename_i marked
    cases t with
    | nil => simp at marked
    | cons x t =>
      have digits := digitCount_le (t.drop (markLength t))
      have within := markLength_le t
      simp only [List.drop_succ_cons, List.drop_zero] at read
      rw [List.length_drop] at digits
      rw [List.length_cons]
      split at read
      · cases read
      · cases read
        omega
  · cases read
    omega

theorem fractionLength?_le {here n : Nat} (read : fractionLength? here t = some n) : n ≤ here + t.length := by
  unfold fractionLength? at read
  by_cases point : t.head? = some 0x2e
  · simp only [point, true_and, ↓reduceIte] at read
    cases t with
    | nil => cases point
    | cons x t =>
      split at read
      · cases read
      · have bound := powerLength?_le read
        have within := digitCount_le t
        simp only [List.drop_succ_cons, List.drop_zero, List.length_drop] at bound
        rw [List.length_cons]
        omega
  · simp only [point, false_and, ↓reduceIte, Nat.add_zero] at read
    exact powerLength?_le read

theorem numberLength?_le {n : Nat} (read : numberLength? t = some n) : n ≤ t.length := by
  rw [numberLength?_eq] at read
  split at read
  · cases read
  · have bound := fractionLength?_le read
    have signed := signLength_le t
    have whole := wholeLength_le (t.drop (signLength t))
    rw [List.length_drop] at whole
    rw [List.length_drop, List.length_drop] at bound
    omega

variable (delimited : Delimited rest)
include delimited

theorem signLength_append (t : Text) : signLength (t ++ rest) = signLength t := by
  simp only [signLength, head_delimited delimited (b := 0x2d) (by decide)]

theorem wholeLength_append (t : Text) : wholeLength (t ++ rest) = wholeLength t := by
  simp only [wholeLength, head_delimited delimited (b := 0x30) (by decide), digitCount_append delimited]

theorem markLength_append (t : Text) : markLength (t ++ rest) = markLength t := by
  simp only [markLength, head_delimited delimited (b := 0x2b) (by decide),
    head_delimited delimited (b := 0x2d) (by decide)]

theorem powerLength?_append (here : Nat) (t : Text) : powerLength? here (t ++ rest) = powerLength? here t := by
  simp only [powerLength?, head_delimited delimited (b := 0x65) (by decide),
    head_delimited delimited (b := 0x45) (by decide)]
  cases t with
  | nil => rfl
  | cons x t =>
    simp only [List.cons_append, List.drop_succ_cons, List.drop_zero, markLength_append delimited,
      List.drop_append_of_le_length (markLength_le t), digitCount_append delimited]

theorem fractionLength?_append (here : Nat) (t : Text) :
    fractionLength? here (t ++ rest) = fractionLength? here t := by
  simp only [fractionLength?, head_delimited delimited (b := 0x2e) (by decide)]
  by_cases point : t.head? = some 0x2e
  · cases t with
    | nil => cases point
    | cons x t =>
      simp only [point, List.cons_append, List.drop_succ_cons, List.drop_zero, digitCount_append delimited,
        ↓reduceIte, List.drop_append_of_le_length (digitCount_le t), powerLength?_append delimited]
  · simp only [point, ↓reduceIte, powerLength?_append delimited]

/-- A number ends where nothing of a number follows. -/
theorem numberLength?_append (t : Text) : numberLength? (t ++ rest) = numberLength? t := by
  simp only [numberLength?_eq, signLength_append delimited, List.drop_append_of_le_length (signLength_le t),
    wholeLength_append delimited, List.drop_append_of_le_length (wholeLength_le _),
    fractionLength?_append delimited]

end Numbers

section Strings

/-- A string that can be read does not start with a part of an escape that more would make whole. -/
theorem escape_whole {t s : Text} {n : Nat} (read : stringBody? t = some (s, n))
    (short : ∀ a b c d u, t ≠ 0x5c :: 0x75 :: a :: b :: c :: d :: u) (rest u : Text) :
    t ++ rest ≠ 0x5c :: 0x75 :: u := by
  have none : simpleEscape? 0x75 = none := by decide
  match t with
  | [] => cases read
  | [x] =>
    intro same
    obtain ⟨rfl, -⟩ := List.cons.inj same
    cases read
  | x :: y :: t =>
    intro same
    obtain ⟨rfl, second⟩ := List.cons.inj same
    obtain ⟨rfl, -⟩ := List.cons.inj second
    rw [stringBody?, none] at read
    · cases read
    · intro a b c d a' b' c' d' u _ same
      exact short a b c d _ (by rw [same])
    · intro a b c d u _ same
      exact short a b c d u (by rw [same])

theorem stringBody?_append {t s : Text} {n : Nat} (read : stringBody? t = some (s, n)) (rest : Text) :
    n ≤ t.length ∧ stringBody? (t ++ rest) = some (s, n) := by
  fun_induction stringBody? t generalizing s n with
  | case2 t =>
    cases read
    exact ⟨by simp, by simp [stringBody?]⟩
  | case5 a b c d a' b' c' d' t high first lead low second trail code =>
    rename_i ih
    obtain ⟨⟨r, m⟩, inner, same⟩ := Option.map_eq_some_iff.mp read
    obtain ⟨within, longer⟩ := ih inner
    obtain ⟨rfl, rfl⟩ := Prod.mk.inj same
    refine ⟨by simp only [List.length_cons]; omega, ?_⟩
    simp only [List.cons_append, stringBody?, first, lead, second, trail, longer, ↓reduceIte, Option.map_some]
    rfl
  | case8 a b c d a' b' c' d' t high first lead trail ih =>
    obtain ⟨⟨r, m⟩, inner, ⟨⟩⟩ := Option.map_eq_some_iff.mp read
    obtain ⟨within, longer⟩ := ih inner
    refine ⟨by simp only [List.length_cons] at within ⊢; omega, ?_⟩
    simp only [List.cons_append] at longer ⊢
    rw [stringBody?]
    simp only [first, lead, trail, longer, Option.map_some]
    rfl
  | case11 a b c d t short code first plain ih =>
    obtain ⟨⟨r, m⟩, inner, ⟨⟩⟩ := Option.map_eq_some_iff.mp read
    obtain ⟨within, longer⟩ := ih inner
    refine ⟨by simp only [List.length_cons]; omega, ?_⟩
    simp only [List.cons_append]
    rw [stringBody?]
    · simp only [first, plain, longer, Option.map_some]
      rfl
    · intro a' b' c' d' u whole
      exact escape_whole inner (fun a b c d u same => short a b c d u same) rest _ whole
  | case12 b t _ short e escape ih =>
    obtain ⟨⟨r, m⟩, inner, ⟨⟩⟩ := Option.map_eq_some_iff.mp read
    obtain ⟨within, longer⟩ := ih inner
    have other : b ≠ 0x75 := by
      rintro rfl
      have none : simpleEscape? 0x75 = none := by decide
      rw [none] at escape
      cases escape
    refine ⟨by simp only [List.length_cons]; omega, ?_⟩
    simp only [List.cons_append]
    rw [stringBody?]
    · simp only [escape, longer, Option.map_some]
    · intro _ _ _ _ _ _ _ _ _ same
      exact absurd same other
    · intro _ _ _ _ _ same
      exact absurd same other
  | case15 b t quote _ _ lone plain ih =>
    obtain ⟨⟨r, m⟩, inner, ⟨⟩⟩ := Option.map_eq_some_iff.mp read
    obtain ⟨within, longer⟩ := ih inner
    refine ⟨by simp only [List.length_cons]; omega, ?_⟩
    have other : b ≠ 0x5c := by
      rintro rfl
      exact plain rfl
    simp only [List.cons_append]
    rw [stringBody?]
    · simp only [plain, longer, Option.map_some]
      rfl
    · exact quote
    · intro _ _ _ _ _ _ _ _ _ same
      exact absurd same other
    · intro _ _ _ _ _ same
      exact absurd same other
    · intro _ _ same
      exact absurd same other
  | _ => cases read

end Strings

section Tokens

/-- A text starts with a token, wherever it stands, and goes on with another text. -/
def TokenNext (t : Text) (token : Token) (rest : Text) : Prop :=
  ∀ o, ∃ o', expectToken ⟨o, t⟩ = .ok (token, ⟨o', rest⟩)

variable {t rest gap : Text} {b : UInt8} {token : Token}

theorem expects_of_next (size : Nat) (next : ∀ o, nextToken ⟨o, t⟩ = (some token, ⟨o + size, rest⟩)) :
    TokenNext t token rest := by
  intro o
  exact ⟨o + size, by rw [expectToken, next]⟩

theorem next_of_expect {o : Nat} {c : Cursor} (expected : expectToken ⟨o, t⟩ = .ok (token, c)) :
    nextToken ⟨o, t⟩ = (some token, c) := by
  unfold expectToken at expected
  split at expected
  · rename_i next
    cases expected
    exact next
  · cases expected

/-- Blanks before a token are passed. -/
theorem expects_blanks (blanks : ∀ x ∈ gap, isSpace x = true) (expects : TokenNext t token rest) :
    TokenNext (gap ++ t) token rest := by
  intro o
  obtain ⟨o', expected⟩ := expects (o + gap.length)
  have same : nextToken ⟨o, gap ++ t⟩ = nextToken ⟨o + gap.length, t⟩ := by
    have reached : Cursor.forward ⟨o, gap ++ t⟩ ((gap ++ t).takeWhile isSpace).length =
        Cursor.forward ⟨o + gap.length, t⟩ (t.takeWhile isSpace).length := by
      rw [Cursor.forward, Cursor.forward, List.takeWhile_append_of_pos blanks, List.length_append,
        List.drop_length_add_append, Nat.add_assoc]
    unfold nextToken
    dsimp only
    rw [reached]
  refine ⟨o', ?_⟩
  rw [expectToken, same]
  exact expected

theorem expects_punctuation (sign : isPunctuation b = true) (t : Text) : TokenNext (b :: t) (.punctuation b) t := by
  have shown : isSpace b = false := space_apart rfl sign
  refine expects_of_next 1 fun o => ?_
  simp [nextToken, Cursor.forward, shown, sign]

/-- What starts with a quote is a string or no token. -/
theorem next_quote (o : Nat) (t : Text) :
    (∀ s n, stringBody? t = some (s, n) →
      nextToken ⟨o, 0x22 :: t⟩ = (some (.string s), ⟨o + (n + 1), t.drop n⟩)) ∧
    (stringBody? t = none → (nextToken ⟨o, 0x22 :: t⟩).1 = none) := by
  have quoted : nextToken ⟨o, 0x22 :: t⟩ = readString ⟨o, 0x22 :: t⟩ := rfl
  rw [quoted]
  constructor
  · intro s n body
    simp only [readString, List.drop_succ_cons, List.drop_zero, body, Cursor.forward]
  · intro none
    simp only [readString, List.drop_succ_cons, List.drop_zero, none]
    split <;> rfl

/-- What starts with a byte of a number is a number or no token. -/
theorem next_numeric (numeric : isNumeric b = true) (o : Nat) (t : Text) :
    nextToken ⟨o, b :: t⟩ = (numberLength? (b :: t)).elim (none, ⟨o, b :: t⟩) fun n =>
      (some (.number ((b :: t).take n)), ⟨o + n, (b :: t).drop n⟩) := by
  have shown : isSpace b = false := space_apart rfl numeric
  have plain : isPunctuation b = false := punctuation_apart rfl numeric
  have other {x : UInt8} (off : isNumeric x = false) : (b == x) = false := by
    rw [beq_eq_false_iff_ne]
    rintro rfl
    rw [off] at numeric
    cases numeric
  simp only [nextToken, Cursor.forward, List.takeWhile_cons, shown, plain, other (x := 0x74) rfl,
    other (x := 0x66) rfl, other (x := 0x6e) rfl, other (x := 0x22) rfl, Bool.false_eq_true, ↓reduceIte,
    List.length_nil, Nat.add_zero, List.drop_zero]
  cases numberLength? (b :: t) <;> rfl

/-- What a text that is read starts with, and where the reading ends. -/
theorem parse_ok {src : Text} {v : Json} (parsed : parse src = .ok v) :
    ∃ first c c', nextToken ⟨0, src⟩ = (some first, c) ∧
      read (2 * src.length + 2) [] (.value .top first) c = .ok (v, c') ∧ c'.rest.all isSpace = true := by
  unfold parse at parsed
  cases expected : expectToken ⟨0, src⟩ with
  | error e =>
    rw [expected] at parsed
    cases parsed
  | ok found =>
    obtain ⟨first, c⟩ := found
    rw [expected] at parsed
    refine ⟨first, c, ?_⟩
    cases got : read (2 * src.length + 2) [] (.value .top first) c with
    | error e =>
      simp only [bind, Except.bind, got] at parsed
      cases parsed
    | ok result =>
      obtain ⟨w, c'⟩ := result
      simp only [bind, Except.bind, got] at parsed
      split at parsed
      · rename_i blank
        cases parsed
        exact ⟨c', next_of_expect expected, rfl, blank⟩
      · cases parsed

theorem string_expects {s : Text} (parsed : parse (stringText s) = .ok (.string s)) (rest : Text) :
    TokenNext (stringText s ++ rest) (.string s) rest := by
  obtain ⟨first, c, c', next, got, blank⟩ := parse_ok parsed
  -- The literal is a quote and a body that ends in a quote.
  obtain ⟨inner, spelt⟩ : ∃ inner : Text, stringText s = 0x22 :: (inner ++ [0x22]) := ⟨_, rfl⟩
  rw [spelt] at next ⊢
  cases body : stringBody? (inner ++ [0x22]) with
  | none =>
    have none := (next_quote 0 (inner ++ [0x22])).2 body
    rw [next] at none
    cases none
  | some result =>
    obtain ⟨r, n⟩ := result
    rw [(next_quote 0 (inner ++ [0x22])).1 r n body] at next
    cases next
    cases got
    obtain ⟨within, longer⟩ := stringBody?_append body rest
    have whole : n = (inner ++ [0x22]).length := by
      refine Nat.le_antisymm within (Nat.not_lt.mp fun less => ?_)
      rw [List.length_append, List.length_singleton] at less
      rw [List.drop_append_of_le_length (Nat.le_of_lt_succ less), List.all_append, Bool.and_eq_true] at blank
      cases blank.2
    refine expects_of_next (n + 1) fun o => ?_
    rw [List.cons_append, (next_quote o _).1 s n longer, whole, List.drop_left]

/-- A byte of a number is no white space. -/
theorem numeric_none {t : Text} (numeric : ∀ x ∈ t, isNumeric x = true) (blank : t.all isSpace = true) : t = [] := by
  cases t with
  | nil => rfl
  | cons b t =>
    have shown : isSpace b = false := space_apart rfl (numeric b List.mem_cons_self)
    rw [List.all_cons, shown] at blank
    cases blank

theorem number_expects {d : Decimal} (parsed : parse d.toText = .ok (.number d)) :
    (∀ rest, Delimited rest → TokenNext (d.toText ++ rest) (.number d.toText) rest) ∧
      Decimal.ofText d.toText = .ok d := by
  obtain ⟨first, c, c', next, got, blank⟩ := parse_ok parsed
  have numeric := decimal_numeric d
  generalize d.toText = w at next got numeric ⊢
  cases w with
  | nil => cases next
  | cons b t =>
    have starts := numeric b List.mem_cons_self
    cases length : numberLength? (b :: t) with
    | none =>
      rw [next_numeric starts, length] at next
      cases next
    | some n =>
      rw [next_numeric starts, length] at next
      obtain ⟨same, rfl⟩ := Prod.mk.inj next
      obtain rfl := Option.some.inj same
      rw [read] at got
      dsimp only at got
      split at got
      · rename_i d' decimal
        cases got
        have within := numberLength?_le length
        -- Only blanks may follow the number, and it has none.
        have none : (b :: t).drop n = [] := numeric_none (fun x member => numeric x (List.mem_of_mem_drop member)) blank
        have whole : n = (b :: t).length := Nat.le_antisymm within (List.drop_eq_nil_iff.mp none)
        rw [whole, List.take_length] at decimal
        refine ⟨fun rest delimited => expects_of_next n fun o => ?_, decimal⟩
        have longer : numberLength? (b :: (t ++ rest)) = some n := by
          rw [← List.cons_append, numberLength?_append delimited, length]
        rw [List.cons_append, next_numeric starts, longer, Option.elim_some, ← List.cons_append, whole, List.take_left,
          List.drop_left]
      · cases got

end Tokens

section Members

variable {name : Text} {v : Json} {members : List (Text × Json)}

theorem before_asymm {s t : Text} (first : before s t = true) : before t s = false := by
  induction s generalizing t with
  | nil =>
    cases t with
    | nil => cases first
    | cons b t => rfl
  | cons a s ih =>
    cases t with
    | nil => cases first
    | cons b t =>
      simp only [before, Bool.or_eq_true, Bool.and_eq_true, decide_eq_true_eq, beq_iff_eq, Bool.or_eq_false_iff,
        Bool.and_eq_false_iff, decide_eq_false_iff_not, beq_eq_false_iff_ne] at first ⊢
      rcases first with less | ⟨rfl, later⟩
      · exact ⟨UInt8.lt_asymm less, .inl (UInt8.ne_of_lt less).symm⟩
      · exact ⟨UInt8.lt_irrefl a, .inr (ih later)⟩

/-- A member whose name comes after the others is put at the end. -/
theorem insert_last (last : ∀ m ∈ members, before m.1 name = true) :
    insert name v members = members ++ [(name, v)] := by
  induction members with
  | nil => rfl
  | cons m members ih =>
    obtain ⟨n, w⟩ := m
    have earlier : before n name = true := last (n, w) List.mem_cons_self
    have other : n ≠ name := by
      rintro rfl
      have never := before_asymm earlier
      rw [earlier] at never
      cases never
    rw [insert, if_neg other, if_neg (by simp [before_asymm earlier]),
      ih fun m member => last m (List.mem_cons_of_mem _ member)]
    rfl

theorem insert_sorted (done : List (Text × Json))
    (sorted : (done ++ members).Pairwise fun m n => before m.1 n.1 = true) :
    members.foldl (fun sorted m => insert m.1 m.2 sorted) done = done ++ members := by
  induction members generalizing done with
  | nil => exact (List.append_nil done).symm
  | cons m members ih =>
    have last : ∀ n ∈ done, before n.1 m.1 = true := fun n member =>
      (List.pairwise_append.mp sorted).2.2 n member m List.mem_cons_self
    have split : done ++ m :: members = done ++ [m] ++ members := by simp
    rw [split] at sorted ⊢
    rw [List.foldl_cons, insert_last last]
    exact ih (done ++ [m]) sorted

/-- Members that are sorted by name make up their object. -/
theorem ofMembers_sorted (sorted : members.Pairwise fun m n => before m.1 n.1 = true) :
    ofMembers members = .object members :=
  congrArg Json.object (insert_sorted [] sorted)

end Members

section Reading

mutual

/-- A value whose leaves and names can be read from their own texts, and whose members are sorted by name. -/
def Readable : Json → Prop
  | .object members => (members.Pairwise fun m n => before m.1 n.1 = true) ∧ ReadableMembers members
  | .array elements => ReadableElements elements
  | v => parse v.leafText = .ok v

/-- Elements that can be read. -/
def ReadableElements : List Json → Prop
  | [] => True
  | v :: rest => Readable v ∧ ReadableElements rest

/-- Members that can be read. -/
def ReadableMembers : List (Text × Json) → Prop
  | [] => True
  | (name, v) :: rest => parse (stringText name) = .ok (.string name) ∧ Readable v ∧ ReadableMembers rest

end

variable {fuel : Nat} {containers : List Bool} {place : Place} {c c' last end' : Cursor} {first t : Token} {v : Json}

theorem read_array_empty (closes : expectToken c = .ok (.punctuation 0x5d, c')) :
    read (fuel + 1) containers (.value place (.punctuation 0x5b)) c = .ok (.array [], c') := by
  rw [read]
  simp only [closes, bind, Except.bind]
  rfl

theorem read_array (opens : expectToken c = .ok (t, c')) (more : t ≠ .punctuation 0x5d) :
    read (fuel + 1) containers (.value place (.punctuation 0x5b)) c =
      read fuel (containers ++ [false]) (.elements []) c := by
  rw [read]
  simp only [opens, bind, Except.bind, more]
  rfl

theorem read_object_empty (closes : expectToken c = .ok (.punctuation 0x7d, c')) :
    read (fuel + 1) containers (.value place (.punctuation 0x7b)) c = .ok (.object [], c') := by
  rw [read]
  simp only [closes, bind, Except.bind]
  rfl

theorem read_object (opens : expectToken c = .ok (t, c')) (more : t ≠ .punctuation 0x7d) :
    read (fuel + 1) containers (.value place (.punctuation 0x7b)) c =
      read fuel (containers ++ [true]) (.members []) c := by
  rw [read]
  simp only [opens, bind, Except.bind, more]
  rfl

theorem read_element {done : List Json} (starts : expectToken c = .ok (first, c')) (more : first ≠ .punctuation 0x5d)
    (element : read fuel containers (.value .element first) c' = .ok (v, last)) :
    (expectToken last = .ok (.punctuation 0x2c, end') → read (fuel + 1) containers (.elements done) c =
      read fuel containers (.elements (v :: done)) end') ∧
    (expectToken last = .ok (.punctuation 0x5d, end') → read (fuel + 1) containers (.elements done) c =
      .ok (.array (v :: done).reverse, end')) := by
  constructor <;> intro ends <;> rw [read] <;> simp only [starts, element, ends, bind, Except.bind, more] <;> rfl

theorem read_member {name : Text} {colon : Cursor} {done : List (Text × Json)}
    (key : expectToken c = .ok (.string name, c')) (divides : expectToken c' = .ok (.punctuation 0x3a, colon))
    {value : Cursor} (starts : expectToken colon = .ok (first, value))
    (member : read fuel containers (.value .member first) value = .ok (v, last)) :
    (expectToken last = .ok (.punctuation 0x2c, end') → read (fuel + 1) containers (.members done) c =
      read fuel containers (.members ((name, v) :: done)) end') ∧
    (expectToken last = .ok (.punctuation 0x7d, end') → read (fuel + 1) containers (.members done) c =
      .ok (ofMembers ((name, v) :: done).reverse, end')) := by
  constructor <;> intro ends <;> rw [read] <;> simp only [key, divides, starts, member, ends, bind, Except.bind] <;> rfl

/-- A value without parts. -/
def Leaf (v : Json) : Prop := (∀ vs, v ≠ .array vs) ∧ ∀ ms, v ≠ .object ms

/-- A leaf is read from one token, which its text is up to a delimiter. -/
theorem leaf_token (leaf : Leaf v) (readable : parse v.leafText = .ok v) :
    ∃ token, (∀ rest, Delimited rest → TokenNext (v.leafText ++ rest) token rest) ∧ (∀ b, token ≠ .punctuation b) ∧
      ∀ fuel containers place c, read (fuel + 1) containers (.value place token) c = .ok (v, c) := by
  cases v with
  | null => exact ⟨.null, fun rest _ => expects_of_next 4 fun o => rfl, by simp, fun _ _ _ _ => rfl⟩
  | bool b =>
    cases b with
    | false =>
      exact ⟨.bool false, fun rest _ => expects_of_next 5 fun o => rfl, by simp, fun _ _ _ _ => rfl⟩
    | true =>
      exact ⟨.bool true, fun rest _ => expects_of_next 4 fun o => rfl, by simp, fun _ _ _ _ => rfl⟩
  | number d =>
    obtain ⟨expects, decimal⟩ := number_expects readable
    refine ⟨.number d.toText, expects, by simp, fun fuel containers place c => ?_⟩
    rw [read]
    simp only [decimal]
  | string s => exact ⟨.string s, fun rest _ => string_expects readable rest, by simp, fun _ _ _ _ => rfl⟩
  | array vs => exact absurd rfl (leaf.1 vs)
  | object ms => exact absurd rfl (leaf.2 ms)

end Reading

section Values

variable {ws : List Text} {w t : Text} {b : UInt8} {fuel : Nat} {containers : List Bool} {place : Place}

/-- Words that start with a structural character, if there are any. -/
def StructuralFirst (ws : List Text) : Prop := ∀ w, ws.head? = some w → ∃ b u, w = b :: u ∧ isPunctuation b = true

theorem ends_cons (sign : isPunctuation b = true) (ws : List Text) : StructuralFirst ([b] :: ws) := by
  intro w first
  cases first
  exact ⟨b, [], rfl, sign⟩

theorem isSpace_of_isBlank (blank : isBlank b = true) : isSpace b = true := by
  rw [isSpace, ← isBlank, blank, Bool.true_or]

theorem spaced_delimited (ends : StructuralFirst ws) (spaced : WordsSpaced ws t) : Delimited t := by
  intro b starts
  cases spaced with
  | nil => cases starts
  | blank blank _ =>
    cases starts
    exact .inl (isSpace_of_isBlank blank)
  | word w _ =>
    obtain ⟨x, u, rfl, sign⟩ := ends w rfl
    cases starts
    exact .inr sign

theorem spaced_length (spaced : WordsSpaced ws t) : ws.flatten.length ≤ t.length := by
  induction spaced with
  | nil => exact Nat.le_refl 0
  | blank _ _ ih => exact Nat.le_succ_of_le ih
  | word w _ ih =>
    rw [List.flatten_cons, List.length_append, List.length_append]
    omega

/-- The first word is the next token. -/
theorem spaced_expects {token : Token} (spaced : WordsSpaced (w :: ws) t)
    (expects : ∀ rest, WordsSpaced ws rest → TokenNext (w ++ rest) token rest) :
    ∃ rest, TokenNext t token rest ∧ WordsSpaced ws rest := by
  obtain ⟨lead, rest, rfl, blanks, later⟩ := spaced_cons spaced
  exact ⟨rest, expects_blanks (fun b member => isSpace_of_isBlank (blanks b member)) (expects rest later), later⟩

theorem spaced_punctuation (sign : isPunctuation b = true) (spaced : WordsSpaced ([b] :: ws) t) :
    ∃ rest, TokenNext t (.punctuation b) rest ∧ WordsSpaced ws rest :=
  spaced_expects spaced fun rest _ => expects_punctuation sign rest

/-- A value is read from a text, whatever it stands in, and some words are left. -/
def ValueReads (fuel : Nat) (v : Json) (t : Text) (ws : List Text) : Prop :=
  ∀ o containers place, ∃ first c c', expectToken ⟨o, t⟩ = .ok (first, c) ∧
    (first ≠ .punctuation 0x5d ∧ first ≠ .punctuation 0x7d) ∧
    read fuel containers (.value place first) c = .ok (v, c') ∧ WordsSpaced ws c'.rest

theorem leaf_reads {v : Json} (leaf : Leaf v) (readable : parse v.leafText = .ok v) (ends : StructuralFirst ws)
    (spaced : WordsSpaced (v.leafText :: ws) t) : ValueReads (fuel + 1) v t ws := by
  obtain ⟨token, expects, plain, got⟩ := leaf_token leaf readable
  obtain ⟨rest, next, later⟩ :=
    spaced_expects spaced fun rest later => expects rest (spaced_delimited ends later)
  intro o containers place
  obtain ⟨o', expected⟩ := next o
  exact ⟨token, _, _, expected, ⟨plain _, plain _⟩, got fuel containers place _, later⟩

/-- Brackets without anything between them are read as a value of their own. -/
theorem empty_reads {v : Json} {left right : UInt8} (signs : isPunctuation left = true ∧ isPunctuation right = true)
    (opening : left ≠ 0x5d ∧ left ≠ 0x7d)
    (got : ∀ containers place c c', expectToken c = .ok (.punctuation right, c') →
      read (fuel + 1) containers (.value place (.punctuation left)) c = .ok (v, c'))
    (spaced : WordsSpaced (([left] ++ [right]) :: ws) t) : ValueReads (fuel + 1) v t ws := by
  obtain ⟨rest, opens, later⟩ := spaced_punctuation signs.1 (spaced_split spaced)
  obtain ⟨last, closes, after⟩ := spaced_punctuation signs.2 later
  intro o containers place
  obtain ⟨o', opened⟩ := opens o
  obtain ⟨o'', closed⟩ := closes o'
  exact ⟨_, _, _, opened, by simpa using opening, got containers place _ _ closed, after⟩

theorem array_words (v : Json) (vs : List Json) :
    valueWords (.array (v :: vs)) = [0x5b] :: (joined [0x2c] (elementWords (v :: vs)) ++ [[0x5d]]) := by
  rw [valueWords, enclosed, if_neg (by rw [elementWords]; simp), List.cons_append]

theorem elements_words (v u : Json) (vs : List Json) :
    joined [0x2c] (elementWords (v :: u :: vs)) = valueWords v ++ [0x2c] :: joined [0x2c] (elementWords (u :: vs)) := by
  rw [elementWords, elementWords]
  rfl

theorem object_words (m : Text × Json) (ms : List (Text × Json)) :
    valueWords (.object (m :: ms)) = [0x7b] :: (joined [0x2c] (memberWords (m :: ms)) ++ [[0x7d]]) := by
  rw [valueWords, enclosed, if_neg (by rw [memberWords]; simp), List.cons_append]

theorem members_words (name : Text) (v : Json) (m : Text × Json) (ms : List (Text × Json)) :
    joined [0x2c] (memberWords ((name, v) :: m :: ms)) =
      (stringText name ++ [0x3a]) :: (valueWords v ++ [0x2c] :: joined [0x2c] (memberWords (m :: ms))) := by
  rw [memberWords, memberWords]
  rfl

/-- The name of a member is read, and the colon after it. -/
theorem name_expects {name : Text} (parsed : parse (stringText name) = .ok (.string name))
    (spaced : WordsSpaced ((stringText name ++ [0x3a]) :: ws) t) (o : Nat) :
    ∃ c c', expectToken ⟨o, t⟩ = .ok (.string name, c) ∧ expectToken c = .ok (.punctuation 0x3a, c') ∧
      WordsSpaced ws c'.rest := by
  obtain ⟨rest, key, later⟩ := spaced_expects (spaced_split spaced) fun rest _ => string_expects parsed rest
  obtain ⟨last, colon, after⟩ := spaced_punctuation (by decide) later
  obtain ⟨o', named⟩ := key o
  obtain ⟨o'', divided⟩ := colon o'
  exact ⟨_, _, named, divided, after⟩

mutual

theorem value_reads : ∀ (v : Json) (fuel : Nat) {ws : List Text} {t : Text}, Readable v → StructuralFirst ws →
    WordsSpaced (valueWords v ++ ws) t → 2 * (valueWords v).flatten.length < fuel → ValueReads fuel v t ws
  | .null, fuel + 1, ws, t, readable, ends, spaced, _ => leaf_reads ⟨by simp, by simp⟩ readable ends spaced
  | .bool b, fuel + 1, ws, t, readable, ends, spaced, _ => leaf_reads ⟨by simp, by simp⟩ readable ends spaced
  | .number d, fuel + 1, ws, t, readable, ends, spaced, _ => leaf_reads ⟨by simp, by simp⟩ readable ends spaced
  | .string s, fuel + 1, ws, t, readable, ends, spaced, _ => leaf_reads ⟨by simp, by simp⟩ readable ends spaced
  | .array [], fuel + 1, ws, t, _, _, spaced, _ =>
    empty_reads (by decide) (by decide) (fun _ _ _ _ closes => read_array_empty closes) spaced
  | .array (v :: vs), fuel + 1, ws, t, readable, _, spaced, room => by
    rw [array_words, List.cons_append, List.append_assoc] at spaced
    rw [array_words, List.flatten_cons, List.flatten_append] at room
    simp only [List.length_append, List.length_singleton, List.flatten_singleton] at room
    obtain ⟨rest, opens, later⟩ := spaced_punctuation (by decide) spaced
    intro o containers place
    obtain ⟨o', opened⟩ := opens o
    -- What follows the bracket is looked at twice: to see that there is an element, and to read it.
    obtain ⟨first, c, c', starts, more, got, after⟩ :=
      elements_read v vs fuel readable later (by omega) o' (containers ++ [false]) []
    exact ⟨_, _, c', opened, by simp, (read_array starts more).trans got, after⟩
  | .object [], fuel + 1, ws, t, _, _, spaced, _ =>
    empty_reads (by decide) (by decide) (fun _ _ _ _ closes => read_object_empty closes) spaced
  | .object (m :: ms), fuel + 1, ws, t, readable, _, spaced, room => by
    rw [object_words, List.cons_append, List.append_assoc] at spaced
    rw [object_words, List.flatten_cons, List.flatten_append] at room
    simp only [List.length_append, List.length_singleton, List.flatten_singleton] at room
    obtain ⟨rest, opens, later⟩ := spaced_punctuation (by decide) spaced
    intro o containers place
    obtain ⟨o', opened⟩ := opens o
    obtain ⟨first, c, c', starts, more, got, after⟩ :=
      members_read m ms fuel readable.2 later (by omega) o' (containers ++ [true]) []
    rw [List.reverse_nil, List.nil_append, ofMembers_sorted readable.1] at got
    exact ⟨_, _, c', opened, by simp, (read_object starts more).trans got, after⟩

theorem elements_read : ∀ (v : Json) (vs : List Json) (fuel : Nat) {ws : List Text} {t : Text},
    ReadableElements (v :: vs) → WordsSpaced (joined [0x2c] (elementWords (v :: vs)) ++ [0x5d] :: ws) t →
    2 * (joined [0x2c] (elementWords (v :: vs))).flatten.length + 1 < fuel → ∀ o containers done,
    ∃ first c c', expectToken ⟨o, t⟩ = .ok (first, c) ∧ first ≠ .punctuation 0x5d ∧
      read fuel containers (.elements done) ⟨o, t⟩ = .ok (.array (done.reverse ++ v :: vs), c') ∧ WordsSpaced ws c'.rest
  | v, [], fuel + 1, ws, t, readable, spaced, room, o, containers, done => by
    rw [elementWords, elementWords, joined] at spaced room
    obtain ⟨first, c, c', starts, plain, got, later⟩ :=
      value_reads v fuel readable.1 (ends_cons (by decide) ws) spaced (by omega) o containers .element
    obtain ⟨rest, closes, after⟩ := spaced_punctuation (by decide) later
    obtain ⟨o', closed⟩ := closes c'.offset
    refine ⟨first, c, ⟨o', rest⟩, starts, plain.1, ?_, after⟩
    rw [(read_element starts plain.1 got).2 closed, List.reverse_cons]
  | v, u :: vs, fuel + 1, ws, t, readable, spaced, room, o, containers, done => by
    rw [elements_words, List.append_assoc, List.cons_append] at spaced
    rw [elements_words, List.flatten_append, List.flatten_cons] at room
    simp only [List.length_append, List.length_singleton] at room
    obtain ⟨first, c, c', starts, plain, got, later⟩ :=
      value_reads v fuel readable.1 (ends_cons (by decide) _) spaced (by omega) o containers .element
    obtain ⟨rest, comma, after⟩ := spaced_punctuation (by decide) later
    obtain ⟨o', divided⟩ := comma c'.offset
    obtain ⟨_, _, last, _, _, others, left⟩ :=
      elements_read u vs fuel readable.2 after (by omega) o' containers (v :: done)
    refine ⟨first, c, last, starts, plain.1, ?_, left⟩
    rw [(read_element starts plain.1 got).1 divided, others, List.reverse_cons, List.append_assoc]
    rfl

theorem members_read : ∀ (m : Text × Json) (ms : List (Text × Json)) (fuel : Nat) {ws : List Text} {t : Text},
    ReadableMembers (m :: ms) → WordsSpaced (joined [0x2c] (memberWords (m :: ms)) ++ [0x7d] :: ws) t →
    2 * (joined [0x2c] (memberWords (m :: ms))).flatten.length + 1 < fuel → ∀ o containers done,
    ∃ first c c', expectToken ⟨o, t⟩ = .ok (first, c) ∧ first ≠ .punctuation 0x7d ∧
      read fuel containers (.members done) ⟨o, t⟩ = .ok (ofMembers (done.reverse ++ m :: ms), c') ∧
      WordsSpaced ws c'.rest
  | (name, v), [], fuel + 1, ws, t, readable, spaced, room, o, containers, done => by
    rw [memberWords, memberWords, joined] at spaced room
    rw [List.flatten_cons, List.length_append] at room
    obtain ⟨key, colon, named, divided, value⟩ := name_expects readable.1 spaced o
    obtain ⟨first, c, c', starts, -, got, later⟩ :=
      value_reads v fuel readable.2.1 (ends_cons (by decide) ws) value (by omega) colon.offset containers
        .member
    obtain ⟨rest, closes, after⟩ := spaced_punctuation (by decide) later
    obtain ⟨o', closed⟩ := closes c'.offset
    refine ⟨_, key, ⟨o', rest⟩, named, by simp, ?_, after⟩
    rw [(read_member named divided starts got).2 closed, List.reverse_cons]
  | (name, v), m :: ms, fuel + 1, ws, t, readable, spaced, room, o, containers, done => by
    rw [members_words, List.cons_append, List.append_assoc, List.cons_append] at spaced
    rw [members_words, List.flatten_cons, List.flatten_append, List.flatten_cons] at room
    simp only [List.length_append, List.length_singleton] at room
    obtain ⟨key, colon, named, divided, value⟩ := name_expects readable.1 spaced o
    obtain ⟨first, c, c', starts, -, got, later⟩ :=
      value_reads v fuel readable.2.1 (ends_cons (by decide) _) value (by omega) colon.offset containers
        .member
    obtain ⟨rest, comma, after⟩ := spaced_punctuation (by decide) later
    obtain ⟨o', separated⟩ := comma c'.offset
    obtain ⟨_, _, last, _, _, others, left⟩ :=
      members_read m ms fuel readable.2.2 after (by omega) o' containers ((name, v) :: done)
    refine ⟨_, key, last, named, by simp, ?_, left⟩
    rw [(read_member named divided starts got).1 separated, others, List.reverse_cons, List.append_assoc]
    rfl

end

/-- A value is read back from its words, whatever blanks stand between them. -/
theorem parse_spaced {v : Json} {t : Text} (readable : Readable v) (spaced : WordsSpaced (valueWords v) t) :
    parse t = .ok v := by
  have size := spaced_length spaced
  have alone : StructuralFirst [] := fun w first => by cases first
  rw [← List.append_nil (valueWords v)] at spaced
  obtain ⟨first, c, c', starts, -, got, left⟩ :=
    value_reads v (2 * t.length + 2) readable alone spaced (by omega) 0 [] .top
  have blank : c'.rest.all isSpace = true := by
    rw [List.all_eq_true]
    exact fun b member => isSpace_of_isBlank (spaced_nil left b member)
  simp only [parse, starts, got, bind, Except.bind, blank]
  rfl

end Values

section Layout

open Layout (Config Doc Printer)
open Layout.Exactness (loadOf)
open Layout.Words (limit)

/-- A value is laid out under every configuration that is accepted, if the columns that it asks for can be
counted. Its compact form is left when the blanks outside string literals are deleted, and it is read back
if its leaves and its names are. -/
theorem layout_keeps_value (v : Json) :
    (∀ (c : Config Int) (start : Printer Int), Printer.ofConfig c = .ok start →
      ∃ out, (v.doc : Doc Int).render c = .ok out ∧ squeeze out = compact v ∧ (Readable v → parse out = .ok v)) ∧
    (∀ (c : Config Int64) (start : Printer Int64), Printer.ofConfig c = .ok start →
      loadOf c.numbers (Layout.Documents.calls c.numbers.withDefaults.unit v.doc) ≤ limit →
      ∃ out, (v.doc : Doc Int64).render c = .ok out ∧ squeeze out = compact v ∧
        (Readable v → parse out = .ok v)) := by
  constructor
  · intro c start accepted
    obtain ⟨out, rendered, spaced⟩ := value_spaced accepted v
    exact ⟨out, rendered, squeeze_value spaced, fun readable => parse_spaced readable spaced⟩
  · intro c start accepted room
    obtain ⟨begun, begins⟩ := Layout.Reformatting.accepted_numbers accepted
    obtain ⟨margin, unit⟩ := Layout.Reformatting.numbers_fits c
    obtain ⟨out, rendered, spaced⟩ := value_spaced begins v
    have same := Layout.Reformatting.render_words begins margin unit (Layout.FrontEnds.shape_parallel v.shape) room
    rw [Layout.Reformatting.numbers_words, ← Json.doc, ← Json.doc, rendered] at same
    exact ⟨out, same, squeeze_value spaced, fun readable => parse_spaced readable spaced⟩

/-- An object with an array in it. -/
def sample : Json := .object [("a", .array [.number ⟨true, 15, -1⟩, .string "x y\n"]), ("b", .null), ("c", .array [])]

theorem layout_keeps_value_nested :
    Readable sample ∧ compact sample = ("\x7b\"a\":[-1.5,\"x y\\n\"],\"b\":null,\"c\":[]\x7d" : Text) ∧
      ∃ out, (sample.doc : Doc Int64).render ⟨1, 4, true, false⟩ = .ok out ∧ squeeze out = compact sample ∧
        parse out = .ok sample := by
  have readable : Readable sample := by
    refine ⟨by decide +kernel, rfl, ⟨rfl, rfl, trivial⟩, rfl, rfl, rfl, trivial, trivial⟩
  have room : loadOf (Config.numbers ⟨1, 4, true, false⟩)
      (Layout.Documents.calls (Config.numbers ⟨1, 4, true, false⟩).withDefaults.unit sample.doc) ≤ limit := by
    decide +kernel
  obtain ⟨out, rendered, squeezed, parsed⟩ := (layout_keeps_value sample).2 ⟨1, 4, true, false⟩ _ rfl room
  exact ⟨readable, by decide +kernel, out, rendered, squeezed, parsed readable⟩

/-- Two levels of indentation that are half of a word each run over it, even where all fits on a line. -/
theorem layout_refuses_value :
    let wide : Config Int64 := ⟨80, 0x4000000000000000, false, false⟩
    let v : Json := .object [("a", .number ⟨false, 1, 0⟩)]
    (∃ p, Printer.ofConfig wide = .ok p) ∧ Readable v ∧
      (v.doc : Doc Int).render wide.numbers = .ok "\x7b\"a\": 1\x7d" ∧
      (v.doc : Doc Int64).render wide = .error (.contract (.indentUnderflow (-0x8000000000000000))) := by
  refine ⟨⟨_, rfl⟩, ⟨by decide +kernel, rfl, rfl, trivial⟩, ?_, ?_⟩
  · decide +kernel
  · decide +kernel

end Layout

end Galley.Json.Reading
