import Galley.Proofs.Lookahead

/-! The discipline of emitting tokens. A raw token that the open groups admit is taken in, and changes them as
the token says. -/
namespace Galley.Layout.Emission
open Extent PageWriting Tracking Lookahead

/-- The open groups, each with the indentation pushed in it, before and after a token that may
stand there. -/
inductive GroupsAdmit : List (List Int) → Token Int → List (List Int) → Prop where
  | text {scopes : List (List Int)} (s : Text) : GroupsAdmit scopes (.text s) scopes
  | lineBreak {scopes : List (List Int)} {b : Break Int} (counted : 0 ≤ b.width) :
      GroupsAdmit scopes (.lineBreak b) scopes
  | groupStart {scopes : List (List Int)} {g : Group Int} (known : ∀ code, g.breaks ≠ .unknown code) :
      GroupsAdmit scopes (.groupStart g) ([] :: scopes)
  | groupEnd {scope outer : List Int} {rest : List (List Int)} :
      GroupsAdmit (scope :: outer :: rest) .groupEnd (outer :: rest)
  | indent {scope : List Int} {rest : List (List Int)} {delta : Int} (more : 0 ≤ delta) :
      GroupsAdmit (scope :: rest) (.indent delta) ((delta :: scope) :: rest)
  | outdent {scope : List Int} {rest : List (List Int)} {delta : Int} :
      GroupsAdmit ((delta :: scope) :: rest) (.indent (-delta)) (scope :: rest)

variable {scopes after : List (List Int)} {t : Token Int} {p q : Printer Int}

variable (admits : GroupsAdmit scopes t after)
include admits

theorem admits_level : level scopes.length t = some after.length := by
  cases admits <;> simp [level]

theorem admits_counted (c : Config Int) : 0 ≤ columns c t := by
  cases admits with
  | text s => exact width_nonneg c s
  | lineBreak counted => exact counted
  | groupStart | groupEnd | indent | outdent => exact Int.le_refl 0

theorem admits_present : t ≠ .missing := by
  rintro rfl
  cases admits

theorem admits_scoped (inside : scopes ≠ []) : after ≠ [] := by
  cases admits <;> simp_all

omit admits

/-- A raw token as it is taken in: the blanks of a hard break count for nothing. -/
def plain : Token Int → Token Int
  | .lineBreak b => .lineBreak (if b.kind = .hard then { b with blank := 0 } else b)
  | t => t

/-- The open groups after a raw token, if it may stand there. -/
def accept (scopes : List (List Int)) : Token Int → Option (List (List Int))
  | .text _ => some scopes
  | .lineBreak b => if b.kind = .hard ∨ 0 ≤ b.blank then some scopes else none
  | .groupStart g =>
    match g.breaks with
    | .unknown _ => none
    | _ => some ([] :: scopes)
  | .groupEnd =>
    match scopes with
    | _ :: outer :: rest => some (outer :: rest)
    | _ => none
  | .indent delta =>
    match scopes with
    | [] => none
    | scope :: rest =>
      if 0 ≤ delta then some ((delta :: scope) :: rest)
      else if scope.head? = some (-delta) then some (scope.tail :: rest)
      else none
  | .missing => none

/-- A whole document keeps the discipline: groups are balanced, every decrease of indentation undoes
the last increase of its group, blanks are not negative and policies are known. -/
def Emittable (ts : List (Token Int)) : Prop :=
  (ts.foldlM accept [[]]).map List.length = some 1

instance (ts : List (Token Int)) : Decidable (Emittable ts) :=
  inferInstanceAs (Decidable (_ = _))

/-- A printer with another token counted and other groups open. -/
def withScopes (p : Printer Int) (scopes : List (List Int)) : Printer Int :=
  { p with scopes := scopes, stats.tokens := p.stats.tokens + 1 }

/-- The emission side of a printer has no part in its layout. -/
theorem steady_aside {n : Nat} (steady : PrinterSteady n p) (scopes : List (List Int)) (stats : Stats)
    (done : Bool) : PrinterSteady n { p with scopes := scopes, stats := stats, done := done } := by
  obtain ⟨v, tracks, waits, depth⟩ := steady
  exact ⟨v, ⟨tracks.le, tracks.buf, tracks.scan, tracks.closed, tracks.left, tracks.right, tracks.positive,
    tracks.forward, tracks.depth, tracks.page, tracks.margin, tracks.shape⟩, waits, depth⟩

theorem steady_withScopes {n : Nat} (steady : PrinterSteady n p) (scopes : List (List Int)) :
    PrinterSteady n (withScopes p scopes) :=
  steady_aside steady scopes _ _

theorem admits_of_accept (admitted : accept scopes t = some after) : GroupsAdmit scopes (plain t) after := by
  cases t with
  | text s => cases admitted; exact .text s
  | lineBreak b =>
    simp only [accept, Option.ite_none_right_eq_some, Option.some.injEq] at admitted
    obtain ⟨counted, rfl⟩ := admitted
    by_cases hard : b.kind = .hard
    · simp only [plain, hard, ↓reduceIte]
      exact .lineBreak (by simp [Break.width, infiniteWidth, Columns.ofNat])
    · simp only [plain, hard, ↓reduceIte]
      exact .lineBreak (by simpa [Break.width, hard] using counted)
  | groupStart g =>
    simp only [accept] at admitted
    split at admitted
    · cases admitted
    · rename_i known
      cases admitted
      exact .groupStart known
  | groupEnd =>
    simp only [accept] at admitted
    split at admitted
    · cases admitted
      exact .groupEnd
    · cases admitted
  | indent delta =>
    simp only [accept] at admitted
    split at admitted
    · cases admitted
    · rename_i scope rest
      split at admitted
      · rename_i more
        cases admitted
        exact .indent more
      · simp only [Option.ite_none_right_eq_some, Option.some.injEq] at admitted
        obtain ⟨top, rfl⟩ := admitted
        cases scope with
        | nil => cases top
        | cons last scope =>
          obtain rfl : delta = -last := by
            simp only [List.head?_cons, Option.some.injEq] at top
            omega
          exact .outdent
  | missing => cases admitted

theorem count_fresh (fresh : p.done = false) :
    p.count = .ok { p with stats.tokens := p.stats.tokens + 1 } := by
  simp [Printer.count, fresh]

/-- A raw token that the open groups accept is taken in. -/
theorem emit_admitted (fresh : p.done = false) (admitted : accept p.scopes t = some after) :
    p.emit t = take (withScopes p after) (plain t) := by
  have counts := count_fresh fresh
  cases t with
  | text s =>
    cases admitted
    simp only [Printer.emit, counts, ok_bind]
    rfl
  | lineBreak b =>
    simp only [accept, Option.ite_none_right_eq_some, Option.some.injEq] at admitted
    obtain ⟨counted, rfl⟩ := admitted
    by_cases hard : b.kind = .hard
    · simp only [Printer.emit, counts, ok_bind, hard, ↓reduceIte, plain]
      rfl
    · have soft : ¬ b.blank < 0 := Int.not_lt.mpr (counted.resolve_left hard)
      simp only [Printer.emit, counts, ok_bind, hard, ↓reduceIte, soft, plain]
      rfl
  | groupStart g =>
    simp only [accept] at admitted
    split at admitted
    · cases admitted
    · rename_i known
      cases admitted
      simp only [Printer.emit, Printer.openGroup, counts, ok_bind]
      rfl
  | groupEnd =>
    simp only [accept] at admitted
    split at admitted
    · rename_i scopes
      cases admitted
      simp only [Printer.emit, Printer.closeGroup, counts, ok_bind, scopes]
      rfl
    · cases admitted
  | indent delta =>
    simp only [accept] at admitted
    split at admitted
    · cases admitted
    · rename_i scope rest scopes
      by_cases more : 0 ≤ delta
      · simp only [more, ↓reduceIte, Option.some.injEq] at admitted
        subst admitted
        simp only [Printer.emit, more, ↓reduceIte, Printer.pushIndent, counts, ok_bind,
          Int.not_lt.mpr more, scopes]
        rfl
      · simp only [more, ↓reduceIte, Option.ite_none_right_eq_some, Option.some.injEq] at admitted
        obtain ⟨top, rfl⟩ := admitted
        cases scope with
        | nil => cases top
        | cons last scope =>
          obtain rfl : last = -delta := by simpa using top
          simp only [Printer.emit, more, ↓reduceIte, scopes, List.head?_cons, Option.bind_some,
            Printer.popIndent, counts, ok_bind, Int.neg_neg]
          rfl
  | missing => cases admitted

end Galley.Layout.Emission
