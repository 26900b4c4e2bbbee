import Galley.Proofs.Indentation

/-! The discipline of calling a printer, said of the calls alone: where a document stands after some
calls, and which calls offend there. A printer refuses every call that offends, and from any other
it takes in the one token that the call stands for. So every call that it answers ends the document or hands
it one token that its open groups admit. -/
namespace Galley.Layout.Discipline
open PageWriting Lookahead Emission Indentation

/-- Where a document stands: the open groups, innermost first and the document itself last, each with
the indentation pushed in it and not undone, last first; and whether the document has ended. -/
structure Standing where
  scopes : List (List Int)
  ended : Bool
  deriving DecidableEq, Repr

namespace Standing

/-- Nothing has been emitted. -/
def initial : Standing := ⟨[[]], false⟩

/-- The number of open groups. -/
def depth (s : Standing) : Nat := s.scopes.length - 1

/-- The last indentation of the innermost group that has not been undone. -/
def active (s : Standing) : Option Int := s.scopes.head?.bind List.head?

def push (s : Standing) (delta : Int) : Standing := { s with scopes := s.scopes.modifyHead (delta :: ·) }

def pop (s : Standing) : Standing := { s with scopes := s.scopes.modifyHead List.tail }

/-- Where a document stands after a call. -/
def after (s : Standing) : Call Int → Standing
  | .groupStart _ _ | .alignStart _ | .emit (.groupStart _) => { s with scopes := [] :: s.scopes }
  | .groupEnd | .emit .groupEnd => { s with scopes := s.scopes.tail }
  | .indent delta => s.push delta
  | .outdent => s.pop
  | .emit (.indent delta) => if 0 ≤ delta then s.push delta else s.pop
  | .eof => { s with ended := true }
  | _ => s

/-- Whether a call breaks the discipline. -/
def offends (s : Standing) (k : Call Int) : Bool :=
  s.ended ||
    match k with
    | .text _ | .hardBreak | .trailingComma | .emit (.text _) => false
    | .lineBreak width _ => width < 0
    | .emit (.lineBreak b) => b.kind ≠ .hard ∧ b.blank < 0
    | .groupStart breaks _ | .alignStart breaks => breaks ≠ .consistent ∧ breaks ≠ .inconsistent
    | .emit (.groupStart g) => g.breaks ≠ .consistent ∧ g.breaks ≠ .inconsistent
    | .groupEnd | .emit .groupEnd => s.depth = 0
    | .indent delta => delta < 0
    | .outdent => s.active = none
    | .emit (.indent delta) => delta < 0 ∧ s.active ≠ some (-delta)
    | .emit .missing => true
    | .eof => 0 < s.depth

/-- Whether no call offends where the ones before it have led to. -/
def keeps (s : Standing) : List (Call Int) → Bool
  | [] => true
  | k :: calls => !s.offends k && (s.after k).keeps calls

end Standing

/-- Where a document stands after some calls. -/
def standing (calls : List (Call Int)) : Standing := calls.foldl Standing.after .initial

/-- No call offends where the ones before it have led to. -/
def Disciplined (calls : List (Call Int)) : Prop := Standing.initial.keeps calls = true

instance (calls : List (Call Int)) : Decidable (Disciplined calls) := inferInstanceAs (Decidable (_ = _))

/-- The token that a call stands for. -/
inductive CallHands : Call Int → Token Int → Prop where
  | text (s : Text) : CallHands (.text s) (.text s)
  | lineBreak (width offset : Int) :
      CallHands (.lineBreak width offset) (.lineBreak ⟨if width = 0 then .zero else .space, width, offset, []⟩)
  | hardBreak : CallHands .hardBreak (.lineBreak ⟨.hard, 0, 0, []⟩)
  | trailingComma : CallHands .trailingComma (.lineBreak ⟨.zero, 0, 0, ","⟩)
  | groupStart (breaks : Breaks) (offset : Int) :
      CallHands (.groupStart breaks offset) (.groupStart ⟨breaks, offset, false⟩)
  | alignStart (breaks : Breaks) : CallHands (.alignStart breaks) (.groupStart ⟨breaks, 0, true⟩)
  | groupEnd : CallHands .groupEnd .groupEnd
  | indent (delta : Int) : CallHands (.indent delta) (.indent delta)
  | outdent (delta : Int) : CallHands .outdent (.indent (-delta))
  | emit (t : Token Int) : CallHands (.emit t) (plain t)

/-- The offset that a call gives to a break or to a group. -/
def offsetOf : Call Int → Int
  | .lineBreak _ offset | .groupStart _ offset => offset
  | .emit t => offset t
  | _ => 0

/-- The breaches that only writing can raise. -/
def ofWriting : Breach → Bool
  | .indentUnderflow _ | .groupIndentUnderflow _ | .negativeIndentation _ => true
  | _ => false

variable {p q : Printer Int} {k : Call Int} {t : Token Int} {calls : List (Call Int)}

theorem hands_offset (hands : CallHands k t) : offset t = offsetOf k := by
  cases hands with
  | emit t =>
    cases t with
    | lineBreak b => by_cases hard : b.kind = .hard <;> simp [plain, offset, offsetOf, hard]
    | _ => rfl
  | _ => rfl

theorem standing_concat (calls : List (Call Int)) (k : Call Int) :
    standing (calls ++ [k]) = (standing calls).after k := by
  simp [standing]

theorem after_ended {s : Standing} (more : k ≠ .eof) : (s.after k).ended = s.ended := by
  cases k with
  | eof => exact absurd rfl more
  | emit t =>
    cases t with
    | indent delta =>
      simp only [Standing.after]
      split <;> rfl
    | _ => rfl
  | _ => rfl

theorem keeps_concat (s : Standing) (calls : List (Call Int)) (k : Call Int) :
    s.keeps (calls ++ [k]) = true ↔
      s.keeps calls = true ∧ (calls.foldl Standing.after s).offends k = false := by
  induction calls generalizing s with
  | nil => simp [Standing.keeps]
  | cons j calls ih => simp [Standing.keeps, ih, and_assoc]

theorem disciplined_concat :
    Disciplined (calls ++ [k]) ↔ Disciplined calls ∧ (standing calls).offends k = false :=
  keeps_concat .initial calls k

/-- Where the document of a printer stands. -/
def standingOf (p : Printer Int) : Standing := ⟨p.scopes, p.done⟩

section Refusals

/-- A call is refused before anything is written. -/
def CallRefused (p : Printer Int) (k : Call Int) : Prop := ∃ b, p.call k = breach b ∧ ofWriting b = false

/-- After its end a document takes no call. -/
theorem ended_refuses (ended : p.done = true) (k : Call Int) : CallRefused p k := by
  have refuses : p.count = breach .finished := by simp [Printer.count, ended]
  have finished {next : Printer Int → Except Fault (Printer Int)}
      (same : p.call k = p.count >>= next) : CallRefused p k :=
    ⟨.finished, by rw [same, refuses]; rfl, rfl⟩
  cases k with
  | emit t =>
    cases t with
    | indent delta =>
      by_cases more : 0 ≤ delta
      · have pushes : p.call (.emit (.indent delta)) = p.pushIndent delta := if_pos more
        exact finished pushes
      · by_cases last : (p.scopes.head?.bind List.head?) = some (-delta)
        · have pops : p.call (.emit (.indent delta)) = p.popIndent := by
            simp only [Printer.call, Printer.emit, more, last, ↓reduceIte]
          exact finished pops
        · refine ⟨.unmatchedIndent delta, ?_, rfl⟩
          simp only [Printer.call, Printer.emit, more, last, ↓reduceIte]
          rfl
    | missing => exact ⟨.unknownToken, rfl, rfl⟩
    | text | lineBreak | groupStart | groupEnd => exact finished rfl
  | _ => exact finished rfl

private theorem openGroup_refused {g : Group Int} (fresh : p.done = false)
    (unknown : g.breaks ≠ .consistent ∧ g.breaks ≠ .inconsistent) :
    ∃ code, p.openGroup g = breach (.unknownBreaks code) := by
  obtain ⟨code, policy⟩ : ∃ code, g.breaks = .unknown code := by
    cases policy : g.breaks with
    | consistent => exact absurd policy unknown.1
    | inconsistent => exact absurd policy unknown.2
    | unknown code => exact ⟨code, rfl⟩
  exact ⟨code, by simp only [Printer.openGroup, count_fresh fresh, ok_bind, policy]⟩

private theorem closeGroup_refused (fresh : p.done = false) (top : p.scopes.length - 1 = 0) :
    p.closeGroup = breach .endWithoutStart := by
  simp only [Printer.closeGroup, count_fresh fresh, ok_bind]
  split
  · rename_i scopes
    simp [scopes] at top
  · rfl

/-- A call that offends is refused. -/
theorem offends_refuses (offends : (standingOf p).offends k = true) : CallRefused p k := by
  cases ended : p.done with
  | true => exact ended_refuses ended k
  | false =>
    have counts := count_fresh ended
    simp only [Standing.offends, standingOf, ended, Bool.false_or] at offends
    cases k with
    | text | hardBreak | trailingComma => cases offends
    | lineBreak width offset =>
      have negative := of_decide_eq_true offends
      refine ⟨.negativeBreak width, ?_, rfl⟩
      simp only [Printer.call, counts, ok_bind, negative, ↓reduceIte]
      rfl
    | groupStart breaks offset =>
      obtain ⟨code, refused⟩ := openGroup_refused (g := ⟨breaks, offset, false⟩) ended
        (of_decide_eq_true offends)
      exact ⟨_, refused, rfl⟩
    | alignStart breaks =>
      obtain ⟨code, refused⟩ := openGroup_refused (g := ⟨breaks, 0, true⟩) ended (of_decide_eq_true offends)
      exact ⟨_, refused, rfl⟩
    | groupEnd => exact ⟨_, closeGroup_refused ended (of_decide_eq_true offends), rfl⟩
    | indent delta =>
      have negative := of_decide_eq_true offends
      exact ⟨.negativeIndent delta,
        by simp only [Printer.call, Printer.pushIndent, counts, ok_bind, negative, ↓reduceIte]; rfl, rfl⟩
    | outdent =>
      have none := of_decide_eq_true offends
      refine ⟨.outdentWithoutIndent, ?_, rfl⟩
      simp only [Printer.call, Printer.popIndent, counts, ok_bind]
      split
      · rename_i scopes
        simp [Standing.active, scopes] at none
      · rfl
    | eof =>
      have deep := of_decide_eq_true offends
      refine ⟨.openGroups (p.scopes.length - 1), ?_, rfl⟩
      simp only [Printer.call, Printer.finish, counts, ok_bind]
      exact if_pos deep
    | emit t =>
      cases t with
      | text s => cases offends
      | lineBreak b =>
        obtain ⟨soft, negative⟩ := of_decide_eq_true offends
        exact ⟨.negativeBreak b.blank,
          by simp only [Printer.call, Printer.emit, counts, ok_bind, soft, negative, ↓reduceIte]; rfl, rfl⟩
      | groupStart g =>
        obtain ⟨code, refused⟩ := openGroup_refused ended (of_decide_eq_true offends)
        exact ⟨_, refused, rfl⟩
      | groupEnd => exact ⟨_, closeGroup_refused ended (of_decide_eq_true offends), rfl⟩
      | indent delta =>
        obtain ⟨negative, other⟩ := of_decide_eq_true offends
        have last : (p.scopes.head?.bind List.head?) ≠ some (-delta) := other
        exact ⟨.unmatchedIndent delta,
          by simp only [Printer.call, Printer.emit, Int.not_le.mpr negative, last, ↓reduceIte]; rfl, rfl⟩
      | missing => exact ⟨.unknownToken, rfl, rfl⟩

end Refusals

section Tokens

/-- A call hands over a token that the open groups admit, and with it other open groups. -/
def CallGives (p : Printer Int) (k : Call Int) (after : List (List Int)) : Prop :=
  ∃ t, CallHands k t ∧ GroupsAdmit p.scopes t after ∧ p.call k = take (withScopes p after) t

private theorem openGroup_gives {g : Group Int} (fresh : p.done = false)
    (known : ¬ (g.breaks ≠ .consistent ∧ g.breaks ≠ .inconsistent)) :
    GroupsAdmit p.scopes (.groupStart g) ([] :: p.scopes) ∧
      p.openGroup g = take (withScopes p ([] :: p.scopes)) (.groupStart g) := by
  constructor
  · refine .groupStart ?_
    intro code policy
    simp [policy] at known
  · simp only [Printer.openGroup, count_fresh fresh, ok_bind]
    split
    · rename_i policy
      simp [policy] at known
    · rfl

private theorem closeGroup_gives (fresh : p.done = false) (deep : ¬ p.scopes.length - 1 = 0) :
    GroupsAdmit p.scopes .groupEnd p.scopes.tail ∧
      p.closeGroup = take (withScopes p p.scopes.tail) .groupEnd := by
  match scopes : p.scopes with
  | [] => simp [scopes] at deep
  | [scope] => simp [scopes] at deep
  | scope :: outer :: rest =>
    refine ⟨.groupEnd, ?_⟩
    simp only [Printer.closeGroup, count_fresh fresh, ok_bind, scopes]
    rfl

private theorem pushIndent_gives {delta : Int} (fresh : p.done = false) (inside : p.scopes ≠ [])
    (more : ¬ delta < 0) :
    GroupsAdmit p.scopes (.indent delta) ((standingOf p).push delta).scopes ∧
      p.pushIndent delta = take (withScopes p ((standingOf p).push delta).scopes) (.indent delta) := by
  obtain ⟨scope, rest, scopes⟩ := List.exists_cons_of_ne_nil inside
  simp only [standingOf, Standing.push, scopes, List.modifyHead_cons]
  refine ⟨.indent (Int.not_lt.mp more), ?_⟩
  simp only [Printer.pushIndent, count_fresh fresh, ok_bind, more, ↓reduceIte, scopes]
  rfl

private theorem popIndent_gives {delta : Int} (fresh : p.done = false)
    (last : (standingOf p).active = some delta) :
    GroupsAdmit p.scopes (.indent (-delta)) (standingOf p).pop.scopes ∧
      p.popIndent = take (withScopes p (standingOf p).pop.scopes) (.indent (-delta)) := by
  obtain ⟨scope, innermost, top⟩ := Option.bind_eq_some_iff.mp last
  obtain ⟨rest, scopes⟩ := List.head?_eq_some_iff.mp innermost
  obtain ⟨older, rfl⟩ := List.head?_eq_some_iff.mp top
  have scopes : p.scopes = (delta :: older) :: rest := scopes
  simp only [standingOf, Standing.pop, scopes, List.modifyHead_cons, List.tail_cons]
  refine ⟨.outdent, ?_⟩
  simp only [Printer.popIndent, count_fresh fresh, ok_bind, scopes]
  rfl

/-- The open groups accept a raw token that does not offend. -/
theorem proper_accepted (inside : p.scopes ≠ []) (proper : (standingOf p).offends (.emit t) = false) :
    accept p.scopes t = some ((standingOf p).after (.emit t)).scopes := by
  obtain ⟨_, proper⟩ := Bool.or_eq_false_iff.mp proper
  obtain ⟨scope, rest, scopes⟩ := List.exists_cons_of_ne_nil inside
  cases t with
  | text s => rfl
  | lineBreak b =>
    have wide : b.kind = .hard ∨ 0 ≤ b.blank := by
      have := of_decide_eq_false proper
      grind
    simp [accept, wide, Standing.after, standingOf]
  | groupStart g =>
    have known := of_decide_eq_false proper
    cases policy : g.breaks with
    | unknown code => simp [policy] at known
    | _ => simp [accept, policy, Standing.after, standingOf]
  | groupEnd =>
    have deep : ¬ p.scopes.length - 1 = 0 := of_decide_eq_false proper
    cases rest with
    | nil => simp [scopes] at deep
    | cons outer rest => simp [accept, Standing.after, standingOf, scopes]
  | indent delta =>
    have matched := of_decide_eq_false proper
    by_cases more : 0 ≤ delta
    · simp [accept, Standing.after, Standing.push, standingOf, scopes, more]
    · have last : scope.head? = some (-delta) := by
        have active : (standingOf p).active = some (-delta) := by grind
        simpa [Standing.active, standingOf, scopes] using active
      simp [accept, Standing.after, Standing.pop, standingOf, scopes, more, last]
  | missing => cases proper

/-- A call that does not offend hands over the token that it stands for. -/
theorem proper_gives (inside : p.scopes ≠ []) (proper : (standingOf p).offends k = false)
    (more : k ≠ .eof) : p.done = false ∧ CallGives p k ((standingOf p).after k).scopes := by
  obtain ⟨fresh, proper⟩ := Bool.or_eq_false_iff.mp proper
  have fresh : p.done = false := fresh
  have counts := count_fresh fresh
  refine ⟨fresh, ?_⟩
  cases k with
  | text s => exact ⟨_, .text s, .text s, by simp only [Printer.call, counts, ok_bind]; rfl⟩
  | hardBreak =>
    exact ⟨_, .hardBreak, .lineBreak (by decide), by simp only [Printer.call, counts, ok_bind]; rfl⟩
  | trailingComma =>
    exact ⟨_, .trailingComma, .lineBreak (by decide), by simp only [Printer.call, counts, ok_bind]; rfl⟩
  | lineBreak width offset =>
    have wide : ¬ width < 0 := of_decide_eq_false proper
    refine ⟨_, .lineBreak width offset, .lineBreak ?_, ?_⟩
    · by_cases zero : width = 0 <;> simp [Break.width, zero]
      omega
    · simp only [Printer.call, counts, ok_bind, wide, ↓reduceIte]
      rfl
  | groupStart breaks offset =>
    exact ⟨_, .groupStart breaks offset, openGroup_gives fresh (of_decide_eq_false proper)⟩
  | alignStart breaks => exact ⟨_, .alignStart breaks, openGroup_gives fresh (of_decide_eq_false proper)⟩
  | groupEnd => exact ⟨_, .groupEnd, closeGroup_gives fresh (of_decide_eq_false proper)⟩
  | indent delta => exact ⟨_, .indent delta, pushIndent_gives fresh inside (of_decide_eq_false proper)⟩
  | outdent =>
    obtain ⟨delta, last⟩ := Option.ne_none_iff_exists'.mp (of_decide_eq_false proper)
    exact ⟨_, .outdent delta, popIndent_gives fresh last⟩
  | eof => exact absurd rfl more
  | emit t =>
    have admitted := proper_accepted inside (Bool.or_eq_false_iff.mpr ⟨fresh, proper⟩)
    exact ⟨_, .emit t, admits_of_accept admitted, emit_admitted fresh admitted⟩

/-- What a printer does with a call: it takes in one token that the open groups admit. -/
def CallTakes (p : Printer Int) (q : Printer Int) : Prop :=
  ∃ t after, GroupsAdmit p.scopes t after ∧ take (withScopes p after) t = .ok q

/-- Every call that a printer answers ends the document or takes in a token that the open groups
admit. -/
theorem call_cases (inside : p.scopes ≠ []) (ran : p.call k = .ok q) :
    p.done = false ∧ (k = .eof ∧ p.finish = .ok q ∨ CallTakes p q) := by
  have proper : (standingOf p).offends k = false := by
    cases offends : (standingOf p).offends k with
    | false => rfl
    | true =>
      obtain ⟨b, refused, _⟩ := offends_refuses offends
      rw [refused] at ran
      cases ran
  by_cases last : k = .eof
  · subst last
    exact ⟨(Bool.or_eq_false_iff.mp proper).1, .inl ⟨rfl, ran⟩⟩
  · obtain ⟨fresh, t, _, admits, taken⟩ := proper_gives inside proper last
    exact ⟨fresh, .inr ⟨t, _, admits, taken ▸ ran⟩⟩

/-- A raw token that the open groups do not accept is refused. -/
theorem emit_refused (inside : p.scopes ≠ []) (refused : accept p.scopes t = none) : ∃ b, p.emit t = breach b := by
  cases offends : (standingOf p).offends (.emit t) with
  | false => simp [proper_accepted inside offends] at refused
  | true =>
    obtain ⟨b, breached, _⟩ := offends_refuses offends
    exact ⟨b, breached⟩

end Tokens

end Galley.Layout.Discipline
