import Galley.Proofs.Lockstep
import Galley.Proofs.PrinterState

/-!
Replaying a document. Each call hands one raw token on, and a printer that is told the raw tokens ends up
like the one that was called, but for the indentation pushed in the open groups: a raw token of no columns
is always a push, so undoing an indentation of no columns buries the one below it. Main statement: a
document replays to the same text and the same counts exactly if no buried indentation is undone in it,
and otherwise the replay is refused there.
-/
namespace Galley.Layout.Replaying
open Lockstep PageWriting PrinterState

variable {ι : Type} [Columns ι]

section Blindness

variable {f : Printer ι → Except Fault (Printer ι)} {p q r : Printer ι} {own raws : List (List ι)}

/-- The same document, written on the same page. -/
def verbatim : Difference Unit ι := ⟨Constant, fun _ => True, Constant⟩

theorem verbatim_kept : PagesKept (verbatim (ι := ι)) where
  space := by
    rintro page _ rfl _
    rfl
  write := by
    rintro page _ t _ rfl told size
    cases told with
    | text related =>
      obtain rfl := related
      exact agree_constant _
    | _ => exact agree_constant _

/-- Two printers that differ only in the open groups. -/
abbrev OtherScopes (own raws : List (List ι)) (p q : Printer ι) : Prop :=
  InStep verbatim own (fun _ => raws) p fun _ => q

/-- A printer with other groups open. -/
def rescope (p : Printer ι) (scopes : List (List ι)) : Printer ι := { p with scopes := scopes }

/-- A printer with another call counted. -/
def counted (p : Printer ι) : Printer ι := { p with stats.tokens := p.stats.tokens + 1 }

/-- An action that has no part in the open groups: with others it does the same. -/
def ScopeBlind (f : Printer ι → Except Fault (Printer ι)) : Prop :=
  ∀ {own raws p q}, OtherScopes own raws p q → Agree (InStep verbatim own fun _ => raws) (f p) fun _ => f q

theorem blind_ok (blind : ScopeBlind f) (others : OtherScopes own raws p q) (ran : f p = .ok r) :
    ∃ s, f q = .ok s ∧ OtherScopes own raws r s := by
  have agree := blind others
  rw [ran] at agree
  obtain ⟨s, same, steps⟩ := agree
  exact ⟨s (), congrFun same (), steps⟩

theorem scanIndent_blind (delta : ι) : ScopeBlind fun p => p.scanIndent delta :=
  fun others => scanIndent_agree verbatim_kept others delta

theorem scanBreak_blind (b : Break ι) : ScopeBlind fun p => p.scanBreak b :=
  fun others => scanBreak_agree verbatim_kept others trivial

theorem rescope_counted (others : OtherScopes own raws p q) (scopes told : List (List ι)) :
    OtherScopes scopes told (rescope (counted p) scopes) (rescope (counted q) told) :=
  withScopes_inStep (inStep_aside others counted rfl rfl rfl rfl fun _ _ _ _ => rfl) scopes fun _ => told

theorem scopes_of_others (others : OtherScopes own raws p q) : q.scopes = raws := by
  obtain ⟨_, _, _, _, _, _, _, same⟩ := others
  rw [congrFun same ()]
  rfl

theorem done_of_others (others : OtherScopes own raws p q) : q.done = p.done := by
  obtain ⟨_, _, _, _, _, _, _, same⟩ := others
  rw [congrFun same ()]
  rfl

end Blindness

/-- What is needed of the numbers that indentation is counted in. -/
structure NumbersSigned (ι : Type) [Columns ι] : Prop where
  none : ¬ (0 : ι) < 0
  level : -(0 : ι) = 0
  back (n : ι) : - -n = n
  least {n : ι} (more : ¬ n < 0) : 0 ≤ n
  below {n : ι} (more : ¬ n < 0) (some : n ≠ 0) : ¬ 0 ≤ -n

/-- The open groups after a call, each with the indentation pushed in it, last first. -/
def opened (scopes : List (List ι)) : Call ι → List (List ι)
  | .groupStart _ _ | .alignStart _ => [] :: scopes
  | .groupEnd => scopes.tail
  | .indent delta => scopes.modifyHead (delta :: ·)
  | .outdent => scopes.modifyHead List.tail
  | _ => scopes

/-- The raw token that a call hands on where these groups are open. -/
def handed (scopes : List (List ι)) : Call ι → Token ι
  | .text s => .text s
  | .lineBreak width offset => .lineBreak ⟨if width = 0 then .zero else .space, width, offset, []⟩
  | .hardBreak => .lineBreak ⟨.hard, 0, 0, []⟩
  | .trailingComma => .lineBreak ⟨.zero, 0, 0, ","⟩
  | .groupStart breaks offset => .groupStart ⟨breaks, offset, false⟩
  | .alignStart breaks => .groupStart ⟨breaks, 0, true⟩
  | .groupEnd => .groupEnd
  | .indent delta => .indent delta
  | .outdent => .indent (-(scopes.head?.bind List.head?).getD 0)
  | .emit t => t
  | .eof => .missing

/-- The raw tokens that calls hand on. -/
def tokens : List (List ι) → List (Call ι) → List (Token ι)
  | _, [] => []
  | scopes, k :: calls => handed scopes k :: tokens (opened scopes k) calls

/-- The open groups as raw tokens leave them: each indentation pushed, with whether one of no columns has
been undone on top of it. -/
abbrev Trail (ι : Type) := List (List (ι × Bool))

/-- An indentation of no columns is undone on top of the last one. A raw token pushes it again. -/
def cover (scope : List (ι × Bool)) : List (ι × Bool) := scope.modifyHead fun pushed => (pushed.1, true)

/-- The open groups after a call, unless raw tokens cannot follow it. -/
def retrace (trail : Trail ι) : Call ι → Option (Trail ι)
  | .groupStart _ _ | .alignStart _ => some ([] :: trail)
  | .groupEnd => some trail.tail
  | .indent delta => some (trail.modifyHead ((delta, false) :: ·))
  | .outdent =>
    match trail with
    | ((delta, covered) :: scope) :: rest =>
      if delta = 0 then some (cover scope :: rest)
      else if covered then none
      else some (scope :: rest)
    | _ => some trail
  | _ => some trail

/-- Raw tokens can follow all the calls: none of them undoes an indentation that is covered. -/
def Retraced (calls : List (Call ι)) : Prop := (calls.foldlM retrace [[]]).isSome = true

instance (calls : List (Call ι)) : Decidable (Retraced calls) := inferInstanceAs (Decidable (_ = _))

/-- What raw tokens have pushed in a group: the same indentation, with zeros on top of what is covered. -/
inductive ZerosBury : List (ι × Bool) → List ι → Prop where
  | bottom (n : Nat) : ZerosBury [] (.replicate n 0)
  | above {delta : ι} {covered : Bool} {scope : List (ι × Bool)} {raws : List ι} (n : Nat) (more : ¬ delta < 0)
      (buried : covered = true ↔ 0 < n) (under : ZerosBury scope raws) :
      ZerosBury ((delta, covered) :: scope) (.replicate n 0 ++ delta :: raws)

/-- The open groups without what is buried in them. -/
def pushes (trail : Trail ι) : List (List ι) := trail.map fun scope => scope.map Prod.fst

omit [Columns ι] in
@[simp] theorem pushes_nil : pushes ([] : Trail ι) = [] := rfl

omit [Columns ι] in
@[simp] theorem pushes_cons (scope : List (ι × Bool)) (trail : Trail ι) :
    pushes (scope :: trail) = scope.map Prod.fst :: pushes trail := rfl

omit [Columns ι] in
@[simp] theorem pushes_length (trail : Trail ι) : (pushes trail).length = trail.length := List.length_map _

/-- A printer and one that was told its raw tokens: they differ only in what was pushed in the open groups. -/
def PrinterRetells (trail : Trail ι) (p q : Printer ι) : Prop :=
  ∃ raws, List.Forall₂ ZerosBury trail raws ∧ OtherScopes (pushes trail) raws p q

section Steps

variable {p q : Printer ι} {trail next : Trail ι} {k : Call ι} {f : Printer ι → Except Fault (Printer ι)}
  {raws others scopes : List (List ι)} {t : Token ι}

theorem buries_zeros {scope : List (ι × Bool)} {raw : List ι} {n : Nat} (some : 0 < n) (buries : ZerosBury scope raw) :
    ZerosBury (cover scope) (.replicate n 0 ++ raw) := by
  cases buries with
  | bottom m =>
    rw [List.replicate_append_replicate]
    exact .bottom _
  | above m more _ under =>
    rw [← List.append_assoc, List.replicate_append_replicate]
    exact .above _ more ⟨fun _ => by omega, fun _ => rfl⟩ under

omit [Columns ι] in
theorem count_ok {done : Printer ι} (ran : (p.count >>= f) = .ok done) : p.done = false := by
  cases ended : p.done with
  | false => rfl
  | true =>
    simp [Printer.count, ended] at ran
    cases ran

omit [Columns ι] in
theorem count_counted (fresh : p.done = false) : p.count = .ok (counted p) := by
  simp [Printer.count, fresh, counted]

variable {delta : ι}

theorem pushIndent_eq (fresh : p.done = false) (more : ¬ delta < 0) {scope : List ι}
    {rest : List (List ι)} (scopes_eq : p.scopes = scope :: rest) :
    p.pushIndent delta = (rescope (counted p) ((delta :: scope) :: rest)).scanIndent delta := by
  simp only [Printer.pushIndent, count_counted fresh, ok_bind, more, ↓reduceIte]
  simp only [counted, scopes_eq]
  rfl

theorem popIndent_eq (fresh : p.done = false) {scope : List ι} {rest : List (List ι)}
    (scopes_eq : p.scopes = (delta :: scope) :: rest) :
    p.popIndent = (rescope (counted p) (scope :: rest)).scanIndent (-delta) := by
  simp only [Printer.popIndent, count_counted fresh, ok_bind]
  simp only [counted, scopes_eq]
  rfl

theorem openGroup_eq {g : Group ι} (fresh : p.done = false) (known : ∀ code, g.breaks ≠ .unknown code) :
    p.openGroup g = .ok ((rescope (counted p) ([] :: p.scopes)).scanStart g) := by
  simp only [Printer.openGroup, count_counted fresh, ok_bind]
  rfl

variable {r : Printer ι}

theorem openGroup_ok {g : Group ι} (ran : p.openGroup g = .ok r) :
    p.done = false ∧ ∀ code, g.breaks ≠ .unknown code := by
  have fresh := count_ok ran
  refine ⟨fresh, fun code policy => ?_⟩
  simp only [Printer.openGroup, count_counted fresh, ok_bind, policy] at ran
  cases ran

theorem closeGroup_eq (fresh : p.done = false) {scope outer : List ι} {rest : List (List ι)}
    (scopes_eq : p.scopes = scope :: outer :: rest) :
    p.closeGroup = (rescope (counted p) (outer :: rest)).scanEnd := by
  simp only [Printer.closeGroup, count_counted fresh, ok_bind]
  simp only [counted, scopes_eq]
  rfl

/-- A raw token of no columns is pushed. -/
theorem emit_none (fresh : p.done = false) (level : ¬ (0 : ι) < 0) (least : (0 : ι) ≤ 0) {raw : List ι}
    {others : List (List ι)} (scopes : p.scopes = raw :: others) :
    p.emit (.indent 0) = (rescope (counted p) ((0 :: raw) :: others)).scanIndent 0 :=
  (if_pos least).trans (pushIndent_eq fresh level scopes)

/-- A raw token undoes the indentation that was pushed last. -/
theorem emit_back (signed : NumbersSigned ι) (fresh : p.done = false) (more : ¬ delta < 0)
    (some : delta ≠ 0) {raw : List ι} {others : List (List ι)} (scopes : p.scopes = (delta :: raw) :: others) :
    p.emit (.indent (-delta)) = (rescope (counted p) (raw :: others)).scanIndent (-delta) := by
  refine Eq.trans ?_ (popIndent_eq fresh scopes)
  simp [Printer.emit, signed.below more some, scopes, signed.back]

/-- A raw token is refused where another indentation was pushed last. -/
theorem emit_buried (signed : NumbersSigned ι) (more : ¬ delta < 0) (some : delta ≠ 0) {raw : List ι}
    {others : List (List ι)} (scopes : p.scopes = (0 :: raw) :: others) :
    p.emit (.indent (-delta)) = breach (.unmatchedIndent (Columns.toInt (-delta))) := by
  have other : ¬ (0 : ι) = delta := fun same => some same.symm
  simp [Printer.emit, signed.below more some, scopes, signed.back, other]

/-- What a call comes to when its raw token is replayed: the printers stay alike, or the token is refused. -/
inductive Replayed (trail : Trail ι) (k : Call ι) (r : Printer ι) (told : Except Fault (Printer ι)) : Prop where
  | followed {next : Trail ι} {s : Printer ι} (traced : retrace trail k = some next) (ran : told = .ok s)
      (retells : PrinterRetells next r s) : Replayed trail k r told
  | refused {delta : Int} (lost : retrace trail k = none) (ran : told = breach (.unmatchedIndent delta)) :
      Replayed trail k r told

theorem alike_replayed (differ : OtherScopes (pushes trail) raws p q)
    (traced : retrace trail k = some next) (blind : ScopeBlind f) (asked : p.call k = f (rescope (counted p) scopes))
    (told : q.emit t = f (rescope (counted q) others)) (ran : p.call k = .ok r)
    (pushed : scopes = pushes next) (buried : List.Forall₂ ZerosBury next others) : Replayed trail k r (q.emit t) := by
  rw [asked] at ran
  obtain ⟨s, also, still⟩ := blind_ok blind (rescope_counted differ scopes others) ran
  exact .followed traced (told.trans also) ⟨others, buried, pushed ▸ still⟩

theorem popIndent_ok (ran : p.popIndent = .ok r) :
    p.done = false ∧ ∃ delta scope rest, p.scopes = (delta :: scope) :: rest := by
  have fresh := count_ok ran
  refine ⟨fresh, ?_⟩
  simp only [Printer.popIndent, count_counted fresh, ok_bind] at ran
  split at ran
  · next delta scope rest scopes => exact ⟨delta, scope, rest, scopes⟩
  · cases ran

/-- Undoing some columns is followed where nothing is buried; undoing none, its raw token pushes them
again. -/
theorem outdent_replayed (signed : NumbersSigned ι) (retells : PrinterRetells trail p q)
    (ran : p.call .outdent = .ok r) : Replayed trail .outdent r (q.emit (handed p.scopes .outdent)) := by
  obtain ⟨raws, buried, differ⟩ := retells
  have pushed : p.scopes = pushes trail := differ.1
  have told : q.scopes = raws := scopes_of_others differ
  obtain ⟨fresh, last, older, outer, scopes⟩ := popIndent_ok ran
  have again : q.done = false := (done_of_others differ).trans fresh
  cases buried with
  | nil => simp [pushed] at scopes
  | @cons _ _ trail others first rest =>
    cases first with
    | bottom n => simp [pushed] at scopes
    | @above delta covered scope raw n more buried under =>
      have asked : p.call .outdent =
          (rescope (counted p) (scope.map Prod.fst :: pushes trail)).scanIndent (-delta) := popIndent_eq fresh pushed
      have token : handed p.scopes .outdent = .indent (-delta) := by simp [handed, pushed]
      rw [token]
      by_cases none : delta = 0
      · -- The token pushes another zero, and with those that lay on this one it covers what is below.
        subst none
        have zeros : (0 : ι) :: (.replicate n 0 ++ 0 :: raw) = .replicate (n + 2) 0 ++ raw := by
          rw [List.replicate_succ, List.replicate_succ']
          simp
        have kept : (cover scope).map Prod.fst = scope.map Prod.fst := by cases scope <;> rfl
        rw [signed.level] at asked ⊢
        refine alike_replayed differ (if_pos rfl) (scanIndent_blind 0) asked
          (emit_none again more (signed.least more) told) ran (by rw [pushes_cons, kept]) ?_
        rw [zeros]
        exact .cons (buries_zeros (by omega) under) rest
      · cases n with
        | zero =>
          have bare : covered = false := by simpa using buried
          exact alike_replayed differ (by simp [retrace, none, bare]) (scanIndent_blind (-delta)) asked
            (emit_back signed again more none told) ran rfl (.cons under rest)
        | succ n =>
          have deep : covered = true := buried.mpr (Nat.succ_pos n)
          exact .refused (by simp [retrace, none, deep]) (emit_buried signed more none told)

/-- A call that opens no group and pushes nothing does what its raw token does. -/
theorem plain_replayed (traced : retrace trail k = some trail) (blind : ScopeBlind f)
    (asked : ∀ p : Printer ι, p.call k = p.count >>= f)
    (told : ∀ q : Printer ι, q.emit (handed p.scopes k) = q.count >>= f) (retells : PrinterRetells trail p q)
    (ran : p.call k = .ok r) : Replayed trail k r (q.emit (handed p.scopes k)) := by
  obtain ⟨raws, buried, differ⟩ := retells
  have fresh : p.done = false := count_ok ((asked p).symm.trans ran)
  have again : q.done = false := (done_of_others differ).trans fresh
  have first : p.call k = f (rescope (counted p) p.scopes) := by
    rw [asked, count_counted fresh]
    rfl
  have second : q.emit (handed p.scopes k) = f (rescope (counted q) raws) := by
    rw [told, count_counted again, ← scopes_of_others differ]
    rfl
  exact alike_replayed differ traced blind first second ran differ.1 buried

/-- A group is opened alike. -/
theorem open_replayed {g : Group ι} (traced : retrace trail k = some ([] :: trail))
    (asked : ∀ p : Printer ι, p.call k = p.openGroup g) (token : handed p.scopes k = .groupStart g)
    (retells : PrinterRetells trail p q) (ran : p.call k = .ok r) :
    Replayed trail k r (q.emit (handed p.scopes k)) := by
  obtain ⟨raws, buried, differ⟩ := retells
  obtain ⟨fresh, known⟩ := openGroup_ok ((asked p).symm.trans ran)
  have again : q.done = false := (done_of_others differ).trans fresh
  rw [token]
  refine alike_replayed (f := fun p => .ok (p.scanStart g)) differ traced
    (fun others => agree_ok (scanStart_inStep others g)) ((asked p).trans (openGroup_eq fresh known))
    (openGroup_eq again known) ran (by rw [differ.1]; rfl) (.cons (.bottom 0) ?_)
  rw [scopes_of_others differ]
  exact buried

theorem closeGroup_ok (ran : p.closeGroup = .ok r) :
    p.done = false ∧ ∃ scope outer rest, p.scopes = scope :: outer :: rest := by
  have fresh := count_ok ran
  refine ⟨fresh, ?_⟩
  simp only [Printer.closeGroup, count_counted fresh, ok_bind] at ran
  split at ran
  · next scope outer rest scopes => exact ⟨scope, outer, rest, scopes⟩
  · cases ran

theorem pushIndent_ok (ran : p.pushIndent delta = .ok r) :
    p.done = false ∧ ¬ delta < 0 ∧ ∃ scope rest, p.scopes = scope :: rest := by
  have fresh := count_ok ran
  simp only [Printer.pushIndent, count_counted fresh, ok_bind] at ran
  split at ran
  · cases ran
  · next more =>
    refine ⟨fresh, more, ?_⟩
    split at ran
    · cases ran
    · next scope rest scopes => exact ⟨scope, rest, scopes⟩

/-- A group is closed alike. -/
theorem close_replayed (retells : PrinterRetells trail p q) (ran : p.call .groupEnd = .ok r) :
    Replayed trail .groupEnd r (q.emit (handed p.scopes .groupEnd)) := by
  obtain ⟨raws, buried, differ⟩ := retells
  have pushed : p.scopes = pushes trail := differ.1
  have told : q.scopes = raws := scopes_of_others differ
  obtain ⟨fresh, scope, outer, rest, scopes⟩ := closeGroup_ok ran
  have again : q.done = false := (done_of_others differ).trans fresh
  cases buried with
  | nil => simp [pushed] at scopes
  | cons inner buried =>
    cases buried with
    | nil => simp [pushed] at scopes
    | cons first rest =>
      exact alike_replayed differ rfl (scanEnd_agree verbatim_kept) (closeGroup_eq fresh pushed)
        (closeGroup_eq again told) ran rfl (.cons first rest)

/-- Indentation is pushed alike. -/
theorem indent_replayed (signed : NumbersSigned ι) (retells : PrinterRetells trail p q)
    (ran : p.call (.indent delta) = .ok r) :
    Replayed trail (.indent delta) r (q.emit (handed p.scopes (.indent delta))) := by
  obtain ⟨raws, buried, differ⟩ := retells
  have pushed : p.scopes = pushes trail := differ.1
  obtain ⟨fresh, more, scope, outer, scopes⟩ := pushIndent_ok ran
  have again : q.done = false := (done_of_others differ).trans fresh
  cases buried with
  | nil => simp [pushed] at scopes
  | @cons _ raw _ others first rest =>
    have told : q.emit (.indent delta) = (rescope (counted q) ((delta :: raw) :: others)).scanIndent delta :=
      (if_pos (signed.least more)).trans (pushIndent_eq again more (scopes_of_others differ))
    exact alike_replayed differ rfl (scanIndent_blind delta) (pushIndent_eq fresh more pushed) told ran rfl
      (.cons (.above 0 more (by simp) first) rest)

/-- The next call is followed by its raw token, or the token is refused. -/
theorem call_replayed (signed : NumbersSigned ι) (direct : ∀ t, k ≠ .emit t) (unended : k ≠ .eof)
    (retells : PrinterRetells trail p q) (ran : p.call k = .ok r) :
    Replayed trail k r (q.emit (handed p.scopes k)) := by
  cases k with
  | text s =>
    exact plain_replayed rfl (fun others => scanText_agree verbatim_kept others rfl) (fun _ => rfl) (fun _ => rfl)
      retells ran
  | hardBreak => exact plain_replayed rfl (scanBreak_blind _) (fun _ => rfl) (fun _ => rfl) retells ran
  | trailingComma =>
    refine plain_replayed rfl (scanBreak_blind _) (fun _ => rfl) (fun q => ?_) retells ran
    simp [handed, Printer.emit, signed.none]
  | lineBreak width offset =>
    have blind (b : Break ι) : ScopeBlind fun p => if width < 0 then breach (.negativeBreak (Columns.toInt width))
        else p.scanBreak b :=
      fun others => agree_ite (fun _ => rfl) fun _ => scanBreak_blind b others
    refine plain_replayed rfl (blind _) (fun _ => rfl) (fun q => ?_) retells ran
    by_cases zero : width = 0 <;> simp [handed, Printer.emit, zero]
  | groupStart | alignStart => exact open_replayed rfl (fun _ => rfl) rfl retells ran
  | groupEnd => exact close_replayed retells ran
  | indent delta => exact indent_replayed signed retells ran
  | outdent => exact outdent_replayed signed retells ran
  | emit t => exact absurd rfl (direct t)
  | eof => exact absurd rfl unended

end Steps

section Runs

variable {p q r : Printer ι} {trail next : Trail ι} {k : Call ι} {calls : List (Call ι)} {c : Config ι}

theorem retrace_opened (traced : retrace trail k = some next) : opened (pushes trail) k = pushes next := by
  cases k with
  | outdent =>
    unfold retrace at traced
    dsimp only at traced
    split at traced
    · next delta covered scope rest =>
      split at traced
      · cases traced
        cases scope <;> rfl
      · split at traced
        · cases traced
        · cases traced
          rfl
    · next bare =>
      cases traced
      match trail with
      | [] => rfl
      | [] :: rest => rfl
      | ((delta, covered) :: scope) :: rest => exact absurd rfl (bare delta covered scope rest)
  | indent delta =>
    cases traced
    cases trail <;> rfl
  | groupEnd =>
    cases traced
    cases trail <;> rfl
  | _ =>
    cases traced
    rfl

theorem call_fresh (direct : ∀ t, k ≠ .emit t) (ran : p.call k = .ok q) : p.done = false := by
  cases k with
  | emit t => exact absurd rfl (direct t)
  | groupStart | alignStart => exact (openGroup_ok ran).1
  | _ => exact count_ok ran

theorem finish_eq (fresh : p.done = false) (closed : p.scopes.length ≤ 1) : p.finish = drain (counted p) := by
  have none : ¬ 0 < (counted p).scopes.length - 1 := by
    show ¬ 0 < p.scopes.length - 1
    omega
  simp only [Printer.finish, count_counted fresh, ok_bind, none, ↓reduceIte]
  rfl

theorem finish_ok (ran : p.finish = .ok q) : p.done = false ∧ p.scopes.length ≤ 1 ∧ q.done = true := by
  have fresh := count_ok ran
  have closed : p.scopes.length ≤ 1 := by
    simp only [Printer.finish, count_counted fresh, ok_bind] at ran
    split at ran
    · cases ran
    · next none =>
      have none : ¬ 0 < p.scopes.length - 1 := none
      omega
  refine ⟨fresh, closed, ?_⟩
  rw [finish_eq fresh closed] at ran
  obtain ⟨_, _, ran⟩ := bind_ok ran
  obtain ⟨_, _, ran⟩ := bind_ok ran
  obtain ⟨_, _, ran⟩ := bind_ok ran
  cases ran
  rfl

/-- A document that has ended takes no more calls. -/
theorem run_ended (direct : ∀ k ∈ calls, ∀ t, k ≠ .emit t) (ended : p.done = true) (ran : p.run calls = .ok q) :
    q.done = true := by
  cases calls with
  | nil =>
    cases ran
    exact ended
  | cons k calls =>
    obtain ⟨next, first, _⟩ := bind_ok ran
    have fresh := call_fresh (direct k List.mem_cons_self) first
    rw [ended] at fresh
    cases fresh

/-- Calls are followed by their raw tokens to the end, or one of these is refused. -/
theorem run_replayed (signed : NumbersSigned ι) (direct : ∀ k ∈ calls, ∀ t, k ≠ .emit t)
    (retells : PrinterRetells trail p q) (ran : p.run calls = .ok r) (fresh : r.done = false) :
    (∃ final s, calls.foldlM retrace trail = some final ∧
      q.run ((tokens (pushes trail) calls).map .emit) = .ok s ∧ PrinterRetells final r s) ∨
      (calls.foldlM retrace trail = none ∧
        ∃ delta, q.run ((tokens (pushes trail) calls).map .emit) = breach (.unmatchedIndent delta)) := by
  induction calls generalizing trail p q with
  | nil =>
    cases ran
    exact .inl ⟨trail, q, rfl, rfl, retells⟩
  | cons k calls ih =>
    obtain ⟨m, first, later⟩ := bind_ok ran
    have others : ∀ k ∈ calls, ∀ t, k ≠ .emit t := fun j member => direct j (List.mem_cons_of_mem k member)
    -- No call is answered after the end, and the document has not ended.
    have unended : k ≠ .eof := by
      rintro rfl
      have ended := run_ended others (finish_ok first).2.2 later
      rw [fresh] at ended
      cases ended
    have scopes : p.scopes = pushes trail := (retells.elim fun _ differ => differ.2.1)
    have step : q.run ((tokens (pushes trail) (k :: calls)).map .emit) =
        q.emit (handed p.scopes k) >>= fun s => s.run ((tokens (opened (pushes trail) k) calls).map .emit) := by
      rw [scopes]
      rfl
    cases call_replayed signed (direct k List.mem_cons_self) unended retells first with
    | followed traced told alike =>
      rw [step, told, ok_bind, retrace_opened traced, List.foldlM_cons, traced]
      exact ih others alike later
    | @refused delta lost told =>
      refine .inr ⟨?_, delta, ?_⟩
      · rw [List.foldlM_cons, lost]
        rfl
      · rw [step, told]
        rfl

/-- Printers that differ only in what was pushed in the open groups end alike. -/
theorem finish_retells (retells : PrinterRetells trail p q) (ran : p.finish = .ok r) :
    ∃ s, q.finish = .ok s ∧ s.output = r.output ∧ s.stats = r.stats := by
  obtain ⟨raws, buried, differ⟩ := retells
  obtain ⟨fresh, closed, _⟩ := finish_ok ran
  have again : q.scopes.length ≤ 1 := by
    rw [scopes_of_others differ, ← buried.length_eq, ← pushes_length, ← differ.1]
    exact closed
  have started := inStep_aside differ counted rfl rfl rfl rfl fun _ _ _ _ => rfl
  rw [finish_eq fresh closed] at ran
  obtain ⟨s, also, _, _, _, _, _, _, page, same⟩ := blind_ok (drain_agree verbatim_kept) started ran
  refine ⟨s, (finish_eq ((done_of_others differ).trans fresh) again).trans also, ?_, ?_⟩
  · rw [congrFun same ()]
    exact congrArg (fun page : Page ι => page.sink.text) (congrFun page ())
  · rw [congrFun same ()]
    rfl

/-- Calls that push no indentation of no columns can be followed. -/
theorem level_retraced (level : ∀ k ∈ calls, k ≠ .indent 0)
    (bare : ∀ scope ∈ trail, ∀ pushed ∈ scope, pushed.1 ≠ 0 ∧ pushed.2 = false) :
    (calls.foldlM retrace trail).isSome = true := by
  induction calls generalizing trail with
  | nil => rfl
  | cons k calls ih =>
    obtain ⟨first, later⟩ := List.forall_mem_cons.mp level
    obtain ⟨next, traced, still⟩ : ∃ next, retrace trail k = some next ∧
        ∀ scope ∈ next, ∀ pushed ∈ scope, pushed.1 ≠ 0 ∧ pushed.2 = false := by
      cases k with
      | groupStart | alignStart => exact ⟨_, rfl, List.forall_mem_cons.mpr ⟨by simp, bare⟩⟩
      | groupEnd => exact ⟨_, rfl, fun scope member => bare scope (List.mem_of_mem_tail member)⟩
      | indent delta =>
        refine ⟨_, rfl, ?_⟩
        cases trail with
        | nil => simp
        | cons scope rest =>
          obtain ⟨top, others⟩ := List.forall_mem_cons.mp bare
          refine List.forall_mem_cons.mpr ⟨List.forall_mem_cons.mpr ⟨⟨?_, rfl⟩, top⟩, others⟩
          rintro rfl
          exact first rfl
      | outdent =>
        match trail with
        | [] => exact ⟨[], rfl, bare⟩
        | [] :: rest => exact ⟨[] :: rest, rfl, bare⟩
        | ((delta, covered) :: scope) :: rest =>
          obtain ⟨top, others⟩ := List.forall_mem_cons.mp bare
          obtain ⟨⟨some, uncovered⟩, older⟩ := List.forall_mem_cons.mp top
          refine ⟨scope :: rest, ?_, List.forall_mem_cons.mpr ⟨older, others⟩⟩
          simp only at some uncovered
          simp [retrace, some, uncovered]
      | _ => exact ⟨trail, rfl, bare⟩
    rw [List.foldlM_cons, traced]
    exact ih later still

end Runs

theorem signed_int : NumbersSigned Int := by
  refine ⟨by decide, by decide, Int.neg_neg, ?_, ?_⟩
  · intro n more
    exact Int.not_lt.mp more
  · intro n more some
    omega

theorem signed_word : NumbersSigned Int64 := by
  refine ⟨by decide, by decide, fun n => Int64.neg_neg, ?_, ?_⟩
  · intro n more
    exact Int64.not_lt.mp more
  · intro n more some
    have most : 0 ≤ n.toInt := Int64.le_iff_toInt_le.mp (Int64.not_lt.mp more)
    have other : n.toInt ≠ 0 := fun none => some (Int64.toInt_inj.mp none)
    have bound := n.toInt_lt
    rw [Int64.le_iff_toInt_le, Int64.toInt_neg, Int64.toInt_zero]
    rw [Int.bmod_eq_of_le] <;> omega

/-- What the raw tokens of a document come to when they are replayed. -/
structure Replays (c : Config ι) (calls : List (Call ι)) (p : Printer ι) : Prop where
  faithful : Retraced calls → ∃ q, Printer.print c ((tokens [[]] calls).map .emit) = .ok q ∧
    q.output = p.output ∧ q.stats = p.stats
  refused : ¬ Retraced calls → ∃ delta, Printer.print c ((tokens [[]] calls).map .emit) =
    .error (.contract (.unmatchedIndent delta))
  level : (∀ k ∈ calls, k ≠ .indent 0) → Retraced calls

theorem ofConfig_retells {c : Config ι} {start : Printer ι} (accepted : Printer.ofConfig c = .ok start) :
    PrinterRetells [[]] start start := by
  simp only [Printer.ofConfig] at accepted
  split at accepted
  · cases accepted
  · cases accepted
    refine ⟨[[]], .cons (.bottom 0) .nil, rfl, fun _ => _, fun _ => .empty, fun _ => _, ?_,
      ⟨fun _ => rfl, [], .nil, fun _ => rfl⟩, rfl, rfl⟩
    rintro s _ rfl _
    rfl

theorem printed_replays (signed : NumbersSigned ι) {c : Config ι} {calls : List (Call ι)} {p : Printer ι}
    (direct : ∀ k ∈ calls, ∀ t, k ≠ .emit t) (printed : Printer.print c calls = .ok p) : Replays c calls p := by
  obtain ⟨start, accepted, rest⟩ := bind_ok printed
  obtain ⟨last, ran, ended⟩ := bind_ok rest
  have replay : Printer.print c ((tokens [[]] calls).map .emit) =
      start.run ((tokens (pushes [[]]) calls).map .emit) >>= Printer.finish := by
    rw [Printer.print, accepted]
    rfl
  have level (none : ∀ k ∈ calls, k ≠ .indent 0) : Retraced calls := level_retraced none (by simp)
  rcases run_replayed signed direct (ofConfig_retells accepted) ran (finish_ok ended).1 with
    ⟨final, s, traced, told, retells⟩ | ⟨lost, delta, told⟩
  · have followed : Retraced calls := by
      rw [Retraced, traced]
      rfl
    obtain ⟨q, finished, output, stats⟩ := finish_retells retells ended
    refine ⟨fun _ => ⟨q, ?_, output, stats⟩, fun lost => absurd followed lost, level⟩
    rw [replay, told, ok_bind, finished]
  · have unfollowed : ¬ Retraced calls := by
      rw [Retraced, lost]
      exact Bool.false_ne_true
    refine ⟨fun followed => absurd followed unfollowed, fun _ => ⟨delta, ?_⟩, level⟩
    rw [replay, told]
    rfl

/-- A document that is printed replays to the same text and counts exactly if no buried indentation is undone
in it, and otherwise the replay is refused. Where no indentation of no columns is pushed, none is buried. This holds
of numbers of any size, and of machine words. -/
theorem replay_same_or_refused (c : Config Int) (calls : List (Call Int)) (p : Printer Int) (d : Config Int64)
    (words : List (Call Int64)) (q : Printer Int64) :
    ((∀ k ∈ calls, ∀ t, k ≠ .emit t) → Printer.print c calls = .ok p → Replays c calls p) ∧
    ((∀ k ∈ words, ∀ t, k ≠ .emit t) → Printer.print d words = .ok q → Replays d words q) :=
  ⟨printed_replays signed_int, printed_replays signed_word⟩

/-- Indentation of no columns is undone with no other around it in its group. -/
theorem replay_same_or_refused_level :
    let exact : Config Int := ⟨80, 4, false, false⟩
    let steps : List (Call Int) := [.indent 2, .text "a", .hardBreak, .text "b", .outdent]
    let c : Config Int64 := ⟨80, 4, false, false⟩
    let calls : List (Call Int64) := [.indent 2, .text "a", .groupStart .consistent 0, .indent 0, .hardBreak,
      .outdent, .text "b", .groupEnd, .outdent]
    Retraced steps ∧ Retraced calls ∧
      (∃ p, Printer.print exact steps = .ok p ∧ p.output = "a\n  b" ∧ Replays exact steps p) ∧
      ∃ q, Printer.print c calls = .ok q ∧ q.output = "a\n  b" ∧ Replays c calls q := by
  intro exact steps c calls
  have first : ∀ k ∈ steps, ∀ t, k ≠ .emit t := by
    intro k member t same
    subst same
    simp [steps] at member
  have second : ∀ k ∈ calls, ∀ t, k ≠ .emit t := by
    intro k member t same
    subst same
    simp [calls] at member
  obtain ⟨p, printed, output⟩ := ok_of_toOption (x := Printer.print exact steps) (f := Printer.output)
    (b := "a\n  b") (by decide +kernel)
  obtain ⟨q, reprinted, also⟩ := ok_of_toOption (x := Printer.print c calls) (f := Printer.output)
    (b := "a\n  b") (by decide +kernel)
  obtain ⟨left, right⟩ := replay_same_or_refused exact steps p c calls q
  exact ⟨by decide, by decide, ⟨p, printed, output, left first printed⟩, q, reprinted, also, right second reprinted⟩

/-- Two columns of indentation, and none on top of them: when these are undone the replay pushes them again,
and then refuses to undo the two. -/
theorem replay_refuses_buried :
    let c : Config Int64 := ⟨80, 4, false, false⟩
    let calls : List (Call Int64) := [.text "a", .indent 2, .indent 0, .outdent, .hardBreak, .text "b", .outdent]
    printCalls c calls = .ok "a\n  b" ∧ ¬ Retraced calls ∧
      tokens [[]] calls = [.text "a", .indent 2, .indent 0, .indent 0, .lineBreak ⟨.hard, 0, 0, []⟩, .text "b",
        .indent (-2)] ∧
      render c (tokens [[]] calls) = .error (.contract (.unmatchedIndent (-2))) := by
  decide +kernel

end Galley.Layout.Replaying
