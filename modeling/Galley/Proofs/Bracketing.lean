import Galley.Proofs.Contract

/-! Well-bracketed calls: every group that they open they close, and every indentation is undone in the
group where it was made. No printer refuses such calls, wherever they stand, and a whole document of
them is written as the tokens that they stand for are laid out. -/
namespace Galley.Layout.Bracketing
open Extent PageWriting Lookahead Emission
open Rendering Indentation Discipline Contract

/-- A call that opens a group, of a known policy and not below the left edge. -/
inductive CallOpens : Call Int → Prop where
  | plain {breaks : Breaks} {offset : Int} (known : ∀ code, breaks ≠ .unknown code) (level : 0 ≤ offset) :
      CallOpens (.groupStart breaks offset)
  | aligned {breaks : Breaks} (known : ∀ code, breaks ≠ .unknown code) : CallOpens (.alignStart breaks)

/-- Calls that close every group and undo every indentation of theirs, in the order of nesting. -/
inductive Balanced : List (Call Int) → Prop where
  | nil : Balanced []
  | text (s : Text) : Balanced [.text s]
  | lineBreak {width : Int} (counted : 0 ≤ width) : Balanced [.lineBreak width 0]
  | hardBreak : Balanced [.hardBreak]
  | trailingComma : Balanced [.trailingComma]
  | append {calls more : List (Call Int)} (first : Balanced calls) (second : Balanced more) :
      Balanced (calls ++ more)
  | group {opens : Call Int} {calls : List (Call Int)} (starts : CallOpens opens) (inner : Balanced calls) :
      Balanced (opens :: calls ++ [.groupEnd])
  | indented {delta : Int} {calls : List (Call Int)} (more : 0 ≤ delta) (inner : Balanced calls) :
      Balanced (.indent delta :: calls ++ [.outdent])

/-- The token that a call stands for, given where the document stands. The end of a document stands
for none. -/
def tokenAt (s : Standing) : Call Int → Token Int
  | .text t => .text t
  | .lineBreak width offset => .lineBreak ⟨if width = 0 then .zero else .space, width, offset, []⟩
  | .hardBreak => .lineBreak ⟨.hard, 0, 0, []⟩
  | .trailingComma => .lineBreak ⟨.zero, 0, 0, ","⟩
  | .groupStart breaks offset => .groupStart ⟨breaks, offset, false⟩
  | .alignStart breaks => .groupStart ⟨breaks, 0, true⟩
  | .groupEnd => .groupEnd
  | .indent delta => .indent delta
  | .outdent => .indent (-s.active.getD 0)
  | .emit t => plain t
  | .eof => .missing

/-- The tokens that calls stand for, one for each. -/
def transcript (s : Standing) : List (Call Int) → List (Token Int)
  | [] => []
  | k :: calls => tokenAt s k :: transcript (s.after k) calls

variable {c : Config Int} {calls : List (Call Int)} {k : Call Int} {t : Token Int} {s : Standing}

section Transcripts

theorem transcript_append (s : Standing) (calls more : List (Call Int)) :
    transcript s (calls ++ more) = transcript s calls ++ transcript (calls.foldl Standing.after s) more := by
  induction calls generalizing s with
  | nil => rfl
  | cons k calls ih => simp only [List.cons_append, transcript, ih, List.foldl_cons]

/-- The token of a call is the only one that moves the open groups as the call does. -/
theorem hands_tokenAt (hands : CallHands k t) (admits : GroupsAdmit s.scopes t (s.after k).scopes) :
    t = tokenAt s k := by
  cases hands with
  | outdent delta =>
    obtain ⟨scopes, ended⟩ := s
    generalize moved : -delta = back at admits
    match scopes, admits with
    | (last :: scope) :: rest, .outdent => rfl
  | _ => rfl

theorem offset_tokenAt (s : Standing) (k : Call Int) : offset (tokenAt s k) = offsetOf k := by
  cases k with
  | emit t => exact hands_offset (.emit t)
  | _ => rfl

/-- No token has a negative offset if no call has one. -/
theorem transcript_level (offsets : ∀ k ∈ calls, 0 ≤ offsetOf k) (s : Standing) :
    ∀ t ∈ transcript s calls, 0 ≤ offset t := by
  induction calls generalizing s with
  | nil => simp [transcript]
  | cons k calls ih =>
    obtain ⟨first, rest⟩ := List.forall_mem_cons.mp offsets
    exact List.forall_mem_cons.mpr ⟨offset_tokenAt s k ▸ first, ih rest (s.after k)⟩

variable {start : Printer Int}

/-- Calls that keep the discipline, with no negative offset, tell a printer their transcript. -/
theorem run_transcript (accepted : Printer.ofConfig c = .ok start) (proper : Disciplined calls)
    (offsets : ∀ k ∈ calls, 0 ≤ offsetOf k) (unended : (standing calls).ended = false) :
    ∃ p, start.run calls = .ok p ∧ PrinterTold c calls (transcript .initial calls) p := by
  induction calls using List.reverseRecOn with
  | nil => exact ⟨start, rfl, ofConfig_told accepted⟩
  | append_singleton calls k ih =>
    obtain ⟨before, last⟩ := disciplined_concat.mp proper
    rw [standing_concat] at unended
    have more : k ≠ .eof := by
      rintro rfl
      cases unended
    rw [after_ended more] at unended
    obtain ⟨p, ran, told⟩ := ih before (fun j called => offsets j (by simp [called])) unended
    have past := run_past accepted ran
    obtain ⟨q, answered⟩ := level_answered past last offsets
    rw [← past.stands] at last
    obtain ⟨_, t, hands, admits, given⟩ := proper_gives past.inside last more
    rw [given] at answered
    obtain ⟨later, _⟩ := take_told told hands admits answered
    refine ⟨q, by rw [run_concat, ran, ok_bind, given, answered], ?_⟩
    rw [hands_tokenAt (s := standingOf p) hands admits, past.stands] at later
    rw [transcript_append]
    exact later

end Transcripts

section Balances

theorem opens_after (starts : CallOpens k) (s : Standing) : s.after k = { s with scopes := [] :: s.scopes } := by
  cases starts <;> rfl

theorem opens_proper (starts : CallOpens k) (fresh : s.ended = false) : s.offends k = false := by
  have policy {breaks : Breaks} (known : ∀ code, breaks ≠ .unknown code) :
      breaks = .consistent ∨ breaks = .inconsistent := by
    cases breaks <;> simp_all
  cases starts with
  | plain known _ | aligned known => rcases policy known with rfl | rfl <;> simp [Standing.offends, fresh]

theorem opens_offset (starts : CallOpens k) : 0 ≤ offsetOf k := by
  cases starts with
  | plain _ level => exact level
  | aligned _ => exact Int.le_refl 0

theorem opens_admits (starts : CallOpens k) (s : Standing) :
    GroupsAdmit s.scopes (tokenAt s k) ([] :: s.scopes) := by
  cases starts with
  | plain known _ | aligned known => exact .groupStart known

theorem keeps_append (s : Standing) (calls more : List (Call Int)) :
    s.keeps (calls ++ more) = (s.keeps calls && (calls.foldl Standing.after s).keeps more) := by
  induction calls generalizing s with
  | nil => rfl
  | cons k calls ih => simp only [List.cons_append, Standing.keeps, ih, List.foldl_cons, Bool.and_assoc]

/-- No balanced call goes below the left edge. -/
theorem balanced_offsets (balanced : Balanced calls) : ∀ k ∈ calls, 0 ≤ offsetOf k := by
  have zero (k : Call Int) (none : offsetOf k = 0) : ∀ j ∈ [k], 0 ≤ offsetOf j := by simp [none]
  induction balanced with
  | nil => simp
  | text | lineBreak | hardBreak | trailingComma => exact zero _ rfl
  | append _ _ first second => exact List.forall_mem_append.mpr ⟨first, second⟩
  | group starts _ ih =>
    exact List.forall_mem_cons.mpr
      ⟨opens_offset starts, List.forall_mem_append.mpr ⟨ih, zero .groupEnd rfl⟩⟩
  | indented _ _ ih =>
    exact List.forall_mem_cons.mpr ⟨Int.le_refl 0, List.forall_mem_append.mpr ⟨ih, zero .outdent rfl⟩⟩

/-- Balanced calls lead back to where the document stands. -/
theorem balanced_after (balanced : Balanced calls) (s : Standing) : calls.foldl Standing.after s = s := by
  induction balanced generalizing s with
  | nil | text | lineBreak | hardBreak | trailingComma => rfl
  | append _ _ first second => rw [List.foldl_append, first, second]
  | group starts _ ih =>
    simp only [List.cons_append, List.foldl_cons, List.foldl_append, List.foldl_nil, ih, opens_after starts]
    rfl
  | indented _ _ ih =>
    simp only [List.cons_append, List.foldl_cons, List.foldl_append, List.foldl_nil, ih, Standing.after,
      Standing.push, Standing.pop]
    obtain ⟨scopes, ended⟩ := s
    cases scopes <;> rfl

private theorem enclosed_keeps {opens closes : Call Int} (inner : Balanced calls)
    (starts : s.offends opens = false) (inside : (s.after opens).keeps calls = true)
    (ends : (s.after opens).offends closes = false) : s.keeps (opens :: calls ++ [closes]) = true := by
  simp [Standing.keeps, keeps_append, balanced_after inner, starts, inside, ends]

/-- Balanced calls keep the discipline wherever an open document stands. -/
theorem balanced_keeps (balanced : Balanced calls) {s : Standing} (fresh : s.ended = false)
    (inside : s.scopes ≠ []) : s.keeps calls = true := by
  induction balanced generalizing s with
  | nil => rfl
  | text t => simp [Standing.keeps, Standing.offends, fresh]
  | lineBreak counted => simpa [Standing.keeps, Standing.offends, fresh] using counted
  | hardBreak | trailingComma => simp [Standing.keeps, Standing.offends, fresh]
  | append first _ left right =>
    rw [keeps_append, left fresh inside, balanced_after first, right fresh inside]
    rfl
  | group starts inner ih =>
    have entered := opens_after starts s
    refine enclosed_keeps inner (opens_proper starts fresh) (ih ?_ ?_) ?_
    · rw [entered]
      exact fresh
    · simp [entered]
    · simp [Standing.offends, entered, Standing.depth, fresh, inside]
  | indented more inner ih =>
    obtain ⟨scope, rest, scopes⟩ := List.exists_cons_of_ne_nil inside
    refine enclosed_keeps inner ?_ (ih ?_ ?_) ?_
    · simpa [Standing.offends, fresh] using more
    · exact fresh
    · simp [Standing.after, Standing.push, scopes]
    · simp [Standing.offends, Standing.after, Standing.push, Standing.active, scopes, fresh]

theorem admitted_append {before next after : List (List Int)} {ts rest : List (Token Int)}
    (first : TokensAdmitted before ts next) (second : TokensAdmitted next rest after) :
    TokensAdmitted before (ts ++ rest) after := by
  induction first with
  | nil scopes => exact second
  | cons head tail ih => exact .cons head (ih second)

/-- The open groups admit what balanced calls stand for, and are the same after it. -/
theorem balanced_admitted (balanced : Balanced calls) (s : Standing) (inside : s.scopes ≠ []) :
    TokensAdmitted s.scopes (transcript s calls) s.scopes := by
  have one {t : Token Int} {before after : List (List Int)} (admits : GroupsAdmit before t after) :
      TokensAdmitted before [t] after := .cons admits (.nil _)
  induction balanced generalizing s with
  | nil => exact .nil _
  | text t => exact one (.text t)
  | @lineBreak width counted =>
    refine one (.lineBreak ?_)
    by_cases zero : width = 0 <;> simp [Break.width, zero, counted]
  | hardBreak | trailingComma => exact one (.lineBreak (by decide))
  | append first _ left right =>
    rw [transcript_append, balanced_after first]
    exact admitted_append (left s inside) (right s inside)
  | group starts inner ih =>
    obtain ⟨scope, rest, scopes⟩ := List.exists_cons_of_ne_nil inside
    rw [List.cons_append, transcript, transcript_append, balanced_after inner]
    have entered := ih (s.after _) (by rw [opens_after starts]; simp)
    rw [opens_after starts] at entered ⊢
    refine .cons (opens_admits starts s) (admitted_append entered (one ?_))
    simp only [scopes, tokenAt]
    exact .groupEnd
  | @indented delta _ more inner ih =>
    obtain ⟨scope, rest, scopes⟩ := List.exists_cons_of_ne_nil inside
    have pushed : (s.after (.indent delta)).scopes = (delta :: scope) :: rest := by
      simp [Standing.after, Standing.push, scopes]
    rw [List.cons_append, transcript, transcript_append, balanced_after inner]
    refine .cons ?_ (admitted_append (ih _ (by simp [pushed])) (one ?_))
    · rw [pushed, scopes]
      exact .indent more
    · have last : (s.after (.indent delta)).active = some delta := by simp [Standing.active, pushed]
      rw [tokenAt, last, pushed, scopes]
      exact .outdent

end Balances

section Printing

variable {start : Printer Int}

theorem balanced_disciplined (balanced : Balanced calls) : Disciplined calls :=
  balanced_keeps balanced rfl (by simp [Standing.initial])

theorem balanced_standing (balanced : Balanced calls) : standing calls = .initial :=
  balanced_after balanced .initial

/-- Balanced calls are laid out to the end. -/
theorem balanced_lays (c : Config Int) (balanced : Balanced calls) :
    ∃ page, TokensLaid c (Page.ofConfig c) (transcript .initial calls) page := by
  have admitted := balanced_admitted balanced .initial (by simp [Standing.initial])
  rcases layout_carries (ofConfig_grounded c) (ofConfig_carries c) admitted with
    ⟨page, laid, _⟩ | ⟨t, member, f, _, overhangs⟩
  · exact ⟨page, ofConfig_grounded c, admitted_counted admitted c, ⟨1, admitted_nested admitted⟩,
      admitted_whole admitted, laid⟩
  · have level := transcript_level (balanced_offsets balanced) .initial t member
    cases overhangs with
    | lineBreak back | groupStart back => exact absurd level (Int.not_le.mpr back)

/-- A printer answers balanced calls and the end of the document after them, and writes what their
tokens are laid out to. -/
theorem balanced_printed (accepted : Printer.ofConfig c = .ok start) (balanced : Balanced calls) :
    ∃ p q, start.run calls = .ok p ∧ p.finish = .ok q ∧
      TokensLaid c.withDefaults (Page.ofConfig c.withDefaults) (transcript .initial calls) q.page := by
  obtain ⟨p, ran, told⟩ := run_transcript accepted (balanced_disciplined balanced)
    (balanced_offsets balanced) (by rw [balanced_standing balanced]; rfl)
  have closed : p.scopes.length = 1 := by
    have stands := (run_past accepted ran).stands
    rw [balanced_standing balanced] at stands
    rw [show p.scopes = [[]] from congrArg Standing.scopes stands]
    rfl
  obtain ⟨page, lays⟩ := balanced_lays c.withDefaults balanced
  cases ended : p.finish with
  | error f =>
    have stopped := finish_stops told closed ended
    rw [lays.laid] at stopped
    cases stopped
  | ok q =>
    have heads := finish_heads told.ready closed
    rw [ended] at heads
    obtain ⟨⟨steady, idle, _⟩, same⟩ := heads
    have heading := told.heading [] (by simp [Forward])
    rw [List.append_nil, lays.laid, ← same, outlook_idle steady idle] at heading
    cases heading
    exact ⟨p, q, ran, ended, lays⟩

end Printing

end Galley.Layout.Bracketing
