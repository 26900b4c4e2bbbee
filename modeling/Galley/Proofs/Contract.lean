import Mathlib.Data.List.Induction
import Galley.Proofs.Discipline
import Galley.Proofs.Rendering

/-! The contract of a printer with its callers. What a printer has been told is a list of tokens, one
for each call, and it is heading for the page of their layout; so a call that does not offend can
fail only where that layout does, at a break or a group that goes below the left edge. With no
negative offsets there is no such token, and the calls that fail are those that offend. -/
namespace Galley.Layout.Contract
open Extent PageWriting Tracking Lookahead Emission
open Rendering Indentation Discipline

/-- What a printer has been told by some calls: the tokens that they stand for. The printer is heading
for their layout on a blank page. -/
structure PrinterTold (c : Config Int) (calls : List (Call Int)) (ts : List (Token Int)) (p : Printer Int) :
    Prop where
  ready : PrinterReady p
  config : p.config = c.withDefaults
  hands : List.Forall₂ CallHands calls ts
  admitted : TokensAdmitted [[]] ts p.scopes
  heading : ∀ rest, Forward p.config rest →
    outlook p rest = layout c.withDefaults (Page.ofConfig c.withDefaults) (ts ++ rest)

/-- What lies behind a printer that has answered some calls. Unless the document has ended, it has been
told their tokens. -/
structure CallsAnswered (c : Config Int) (calls : List (Call Int)) (p : Printer Int) : Prop where
  stands : standingOf p = standing calls
  inside : p.scopes ≠ []
  proper : Disciplined calls
  told : p.done = false → ∃ ts, PrinterTold c calls ts p

variable {c : Config Int} {calls : List (Call Int)} {k : Call Int} {ts : List (Token Int)} {t : Token Int}
  {after : List (List Int)} {p q : Printer Int} {f : Fault}

theorem ofConfig_told (accepted : Printer.ofConfig c = .ok p) : PrinterTold c [] [] p := by
  obtain ⟨ready, scopes, config, blank⟩ := ofConfig_ready accepted
  exact ⟨ready, config, .nil, scopes ▸ .nil _, fun rest _ => blank rest⟩

theorem ofConfig_past (accepted : Printer.ofConfig c = .ok p) : CallsAnswered c [] p := by
  have told := ofConfig_told accepted
  obtain ⟨_, scopes, _⟩ := ofConfig_ready accepted
  refine ⟨?_, told.ready.inside, rfl, fun _ => ⟨[], told⟩⟩
  rw [standingOf, scopes, told.ready.fresh]
  rfl

/-- Every token that a printer has been told stands for a call. -/
theorem handed (hands : List.Forall₂ CallHands calls ts) (member : t ∈ ts) : ∃ k ∈ calls, CallHands k t := by
  induction hands with
  | nil => cases member
  | cons first rest ih =>
    rcases List.mem_cons.mp member with rfl | later
    · exact ⟨_, by simp, first⟩
    · obtain ⟨k, called, same⟩ := ih later
      exact ⟨k, by simp [called], same⟩

section Step

/-- A token that is taken in leaves the printer told of it. -/
theorem take_told (told : PrinterTold c calls ts p) (hands : CallHands k t) (admits : GroupsAdmit p.scopes t after)
    (taken : take (withScopes p after) t = .ok q) :
    PrinterTold c (calls ++ [k]) (ts ++ [t]) q ∧ q.scopes = after := by
  obtain ⟨ready, scopes⟩ := taken_ready told.ready admits taken
  have kept : q.config = p.config := by
    have heads := take_ready told.ready admits (by simp [Forward] : Forward p.config [])
    rw [taken] at heads
    exact heads.1.2.2
  refine ⟨⟨ready, kept.trans told.config, ?_, ?_, ?_⟩, scopes⟩
  · exact List.rel_append told.hands (.cons hands .nil)
  · exact scopes ▸ admitted_concat told.admitted admits
  · intro rest forward
    rw [kept] at forward
    have heads := take_ready told.ready admits forward
    rw [taken] at heads
    have further : Forward p.config (t :: rest) := by
      intro u member
      rcases List.mem_cons.mp member with rfl | later
      · exact admits_counted admits p.config
      · exact forward u later
    rw [heads.2, told.heading _ further, List.append_assoc]
    rfl

/-- A token that is not taken in stops the layout of what the printer has been told. -/
theorem take_stops (told : PrinterTold c calls ts p) (admits : GroupsAdmit p.scopes t after)
    (failed : take (withScopes p after) t = .error f) :
    layout c.withDefaults (Page.ofConfig c.withDefaults) (ts ++ [t]) = .error f := by
  have heads := take_ready told.ready admits (by simp [Forward] : Forward p.config [])
  rw [failed] at heads
  have alone : Forward p.config [t] := by
    intro u member
    obtain rfl := List.mem_singleton.mp member
    exact admits_counted admits p.config
  rw [← told.heading [t] alone]
  exact heads

theorem finish_stops (told : PrinterTold c calls ts p) (closed : p.scopes.length = 1)
    (failed : p.finish = .error f) :
    layout c.withDefaults (Page.ofConfig c.withDefaults) ts = .error f := by
  have heads := finish_heads told.ready closed
  rw [failed] at heads
  have same := told.heading [] (by simp [Forward])
  rw [List.append_nil] at same
  rw [← same]
  exact heads

theorem finish_ends (told : PrinterTold c calls ts p) (closed : p.scopes.length = 1) (ran : p.finish = .ok q) :
    q.scopes = p.scopes ∧ q.done = true := by
  have heads := finish_heads told.ready closed
  rw [ran] at heads
  obtain ⟨⟨_, _, ended, scopes, _⟩, _⟩ := heads
  exact ⟨scopes, ended⟩

/-- What stops a layout on a blank page is a token that goes below the left edge. -/
theorem layout_stops (admitted : TokensAdmitted [[]] ts after)
    (stopped : layout c (Page.ofConfig c) ts = .error f) : ∃ t ∈ ts, Overhangs t f := by
  rcases layout_carries (ofConfig_grounded c) (ofConfig_carries c) admitted with
    ⟨final, laid, _⟩ | ⟨t, member, g, failed, overhangs⟩
  · rw [laid] at stopped
    cases stopped
  · rw [failed] at stopped
    cases stopped
    exact ⟨t, member, overhangs⟩

/-- An open document that may end has no group open. -/
theorem closed_of_proper (inside : p.scopes ≠ []) (proper : (standingOf p).offends .eof = false) :
    p.scopes.length = 1 := by
  obtain ⟨_, top⟩ := Bool.or_eq_false_iff.mp proper
  have top : ¬ 0 < p.scopes.length - 1 := of_decide_eq_false top
  have least := List.length_pos_iff.mpr inside
  omega

/-- A call that does not offend is answered, and told to the printer, or it stops at a token below the
left edge that it or an earlier call stands for. -/
theorem proper_outcome (past : CallsAnswered c calls p) (proper : (standing calls).offends k = false) :
    (∃ q, p.call k = .ok q ∧ CallsAnswered c (calls ++ [k]) q) ∨
      ∃ f t, p.call k = .error f ∧ Overhangs t f ∧ ∃ j ∈ calls ++ [k], CallHands j t := by
  have disciplined : Disciplined (calls ++ [k]) := disciplined_concat.mpr ⟨past.proper, proper⟩
  have next := standing_concat calls k
  rw [← past.stands] at proper next
  have fresh : p.done = false := (Bool.or_eq_false_iff.mp proper).1
  obtain ⟨ts, told⟩ := past.told fresh
  by_cases ends : k = .eof
  · subst ends
    have closed := closed_of_proper past.inside proper
    cases ran : p.finish with
    | ok q =>
      obtain ⟨scopes, ended⟩ := finish_ends told closed ran
      refine .inl ⟨q, ran, ?_, scopes ▸ past.inside, disciplined, fun unended => ?_⟩
      · rw [next, standingOf, scopes, ended]
        rfl
      · rw [ended] at unended
        cases unended
    | error f =>
      obtain ⟨t, member, overhangs⟩ := layout_stops told.admitted (finish_stops told closed ran)
      obtain ⟨j, called, hands⟩ := handed told.hands member
      exact .inr ⟨f, t, ran, overhangs, j, by simp [called], hands⟩
  · obtain ⟨_, t, hands, admits, given⟩ := proper_gives past.inside proper ends
    cases ran : take (withScopes p ((standingOf p).after k).scopes) t with
    | ok q =>
      obtain ⟨later, scopes⟩ := take_told told hands admits ran
      refine .inl ⟨q, given.trans ran, ?_, later.ready.inside, disciplined, fun _ => ⟨_, later⟩⟩
      have unended : ((standingOf p).after k).ended = false := (after_ended ends).trans fresh
      rw [next, standingOf, scopes, later.ready.fresh, ← unended]
    | error f =>
      obtain ⟨u, member, overhangs⟩ :=
        layout_stops (admitted_concat told.admitted admits) (take_stops told admits ran)
      obtain ⟨j, called, hands⟩ := handed (List.rel_append told.hands (.cons hands .nil)) member
      exact .inr ⟨f, u, given.trans ran, overhangs, j, called, hands⟩

end Step

section Runs

variable {start : Printer Int}

theorem run_concat (start : Printer Int) (calls : List (Call Int)) (k : Call Int) :
    start.run (calls ++ [k]) = start.run calls >>= fun p => p.call k := by
  simp only [Printer.run, List.foldlM_append, List.foldlM_cons, List.foldlM_nil, bind_pure]

/-- A printer that has answered some calls has been told what they stand for. -/
theorem run_past (accepted : Printer.ofConfig c = .ok start) (ran : start.run calls = .ok p) :
    CallsAnswered c calls p := by
  induction calls using List.reverseRecOn generalizing p with
  | nil =>
    cases ran
    exact ofConfig_past accepted
  | append_singleton calls k ih =>
    rw [run_concat] at ran
    obtain ⟨q, before, called⟩ := bind_ok ran
    have past := ih before
    cases offends : (standing calls).offends k with
    | true =>
      rw [← past.stands] at offends
      obtain ⟨b, refused, _⟩ := offends_refuses offends
      rw [refused] at called
      cases called
    | false =>
      rcases proper_outcome past offends with ⟨r, answered, later⟩ | ⟨f, _, failed, _⟩
      · rw [answered] at called
        cases called
        exact later
      · rw [failed] at called
        cases called

/-- Without negative offsets nothing goes below the left edge, so a call that does not offend is
answered. -/
theorem level_answered (past : CallsAnswered c calls p) (proper : (standing calls).offends k = false)
    (offsets : ∀ j ∈ calls ++ [k], 0 ≤ offsetOf j) : ∃ q, p.call k = .ok q := by
  rcases proper_outcome past proper with ⟨q, answered, _⟩ | ⟨f, t, _, overhangs, j, called, hands⟩
  · exact ⟨q, answered⟩
  · have level := offsets j called
    rw [← hands_offset hands] at level
    cases overhangs with
    | lineBreak back | groupStart back => exact absurd level (Int.not_le.mpr back)

theorem run_answered (accepted : Printer.ofConfig c = .ok start) (offsets : ∀ k ∈ calls, 0 ≤ offsetOf k)
    (proper : Disciplined calls) : ∃ p, start.run calls = .ok p := by
  induction calls using List.reverseRecOn with
  | nil => exact ⟨start, rfl⟩
  | append_singleton calls k ih =>
    obtain ⟨before, last⟩ := disciplined_concat.mp proper
    obtain ⟨p, ran⟩ := ih (fun j called => offsets j (by simp [called])) before
    obtain ⟨q, answered⟩ := level_answered (run_past accepted ran) last offsets
    exact ⟨q, by rw [run_concat, ran, ok_bind, answered]⟩

/-- Calls without negative offsets are answered exactly if they keep the discipline. -/
theorem run_answered_iff (accepted : Printer.ofConfig c = .ok start)
    (offsets : ∀ k ∈ calls, 0 ≤ offsetOf k) : (∃ p, start.run calls = .ok p) ↔ Disciplined calls := by
  constructor
  · rintro ⟨p, ran⟩
    exact (run_past accepted ran).proper
  · exact run_answered accepted offsets

/-- A call that fails offends and is refused before anything is written, or it stops at a token below
the left edge. -/
theorem call_fails (past : CallsAnswered c calls p) (failed : p.call k = .error f) :
    (standing calls).offends k = true ∧ (∃ b, f = .contract b ∧ ofWriting b = false) ∨
      (standing calls).offends k = false ∧ ∃ t, Overhangs t f := by
  cases offends : (standing calls).offends k with
  | true =>
    rw [← past.stands] at offends
    obtain ⟨b, refused, emission⟩ := offends_refuses offends
    rw [refused] at failed
    cases failed
    exact .inl ⟨rfl, b, rfl, emission⟩
  | false =>
    rcases proper_outcome past offends with ⟨q, answered, _⟩ | ⟨g, t, stopped, overhangs, _⟩
    · rw [answered] at failed
      cases failed
    · rw [stopped] at failed
      cases failed
      exact .inr ⟨rfl, t, overhangs⟩

end Runs

/-- Without negative offsets a call breaches the contract exactly if it is the first that offends
against the discipline; all calls before the first such call are answered, and no breach comes from
writing. Whatever the offsets, a change of indentation never goes below the left edge. -/
theorem breach_iff_first_offence (c : Config Int) (start : Printer Int)
    (accepted : Printer.ofConfig c = .ok start) :
    (∀ calls k, (∀ j ∈ calls ++ [k], 0 ≤ offsetOf j) →
      ((∃ p b, start.run calls = .ok p ∧ p.call k = .error (.contract b)) ↔
        Disciplined calls ∧ (standing calls).offends k = true) ∧
      ((∃ p, start.run calls = .ok p) ↔ Disciplined calls) ∧
      ∀ p b, start.run calls = .ok p → p.call k = .error (.contract b) → ofWriting b = false) ∧
    ∀ calls k p n, start.run calls = .ok p → p.call k ≠ .error (.contract (.indentUnderflow n)) := by
  refine ⟨fun calls k offsets => ?_, ?_⟩
  · have before : ∀ j ∈ calls, 0 ≤ offsetOf j := fun j called => offsets j (by simp [called])
    have offended {p : Printer Int} {b : Breach} (ran : start.run calls = .ok p)
        (failed : p.call k = .error (.contract b)) :
        (standing calls).offends k = true ∧ ofWriting b = false := by
      have past := run_past accepted ran
      rcases call_fails past failed with ⟨offends, _, same, emission⟩ | ⟨proper, _⟩
      · cases same
        exact ⟨offends, emission⟩
      · obtain ⟨q, answered⟩ := level_answered past proper offsets
        rw [answered] at failed
        cases failed
    refine ⟨⟨?_, ?_⟩, run_answered_iff accepted before, fun p b ran failed => (offended ran failed).2⟩
    · rintro ⟨p, b, ran, failed⟩
      exact ⟨(run_past accepted ran).proper, (offended ran failed).1⟩
    · rintro ⟨proper, offends⟩
      obtain ⟨p, ran⟩ := run_answered accepted before proper
      rw [← (run_past accepted ran).stands] at offends
      obtain ⟨b, refused, _⟩ := offends_refuses offends
      exact ⟨p, b, ran, refused⟩
  · intro calls k p n ran failed
    rcases call_fails (run_past accepted ran) failed with ⟨_, _, same, emission⟩ | ⟨_, t, overhangs⟩
    · cases same
      cases emission
    · cases overhangs

theorem breach_iff_first_offence_outdent :
    ∃ start : Printer Int, Printer.ofConfig ⟨10, 4, false, false⟩ = .ok start ∧
      ∃ p b, start.run [.groupStart .consistent 2, .indent 3, .text "aa", Call.space, .outdent] = .ok p ∧
        p.call .outdent = .error (.contract b) :=
  ⟨_, rfl, ((breach_iff_first_offence ⟨10, 4, false, false⟩ _ rfl).1 _ _ (by decide)).1.mpr
    ⟨by decide, by decide⟩⟩

end Galley.Layout.Contract
