import Galley.Proofs.Emission

/-! The indentation of the groups on a page, beside what callers have pushed in them. A frame carries
at least what is pushed in its group, and the frame of the document exactly that, as long as tokens
are written that the open groups admit. So a decrease of indentation never goes below the left edge,
and writing refuses a token only for an offset that does. -/
namespace Galley.Layout.Indentation
open Extent PageWriting Emission

/-- All the indentation pushed in a group. -/
def pushed : List Int → Int
  | [] => 0
  | delta :: scope => delta + pushed scope

/-- The columns by which a token moves a line or the lines of a group. -/
def offset : Token Int → Int
  | .lineBreak b => b.offset
  | .groupStart g => g.offset
  | _ => 0

/-- The frames of a page carry the indentation pushed in the open groups, innermost first. -/
inductive FramesCarry : List (List Int) → List (Frame Int) → Prop where
  | document {scope : List Int} {frame : Frame Int} (deltas : ∀ delta ∈ scope, 0 ≤ delta)
      (own : frame.indent = pushed scope) : FramesCarry [scope] [frame]
  | group {scope : List Int} {frame : Frame Int} {scopes : List (List Int)} {frames : List (Frame Int)}
      (deltas : ∀ delta ∈ scope, 0 ≤ delta) (own : pushed scope ≤ frame.indent)
      (outer : FramesCarry scopes frames) : FramesCarry (scope :: scopes) (frame :: frames)

/-- The open groups before and after tokens that may stand there, one after the other. -/
inductive TokensAdmitted : List (List Int) → List (Token Int) → List (List Int) → Prop where
  | nil (scopes : List (List Int)) : TokensAdmitted scopes [] scopes
  | cons {scopes next after : List (List Int)} {t : Token Int} {ts : List (Token Int)}
      (first : GroupsAdmit scopes t next) (rest : TokensAdmitted next ts after) : TokensAdmitted scopes (t :: ts) after

variable {c : Config Int} {scopes after : List (List Int)} {frames : List (Frame Int)}
  {page final : Page Int} {t : Token Int} {ts : List (Token Int)} {size : Int} {f : Fault}

theorem pushed_nonneg {scope : List Int} (deltas : ∀ delta ∈ scope, 0 ≤ delta) : 0 ≤ pushed scope := by
  induction scope with
  | nil => exact Int.le_refl 0
  | cons delta scope ih =>
    have head := deltas delta (by simp)
    have rest := ih fun other member => deltas other (by simp [member])
    simp only [pushed]
    omega

variable (admitted : TokensAdmitted scopes ts after)
include admitted

theorem admitted_concat {last : List (List Int)}
    (next : GroupsAdmit after t last) : TokensAdmitted scopes (ts ++ [t]) last := by
  induction admitted with
  | nil scopes => exact .cons next (.nil last)
  | cons first rest ih => exact .cons first (ih next)

theorem admitted_nested : levels scopes.length ts = some after.length := by
  induction admitted with
  | nil scopes => rfl
  | cons first rest ih => simp only [levels, admits_level first, Option.bind_some, ih]

theorem admitted_counted (c : Config Int) : Forward c ts := by
  induction admitted with
  | nil scopes => simp [Forward]
  | cons first rest ih =>
    intro u member
    rcases List.mem_cons.mp member with rfl | later
    · exact admits_counted first c
    · exact ih u later

theorem admitted_whole : .missing ∉ ts := by
  induction admitted with
  | nil scopes => simp
  | cons first rest ih =>
    intro member
    rcases List.mem_cons.mp member with missing | later
    · exact admits_present first missing.symm
    · exact ih later

omit admitted

theorem carries_length (carries : FramesCarry scopes frames) : frames.length = scopes.length := by
  induction carries with
  | document => rfl
  | group _ _ _ ih => simp [ih]

/-- The innermost frame carries what is pushed in the innermost group. -/
theorem carries_top {scope : List Int} {rest : List (List Int)} {top : Frame Int}
    {outer : List (Frame Int)} (carries : FramesCarry (scope :: rest) (top :: outer)) :
    (∀ delta ∈ scope, 0 ≤ delta) ∧ pushed scope ≤ top.indent := by
  cases carries with
  | document deltas own => exact ⟨deltas, Int.le_of_eq own.symm⟩
  | group deltas own _ => exact ⟨deltas, own⟩

theorem carries_indent {top : Frame Int} {outer : List (Frame Int)}
    (carries : FramesCarry scopes (top :: outer)) : 0 ≤ top.indent := by
  obtain ⟨scope, rest, rfl⟩ : ∃ scope rest, scopes = scope :: rest := by
    cases carries with
    | document | group => exact ⟨_, _, rfl⟩
  obtain ⟨deltas, own⟩ := carries_top carries
  have least := pushed_nonneg deltas
  omega

/-- A change of indentation moves the innermost frame and what is pushed there alike. -/
theorem carries_shift {scope moved : List Int} {rest : List (List Int)} {top : Frame Int}
    {outer : List (Frame Int)} {delta : Int} (carries : FramesCarry (scope :: rest) (top :: outer))
    (deltas : ∀ d ∈ moved, 0 ≤ d) (same : pushed moved = pushed scope + delta) :
    FramesCarry (moved :: rest) ({ top with indent := top.indent + delta } :: outer) := by
  cases carries with
  | document _ own =>
    refine .document deltas ?_
    show top.indent + delta = pushed moved
    omega
  | group _ own inner =>
    refine .group deltas ?_ inner
    show pushed moved ≤ top.indent + delta
    omega

/-- A group that starts carries nothing yet. -/
theorem carries_start {frame : Frame Int} (indented : 0 ≤ frame.indent)
    (carries : FramesCarry scopes frames) : FramesCarry ([] :: scopes) (frame :: frames) :=
  .group (by simp) indented carries

/-- Writing a token keeps the frames in step with the open groups. -/
theorem wrote_carries {next : Page Int} (carries : FramesCarry scopes page.frames)
    (admits : GroupsAdmit scopes t after) (wrote : Wrote page t size next) : FramesCarry after next.frames := by
  cases admits with
  | text s => cases wrote; exact carries
  | lineBreak counted => cases wrote <;> exact carries
  | groupStart known =>
    cases wrote with
    | fit frames fits =>
      rw [frames] at carries ⊢
      have indented := carries_indent carries
      exact carries_start indented carries
    | split frames wide placed indented =>
      rw [frames] at carries ⊢
      exact carries_start indented carries
  | groupEnd =>
    cases wrote with
    | stop frames =>
      rw [frames] at carries
      cases carries with
      | group _ _ outer => exact outer
  | indent more =>
    cases wrote with
    | shift frames indented =>
      rw [frames] at carries
      refine carries_shift carries ?_ (by simp only [pushed]; omega)
      intro d member
      rcases List.mem_cons.mp member with rfl | older
      · exact more
      · exact (carries_top carries).1 d older
  | outdent =>
    cases wrote with
    | shift frames indented =>
      rw [frames] at carries
      exact carries_shift carries (fun d member => (carries_top carries).1 d (by simp [member]))
        (by simp only [pushed]; omega)

/-- What writing may raise on a page: a break or a group start that goes below the left edge. -/
inductive Overhangs : Token Int → Fault → Prop where
  | lineBreak {b : Break Int} (back : b.offset < 0) (indent : Int) :
      Overhangs (.lineBreak b) (.contract (.negativeIndentation indent))
  | groupStart {g : Group Int} (back : g.offset < 0) (indent : Int) :
      Overhangs (.groupStart g) (.contract (.groupIndentUnderflow indent))

theorem carries_framed (carries : FramesCarry scopes frames) : ∃ top outer, frames = top :: outer := by
  cases carries with
  | document | group => exact ⟨_, _, rfl⟩

/-- A token that writing refuses lies below the left edge by its own offset. -/
theorem write_overhangs (grounded : PageGrounded c page) (carries : FramesCarry scopes page.frames)
    (admits : GroupsAdmit scopes t after) (failed : page.write t size = .error f) : Overhangs t f := by
  obtain ⟨top, outer, frames⟩ := carries_framed carries
  rw [frames] at carries
  have left := carries_indent carries
  cases admits with
  | text s => cases failed
  | lineBreak counted =>
    simp only [Page.write, Page.writeBreak, frames, Sink.newline] at failed
    split at failed
    · cases failed
    · split at failed
      · rename_i below
        cases failed
        exact .lineBreak (by omega) _
      · cases failed
  | @groupStart _ g known =>
    -- The base is the enclosing indentation or the current column; neither is negative.
    have base : 0 ≤ if g.align then page.sink.column else top.indent := by
      have space := grounded.space
      have config := grounded.config
      split
      · simp only [Sink.column, config]
        omega
      · exact left
    simp only [Page.write, Page.startGroup, frames] at failed
    split at failed
    · cases failed
    · generalize (if g.align then page.sink.column else top.indent) = column at failed base
      split at failed
      · rename_i below
        cases failed
        exact .groupStart (by omega) _
      · cases failed
  | groupEnd =>
    simp only [Page.write, frames] at failed
    cases failed
  | indent more =>
    simp only [Page.write, frames] at failed
    split at failed
    · omega
    · cases failed
  | outdent =>
    obtain ⟨deltas, own⟩ := carries_top carries
    have rest := pushed_nonneg fun d member => deltas d (List.mem_cons_of_mem _ member)
    simp only [pushed] at own
    simp only [Page.write, frames] at failed
    split at failed
    · omega
    · cases failed

/-- A layout from a page in step with the open groups leads to such a page, or stops at a token that
lies below the left edge. -/
theorem layout_carries (grounded : PageGrounded c page) (carries : FramesCarry scopes page.frames)
    (admitted : TokensAdmitted scopes ts after) :
    (∃ final, layout c page ts = .ok final ∧ PageGrounded c final ∧ FramesCarry after final.frames) ∨
      ∃ t ∈ ts, ∃ f, layout c page ts = .error f ∧ Overhangs t f := by
  induction admitted generalizing page with
  | nil scopes => exact .inl ⟨page, rfl, grounded, carries⟩
  | @cons scopes next after t ts first rest ih =>
    cases ran : page.write t (exactSize c t ts) with
    | error f =>
      refine .inr ⟨t, by simp, f, ?_, write_overhangs grounded carries first ran⟩
      rw [layout, ran]
      rfl
    | ok written =>
      have step : layout c page (t :: ts) = layout c written ts := by
        rw [layout, ran]
        rfl
      obtain ⟨later, _⟩ := write_grounded grounded (admits_counted first c)
        (fun none => by simp [exactSize, none]) (carries_length carries ▸ admits_level first) ran
      rcases ih later (wrote_carries carries first (write_cases ran)) with done | ⟨u, member, f, stopped⟩
      · rw [step]
        exact .inl done
      · rw [step]
        exact .inr ⟨u, by simp [member], f, stopped⟩

theorem ofConfig_carries (c : Config Int) : FramesCarry [[]] (Page.ofConfig c).frames :=
  .document (by simp) rfl

end Galley.Layout.Indentation
