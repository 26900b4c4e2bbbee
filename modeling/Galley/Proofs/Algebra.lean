import Galley.Proofs.Documents

/-! The algebra of documents. Documents of the same meaning are interchangeable wherever they stand, and
so the laws below hold inside every document: a plain group around a group adds nothing, nesting and
plain groups commute, nestings add up, a group of what cannot break is no group, and documents can be
put together in any order of brackets. -/
namespace Galley.Layout.Algebra
open Documents

/-- A document with a hole. -/
inductive Context where
  | hole
  | nest (amount : Int) (levels : Bool) (inner : Context)
  | group (breaks : Breaks) (align : Bool) (inner : Context)
  | before (inner : Context) (d : Doc Int)
  | after (d : Doc Int) (inner : Context)

namespace Context

/-- The document with another in place of its hole. -/
def fill : Context → Doc Int → Doc Int
  | .hole, d => d
  | .nest amount levels inner, d => .nest amount levels (inner.fill d)
  | .group breaks align inner, d => .group breaks align (inner.fill d)
  | .before inner b, d => (inner.fill d).append b
  | .after a inner, d => a.append (inner.fill d)

/-- Everything around the hole has a layout. -/
def Sound : Context → Prop
  | .hole => True
  | .nest amount _ inner => 0 ≤ amount ∧ inner.Sound
  | .group breaks _ inner => (∀ code, breaks ≠ .unknown code) ∧ inner.Sound
  | .before inner d | .after d inner => Documents.Sound d ∧ inner.Sound

end Context

/-- A document without any break. -/
def Breakless : Doc Int → Prop
  | .line | .softBreak | .hardLine | .trailingComma => False
  | .nest _ _ d | .group _ _ d => Breakless d
  | .concat a b => Breakless a ∧ Breakless b
  | _ => True

/-- Documents of the same meaning: as wide when nothing breaks, and with the same extents and the same
writing whatever stands around them. -/
structure Same (c : Config Int) (d e : Doc Int) : Prop where
  flat : flat c d = flat c e
  reach : reachInto c d = reachInto c e
  paint : paint c d = paint c e

variable {c : Config Int} {a b d e : Doc Int}

section Congruence

theorem same_trans {f : Doc Int} (first : Same c d e) (second : Same c e f) : Same c d f :=
  ⟨first.flat.trans second.flat, first.reach.trans second.reach, first.paint.trans second.paint⟩

theorem same_symm (same : Same c d e) : Same c e d := ⟨same.flat.symm, same.reach.symm, same.paint.symm⟩

theorem same_nest (same : Same c d e) (amount : Int) (levels : Bool) :
    Same c (.nest amount levels d) (.nest amount levels e) := by
  refine ⟨same.flat, ?_, ?_⟩
  · funext ahead
    simp only [reachInto, same.reach]
  · funext top ahead sink
    simp only [paint, same.paint]

theorem same_group (same : Same c d e) (breaks : Breaks) (align : Bool) :
    Same c (.group breaks align d) (.group breaks align e) := by
  refine ⟨same.flat, ?_, ?_⟩
  · funext ahead
    simp only [reachInto, same.flat, same.reach]
  · funext top ahead sink
    simp only [paint, same.flat, same.paint]

theorem same_concat {f g : Doc Int} (first : Same c a b) (second : Same c f g) :
    Same c (.concat a f) (.concat b g) := by
  refine ⟨?_, ?_, ?_⟩
  · simp only [flat, first.flat, second.flat]
  · funext ahead
    simp only [reachInto, first.reach, second.reach]
  · funext top ahead sink
    simp only [paint, first.paint, second.paint, second.reach]

/-- Leaving out empty documents does not change the meaning. -/
theorem same_append (a b : Doc Int) : Same c (a.append b) (.concat a b) := by
  unfold Doc.append
  split
  · exact ⟨(Int.zero_add _).symm, rfl, rfl⟩
  · exact ⟨(Int.add_zero _).symm, rfl, rfl⟩
  · exact ⟨rfl, rfl, rfl⟩

theorem append_congr {f g : Doc Int} (first : Same c a b) (second : Same c f g) :
    Same c (a.append f) (b.append g) :=
  same_trans (same_append a f) (same_trans (same_concat first second) (same_symm (same_append b g)))

/-- Documents of the same meaning have the same meaning wherever they stand. -/
theorem same_fill (same : Same c d e) (C : Context) : Same c (C.fill d) (C.fill e) := by
  induction C with
  | hole => exact same
  | nest amount levels inner ih => exact same_nest ih amount levels
  | group breaks align inner ih => exact same_group ih breaks align
  | before inner b ih => exact append_congr ih ⟨rfl, rfl, rfl⟩
  | after a inner ih => exact append_congr ⟨rfl, rfl, rfl⟩ ih

theorem sound_append (left : Sound a) (right : Sound b) : Sound (a.append b) := by
  unfold Doc.append
  split
  · exact right
  · exact left
  · exact ⟨left, right⟩

theorem sound_fill {C : Context} (around : C.Sound) (sound : Sound d) : Sound (C.fill d) := by
  induction C with
  | hole => exact sound
  | nest _ _ _ ih | group _ _ _ ih => exact ⟨around.1, ih around.2⟩
  | before inner b ih => exact sound_append (ih around.2) around.1
  | after a inner ih => exact sound_append around.1 (ih around.2)

end Congruence

section Laws

/-- A plain group moves nothing. -/
private theorem indent_plainFrame (breaks : Breaks) (top : Frame Int) (size : Int) (sink : Sink Int) :
    (paintFrame breaks false top size sink).indent = top.indent := by
  unfold paintFrame
  split <;> rfl

private theorem paintFrame_congr {top other : Frame Int} (same : top.indent = other.indent) (breaks : Breaks)
    (align : Bool) (size : Int) (sink : Sink Int) :
    paintFrame breaks align top size sink = paintFrame breaks align other size sink := by
  simp only [paintFrame, same]

/-- A plain group around a group adds nothing: both fit or neither does. -/
theorem group_group (breaks other : Breaks) (align : Bool) (d : Doc Int) :
    Same c (.group breaks false (.group other align d)) (.group other align d) := by
  refine ⟨rfl, rfl, ?_⟩
  funext top ahead sink
  simp only [paint, paintFrame_congr (indent_plainFrame breaks top _ sink)]
  rfl

/-- Nesting a plain group nests what is in it. -/
theorem nest_group (amount : Int) (levels : Bool) (breaks : Breaks) (d : Doc Int) :
    Same c (.nest amount levels (.group breaks false d)) (.group breaks false (.nest amount levels d)) := by
  have moved (top : Frame Int) (delta size : Int) (sink : Sink Int) :
      paintFrame breaks false { top with indent := top.indent + delta } size sink =
        { paintFrame breaks false top size sink with
          indent := (paintFrame breaks false top size sink).indent + delta } := by
    unfold paintFrame
    split <;> rfl
  refine ⟨rfl, rfl, ?_⟩
  funext top ahead sink
  simp only [paint, moved, flat]

/-- Nestings add up. -/
theorem nest_nest (n m : Int) (levels : Bool) (d : Doc Int) :
    Same c (.nest n levels (.nest m levels d)) (.nest (n + m) levels d) := by
  have total : shift c.unit (n + m) levels = shift c.unit n levels + shift c.unit m levels := by
    unfold shift
    split
    · exact Int.add_mul n m c.unit
    · rfl
  refine ⟨rfl, rfl, ?_⟩
  funext top ahead sink
  simp only [paint, total, Int.add_assoc]

theorem reach_breakless (breakless : Breakless d) (ahead : Ahead) :
    reachInto c d ahead = ⟨flat c d + ahead.chunk, flat c d + ahead.line⟩ := by
  induction d generalizing ahead with
  | nil => simp [reachInto, flat]
  | text s => rfl
  | nest amount levels d ih => exact ih breakless ahead
  | group breaks align d ih =>
    simp only [reachInto, ih breakless]
    rfl
  | concat a b left right =>
    simp only [reachInto, left breakless.1, right breakless.2, flat, Int.add_assoc]
  | foreign kind => simp [reachInto, flat]
  | _ => exact breakless.elim

/-- A document without breaks is written alike in any group and before anything. -/
theorem paint_breakless (breakless : Breakless d) (top other : Frame Int) (ahead later : Ahead)
    (sink : Sink Int) : paint c d top ahead sink = paint c d other later sink := by
  induction d generalizing top other ahead later sink with
  | nest _ _ _ ih | group _ _ _ ih => exact ih breakless _ _ _ _ _
  | concat a b left right =>
    simp only [paint]
    rw [left breakless.1 top other _ (reachInto c b later), right breakless.2 top other ahead later]
  | nil | text | foreign => rfl
  | _ => exact breakless.elim

/-- A group of a document without breaks is no group. -/
theorem group_breakless (breakless : Breakless d) (breaks : Breaks) (align : Bool) :
    Same c (.group breaks align d) d := by
  refine ⟨rfl, ?_, ?_⟩
  · funext ahead
    simp only [reachInto, reach_breakless breakless]
    rfl
  · funext top ahead sink
    exact paint_breakless breakless _ _ _ _ _

theorem append_assoc (a b d : Doc Int) : Same c ((a.append b).append d) (a.append (b.append d)) := by
  have brackets : Same c (.concat (.concat a b) d) (.concat a (.concat b d)) :=
    ⟨Int.add_assoc _ _ _, rfl, rfl⟩
  have left : Same c ((a.append b).append d) (.concat (.concat a b) d) :=
    same_trans (same_append _ d) (same_concat (same_append a b) ⟨rfl, rfl, rfl⟩)
  have right : Same c (a.append (b.append d)) (.concat a (.concat b d)) :=
    same_trans (same_append a _) (same_concat ⟨rfl, rfl, rfl⟩ (same_append b d))
  exact same_trans left (same_trans brackets (same_symm right))

end Laws

private theorem plain_group {outer : Doc Int → Doc Int} (plain : outer ∈ [Doc.grouped, Doc.filled]) :
    ∃ breaks : Breaks, (∀ code, breaks ≠ .unknown code) ∧ outer = .group breaks false := by
  rcases List.mem_pair.mp plain with rfl | rfl
  · exact ⟨.consistent, by simp, rfl⟩
  · exact ⟨.inconsistent, by simp, rfl⟩

private theorem any_group {outer : Doc Int → Doc Int} (any : outer ∈ [Doc.grouped, Doc.filled, Doc.aligned]) :
    ∃ (breaks : Breaks) (align : Bool), (∀ code, breaks ≠ .unknown code) ∧ outer = .group breaks align := by
  simp only [List.mem_cons, List.not_mem_nil, or_false] at any
  rcases any with rfl | rfl | rfl
  · exact ⟨.consistent, false, by simp, rfl⟩
  · exact ⟨.inconsistent, false, by simp, rfl⟩
  · exact ⟨.consistent, true, by simp, rfl⟩

/-- Two documents are rendered alike in the place of a hole. -/
def Interchangeable (c : Config Int) (C : Context) (d e : Doc Int) : Prop :=
  ∃ out, (C.fill d).render c = .ok out ∧ (C.fill e).render c = .ok out

theorem same_interchangeable {start : Printer Int} (accepted : Printer.ofConfig c = .ok start) {C : Context}
    (around : C.Sound) (left : Sound d) (right : Sound e) (same : Same c.withDefaults d e) :
    Interchangeable c C d e := by
  have whole := same_fill same C
  refine ⟨_, render_eq_meaning accepted (sound_fill around left), ?_⟩
  rw [render_eq_meaning accepted (sound_fill around right)]
  simp only [meaning, whole.paint]

/-- The laws of documents hold in every document with a hole and under every configuration that is
accepted: a plain group around a group, nested groups, nested nestings, groups without breaks, and
brackets. -/
theorem document_laws (c : Config Int) (start : Printer Int) (accepted : Printer.ofConfig c = .ok start)
    (C : Context) (around : C.Sound) :
    (∀ outer ∈ [Doc.grouped, Doc.filled], ∀ inner ∈ [Doc.grouped, Doc.filled, Doc.aligned], ∀ d, Sound d →
      Interchangeable c C (outer (inner d)) (inner d)) ∧
    (∀ plain ∈ [Doc.grouped, Doc.filled], ∀ n d, 0 ≤ n → Sound d →
      Interchangeable c C (.nestBy n (plain d)) (plain (.nestBy n d))) ∧
    (∀ n m d, 0 ≤ n → 0 ≤ m → Sound d →
      Interchangeable c C (.nestBy n (.nestBy m d)) (.nestBy (n + m) d)) ∧
    (∀ any ∈ [Doc.grouped, Doc.filled, Doc.aligned], ∀ d, Sound d → Breakless d →
      Interchangeable c C (any d) d) ∧
    ∀ a b d, Sound a → Sound b → Sound d →
      Interchangeable c C ((a.append b).append d) (a.append (b.append d)) := by
  refine ⟨?_, ?_, ?_, ?_, ?_⟩
  · intro outer plain inner any d sound
    obtain ⟨breaks, policy, rfl⟩ := plain_group plain
    obtain ⟨other, align, policy', rfl⟩ := any_group any
    exact same_interchangeable accepted around ⟨policy, policy', sound⟩ ⟨policy', sound⟩
      (group_group breaks other align d)
  · intro outer plain n d more sound
    obtain ⟨breaks, policy, rfl⟩ := plain_group plain
    exact same_interchangeable accepted around ⟨more, policy, sound⟩ ⟨policy, more, sound⟩
      (nest_group n false breaks d)
  · intro n m d first second sound
    exact same_interchangeable accepted around ⟨first, second, sound⟩ ⟨Int.add_nonneg first second, sound⟩
      (nest_nest n m false d)
  · intro outer any d sound breakless
    obtain ⟨breaks, align, policy, rfl⟩ := any_group any
    exact same_interchangeable accepted around ⟨policy, sound⟩ sound (group_breakless breakless breaks align)
  · intro a b d first second third
    exact same_interchangeable accepted around (sound_append (sound_append first second) third)
      (sound_append first (sound_append second third)) (append_assoc a b d)

/-- A list in a call, nested outside its group or inside it: at six columns its lines are the same. -/
theorem document_laws_call :
    let c : Config Int := ⟨6, 2, false, false⟩
    let C : Context := .group .inconsistent true (.after (.text "f") (.before .hole (.text ";")))
    let list : Doc Int := Doc.join "," [.text "aa", .text "bb"]
    (C.fill (.nestBy 1 (.grouped list))).render c = .ok "faa,\n bb;" ∧
      (C.fill (.grouped (.nestBy 1 list))).render c = .ok "faa,\n bb;" := by
  intro c C list
  have around : C.Sound := ⟨by simp, trivial, trivial, trivial⟩
  have sound : Sound list := ⟨⟨trivial, trivial⟩, trivial, trivial⟩
  obtain ⟨out, first, second⟩ :=
    (document_laws c _ rfl C around).2.1 Doc.grouped (by simp) 1 list (by decide) sound
  have written : (C.fill (.nestBy 1 (.grouped list))).render c = .ok "faa,\n bb;" := by decide +kernel
  rw [written] at first
  cases first
  exact ⟨written, second⟩

end Galley.Layout.Algebra
