import Galley.Sql.Source

/-! The texts of SQL statements that are read. Whatever tokens a statement is read from, the layout never
gets an empty text for a column, a table, a key of an order or group, or a whole body: an expression shows
something, for it is made of names, numbers and signs. Main statement: statements that are read show something
in each of their clauses. -/
namespace Galley.Sql

/-- An expression whose text shows something, also when its sign is turned. -/
inductive Expr.Shown : Expr → Prop where
  | and (left right : Expr) : Shown (.and left right)
  | or (left right : Expr) : Shown (.or left right)
  | tuple (items : List Text) : Shown (.tuple items)
  /-- A number has one sign at most. -/
  | number (n : Numeral) {t : Text} (signed : t = n.text ∨ t = 0x2d :: n.text) : Shown (.leaf .number t)
  | leaf {shape : Shape} {t : Text} (other : shape ≠ .number) (filled : t ≠ []) : Shown (.leaf shape t)

mutual

/-- A selection that shows something in each of its clauses. -/
inductive Select.Shown : Select → Prop where
  | mk {ctes : Option Text} {body : Body} {orderBy : List Text} {limit : Option Limit} {locking : Text}
      (named : ∀ t ∈ ctes, t ≠ []) (whole : body.Shown) (keys : ∀ t ∈ orderBy, t ≠ []) :
      (Select.mk ctes body orderBy limit locking).Shown

/-- A body that shows something in each of its clauses. -/
inductive Body.Shown : Body → Prop where
  | clause {distinct : Bool} {columns : List Text} {tables : List Table} {condition : Option Expr}
      {groupBy : List Text} {having : Option Expr} (some : columns ≠ []) (each : ∀ t ∈ columns, t ≠ [])
      (sources : ∀ t ∈ tables, Table.Shown t) (keys : ∀ t ∈ groupBy, t ≠ []) :
      (Body.clause distinct columns tables condition groupBy having).Shown
  | parens {s : Select} (inner : s.Shown) : (Body.parens s).Shown
  | combined {op : SetOperation} {all : Bool} {left right : Select} (first : left.Shown) (second : right.Shown) :
      (Body.combined op all left right).Shown
  | verbatim {t : Text} (filled : t ≠ []) : (Body.verbatim t).Shown

/-- A table that shows something. -/
inductive Table.Shown : Table → Prop where
  | selection {s : Select} {asName : Option Text} (inner : s.Shown) : (Table.selection s asName).Shown
  | verbatim {t : Text} (filled : t ≠ []) : (Table.verbatim t).Shown

end

/-- A statement that shows something in each of the clauses that it is broken up into. -/
inductive Statement.Shown : Statement → Prop where
  | select {s : Select} (inner : s.Shown) : (Statement.select s).Shown
  | parens {s : Select} (inner : s.Shown) : (Statement.parens s).Shown
  | verbatim (t : Text) : (Statement.verbatim t).Shown

namespace StatementTexts
open Read

section Texts

variable {e : Expr} {t : Text}

@[simp] theorem ofString_eq_nil {s : String} : Text.ofString s = [] ↔ s = "" := by
  rw [Text.ofString, Array.toList_eq_nil_iff]
  constructor
  · intro none
    have size : s.utf8ByteSize = 0 := congrArg Array.size none
    exact String.utf8ByteSize_eq_zero_iff.mp size
  · rintro rfl
    rfl

@[simp] theorem parens_filled (t : Text) : Expr.parens t ≠ [] := by simp [Expr.parens]

theorem join_filled (sep : Text) (filled : t ≠ []) (rest : List Text) : Text.join sep (t :: rest) ≠ [] := by
  cases rest with
  | nil => exact filled
  | cons u rest => simp [Text.join, filled]

@[simp] theorem quotedName_filled (name : Text) : quotedName name ≠ [] := by simp [quotedName]

@[simp] theorem nameText_filled (name : Text) : nameText name ≠ [] := by
  unfold nameText
  split
  · rintro rfl
    simp_all [isBare]
  · exact quotedName_filled name

theorem pathText_filled (first : Text) (more : List Text) : pathText (first :: more) ≠ [] :=
  join_filled _ (nameText_filled first) _

theorem objectText_filled (first : Text) (more : List Text) : objectText (first :: more) ≠ [] :=
  join_filled _ (nameText_filled first) _

@[simp] theorem callText_filled (function : Text) (args : List Text) : callText function args ≠ [] := by
  simp [callText]

@[simp] theorem stringText_filled (v : Text) : stringText v ≠ [] := by
  unfold stringText
  split <;> simp

theorem shown_text (shown : e.Shown) : e.text ≠ [] := by
  cases shown with
  | and | or => simp [Expr.text]
  | tuple items => exact parens_filled _
  | number n signed => rcases signed with rfl | rfl <;> simp [Expr.text, Numeral.text]
  | leaf other filled => exact filled

theorem shown_operand (shown : e.Shown) : e.operand ≠ [] := by
  unfold Expr.operand Expr.parensIf
  split
  · exact parens_filled _
  · exact shown_text shown

theorem shown_plain (filled : t ≠ []) : (Expr.leaf .plain t).Shown := .leaf (by decide) filled

theorem shown_operator (filled : t ≠ []) : (operator t).Shown := .leaf (by decide) filled

theorem shown_signed {sign : Text} (isMinus : Bool) (filled : sign ≠ []) (e : Expr) :
    (e.signed sign isMinus).Shown := by
  unfold Expr.signed
  split <;> exact .leaf (by decide) (by simp [filled])

theorem shown_negate (shown : e.Shown) : e.negate.Shown := by
  have minus := shown_signed true (List.cons_ne_nil 0x2d []) e
  cases shown with
  | number n signed =>
    -- A number with a sign loses it, and what is left starts with a digit or a point.
    have unsigned : n.text.head? ≠ some 0x2d := by
      intro minus
      have numeric := n.numeric
      rw [show n.lead = 0x2d from Option.some.inj minus] at numeric
      revert numeric
      decide
    rcases signed with rfl | rfl
    · rw [Expr.negate, if_neg unsigned]
      exact .number n (.inr rfl)
    · rw [Expr.negate, if_pos (show (0x2d :: n.text).head? = some 0x2d from rfl)]
      exact .number n (.inl rfl)
  | @leaf shape t other filled =>
    cases shape with
    | number => exact absurd rfl other
    | _ => exact minus
  | _ => exact minus

theorem shown_between (op : Operator) {l : Expr} (shown : l.Shown) (t : Text) (r : Expr) : (op.between t l r).Shown :=
  .leaf (by decide) (by simp [shown_operand shown])

theorem shown_apply (op : Operator) {l : Expr} (shown : l.Shown) (r : Expr) : (op.apply l r).Shown := by
  unfold Operator.apply
  split
  · exact shown_plain (by simp)
  · exact shown_between op shown _ r

theorem shown_wordsText {l : Expr} (ws : Text) (r : Expr) : (wordsText l ws r).Shown :=
  shown_operator (by simp)

theorem shown_typedString (type v : Text) : (typedString type v).Shown := .leaf (by decide) (by simp)

theorem tableText_filled (lateral : Bool) (filled : t ≠ []) (flags : Text) (ordinal : Bool) (asName : Option Text) :
    tableText lateral t flags ordinal asName ≠ [] := by
  simp [tableText, filled]

end Texts

section Reading

/-- What reading gives when it does not fail. -/
def Gives {α : Type} (p : Read α) (Q : α → Prop) : Prop := ∀ c a c', p.run.run c = (some a, c') → Q a

variable {α β : Type} {p q : Read α} {f : α → Read β} {Q : β → Prop} {R : α → Prop}

theorem gives_pure {a : α} (holds : R a) : Gives (pure a) R := by
  intro c b c' ran
  cases ran
  exact holds

theorem gives_bind (first : Gives p R) (later : ∀ a, R a → Gives (f a) Q) : Gives (p >>= f) Q := by
  intro c b c' ran
  rw [OptionT.run_bind, Option.elimM, StateT.run_bind] at ran
  cases start : p.run.run c with
  | mk r d =>
    rw [start] at ran
    cases r with
    | none => cases ran
    | some a => exact later a (first c a d start) d b c' ran

theorem gives_mono {S : α → Prop} (known : Gives p R) (weaker : ∀ a, R a → S a) : Gives p S :=
  fun c a c' ran => weaker a (known c a c' ran)

theorem gives_any (p : Read α) : Gives p fun _ => True := fun _ _ _ _ => trivial

theorem gives_skip (later : ∀ a, Gives (f a) Q) : Gives (p >>= f) Q :=
  gives_bind (gives_any p) fun a _ => later a

theorem gives_last {g : α → β} (holds : ∀ a, Q (g a)) : Gives (p >>= fun a => pure (g a)) Q :=
  gives_skip fun a => gives_pure (holds a)

/-- A check before the rest, under some condition. -/
theorem gives_checked {c : Prop} [Decidable c] {check : Read Unit} {rest : Unit → Read β}
    (later : ∀ u, Gives (rest u) Q) : Gives (if c then check >>= rest else rest ()) Q := by
  split
  · exact gives_skip later
  · exact later ()

theorem gives_misfit : Gives (misfit : Read α) R := by
  intro c a c' ran
  cases ran

theorem gives_objectHere (o : Objection) : Gives (objectHere o : Read α) R := by
  intro c a c' ran
  cases ran

theorem gives_objectNext (o : Objection) : Gives (objectNext o : Read α) R := by
  intro c a c' ran
  cases ran

theorem gives_attempt (first : Gives p R) : Gives (attempt? p) fun r => ∀ a ∈ r, R a := by
  unfold attempt?
  refine gives_skip fun start => ?_
  cases tried : p.run.run start with
  | mk r c =>
    cases r with
    | some a =>
      refine gives_last fun _ => ?_
      intro b member
      obtain rfl := Option.some.inj (Option.mem_def.mp member)
      exact first start a c tried
    | none =>
      dsimp only
      split
      · refine gives_skip fun _ => gives_bind (R := fun _ => False) ?_ fun _ no => no.elim
        intro c b c' ran
        cases ran
      · refine gives_last fun _ => ?_
        intro a member
        cases member

theorem gives_either (first : Gives p R) (second : Gives q R) : Gives (either p q) R := by
  unfold either
  refine gives_bind (gives_attempt first) fun r known => ?_
  cases r with
  | some a => exact gives_pure (known a rfl)
  | none => exact second

theorem gives_inParens (inner : Gives p R) : Gives (inParens p) R := by
  unfold inParens
  exact gives_skip fun _ => gives_bind inner fun a known => gives_last fun _ => known

theorem gives_moreOf (each : Gives p R) (n : Nat) : Gives (moreOf p n) fun as => ∀ a ∈ as, R a := by
  induction n with
  | zero => exact gives_pure fun a member => absurd member List.not_mem_nil
  | succ n ih =>
    unfold moreOf
    refine gives_skip fun comma => ?_
    split
    · refine gives_bind each fun a known => gives_bind ih fun as more => gives_pure ?_
      intro b member
      rcases List.mem_cons.mp member with rfl | later
      · exact known
      · exact more b later
    · exact gives_pure fun a member => absurd member List.not_mem_nil

theorem gives_listOf (each : Gives p R) : Gives (listOf p) fun as => as ≠ [] ∧ ∀ a ∈ as, R a := by
  unfold listOf
  refine gives_bind each fun a known => gives_skip fun _ => gives_bind (gives_moreOf each _) fun as more => ?_
  refine gives_pure ⟨List.cons_ne_nil a as, ?_⟩
  intro b member
  rcases List.mem_cons.mp member with rfl | later
  · exact known
  · exact more b later

end Reading

/-- Parts of the grammar whose expressions and selections show something. -/
structure Sound (g : Grammar) : Prop where
  expr : ∀ level bare, Gives (g.expr level bare) Expr.Shown
  select : Gives g.select Select.Shown

variable {g : Grammar}

section Calls

theorem exprText_gives (sound : Sound g) : Gives (exprText g) (· ≠ []) :=
  gives_bind (sound.expr 0 false) fun _ shown => gives_pure (shown_text shown)

theorem sortKey_gives (sound : Sound g) (indexed : Bool) : Gives (sortKey g indexed) (· ≠ []) := by
  unfold sortKey
  refine gives_skip fun primary => ?_
  split
  · exact gives_skip fun _ => gives_skip fun _ => gives_last fun _ => (by simp)
  refine gives_skip fun index => ?_
  split
  · exact gives_skip fun _ => gives_skip fun _ => gives_skip fun _ => gives_skip fun _ => gives_skip fun _ =>
      gives_pure (by simp)
  · refine gives_bind (exprText_gives sound) fun e filled => gives_skip fun _ => gives_last fun _ => ?_
    simp [filled]

theorem orderBy_gives (sound : Sound g) (indexed : Bool) : Gives (orderBy? g indexed) fun ts => ∀ t ∈ ts, t ≠ [] := by
  unfold orderBy?
  refine gives_skip fun ordered => ?_
  split
  · exact gives_skip fun _ => gives_mono (gives_listOf (sortKey_gives sound indexed)) fun _ keys => keys.2
  · exact gives_pure fun t member => absurd member List.not_mem_nil

theorem callEnd_gives {call : Text} (filled : call ≠ []) : Gives (callEnd g call) Expr.Shown := by
  unfold callEnd
  refine gives_skip fun within => ?_
  -- What follows a choice is shared by its branches, so it is looked at once, before the choice is split.
  extract_lets afterGroup
  have grouped : ∀ t, Gives (afterGroup t) Expr.Shown := by
    intro group
    refine gives_skip fun filter => ?_
    extract_lets afterFilter
    have filtered : ∀ t, Gives (afterFilter t) Expr.Shown := by
      intro filter
      refine gives_skip fun windowed => ?_
      extract_lets afterWindow
      have ended : ∀ t, Gives (afterWindow t) Expr.Shown := fun window => gives_pure (shown_plain (by simp [filled]))
      split
      · refine gives_skip fun spec => ?_
        split <;> exact gives_skip fun _ => gives_skip fun _ => ended _
      · exact gives_skip fun _ => ended _
    split
    · exact gives_skip fun _ => gives_skip fun _ => filtered _
    · exact gives_skip fun _ => filtered _
  split
  · exact gives_skip fun _ => gives_skip fun _ => gives_skip fun _ => grouped _
  · exact gives_skip fun _ => grouped _

theorem application_gives (function : Text) : Gives (application g function) (· ≠ []) :=
  gives_skip fun _ => gives_last fun _ => (by simp)

theorem call_gives (function : Text) : Gives (call g function) Expr.Shown :=
  gives_bind (application_gives function) fun _ filled => callEnd_gives filled

theorem castCall_gives : Gives (castCall g) (· ≠ []) :=
  gives_inParens (gives_skip fun _ => gives_skip fun _ => gives_last fun _ => (by simp))

theorem annotateCall_gives : Gives (annotateCall g) (· ≠ []) :=
  gives_inParens (gives_skip fun _ => gives_skip fun _ => gives_last fun _ => (by simp))

theorem trimCall_gives : Gives (trimCall g) (· ≠ []) :=
  gives_inParens (gives_skip fun _ => gives_last fun _ => (by simp))

theorem keywordCall_gives {w : String} {p : Read Text} (found : keywordCall? g w = some p) : Gives p (· ≠ []) := by
  have form (function : Text) (args : Read (List Text)) :
      Gives (do return callText function (← inParens args)) (· ≠ []) :=
    gives_last fun _ => (by simp)
  unfold keywordCall? at found
  split at found <;> cases found
  · exact annotateCall_gives
  · exact gives_skip fun _ => gives_objectHere _
  case h_16 => exact trimCall_gives
  all_goals exact form _ _

theorem specialCall_gives : Gives (specialCall? g) fun r => ∀ e ∈ r, e.Shown := by
  have none : ∀ e ∈ (none : Option Expr), e.Shown := fun e member => by cases member
  have plain {t : Text} (filled : t ≠ []) : ∀ e ∈ some (Expr.leaf .plain t), e.Shown := by
    rintro e ⟨⟩
    exact shown_plain filled
  unfold specialCall?
  refine gives_skip fun next => ?_
  split
  · refine gives_skip fun _ => gives_bind castCall_gives fun t filled => gives_pure ?_
    rintro e ⟨⟩
    exact .leaf (by decide) filled
  · refine gives_skip fun word => ?_
    split
    · exact gives_skip fun _ => gives_last fun _ => (plain (by simp))
    · exact gives_pure none
  · split
    · refine gives_skip fun _ => gives_skip fun opened => ?_
      split
      · exact gives_last fun _ => (plain (by simp))
      · exact gives_pure (plain (by simp))
    split
    · refine gives_skip fun _ => gives_skip fun opened => ?_
      split
      · exact gives_pure (plain (by simp))
      refine gives_skip fun closed => ?_
      extract_lets listed
      have ended : ∀ args, Gives (listed args) fun r => ∀ e ∈ r, e.Shown :=
        fun args => gives_last fun _ => (plain (by simp))
      split
      · exact gives_skip fun _ => ended _
      · exact gives_skip fun _ => gives_skip fun _ => ended _
    split
    · exact gives_last fun _ => (plain (by simp))
    refine gives_skip fun opened => ?_
    split
    · split
      · next found =>
        exact gives_skip fun _ => gives_bind (keywordCall_gives found) fun t filled => gives_pure (plain filled)
      · exact gives_pure none
    · exact gives_pure none
  · exact gives_pure none

end Calls

section Primaries

theorem caseExpr_gives : Gives (caseExpr g) Expr.Shown := by
  unfold caseExpr
  refine gives_skip fun _ => gives_skip fun bare => ?_
  extract_lets branches
  have told : ∀ t, Gives (branches t) Expr.Shown := by
    intro subject
    refine gives_skip fun _ => gives_skip fun _ => gives_skip fun _ => gives_skip fun otherwise => ?_
    extract_lets stop
    have ended : ∀ t, Gives (stop t) Expr.Shown := fun t => gives_last fun _ => (shown_plain (by simp))
    split
    · exact gives_skip fun _ => gives_skip fun _ => ended _
    · exact gives_skip fun _ => ended _
  split
  · exact gives_skip fun _ => told _
  · exact gives_skip fun _ => gives_skip fun _ => told _

theorem arrayItems_gives (n : Nat) : Gives (arrayItems g n) (· ≠ []) := by
  cases n with
  | zero => exact gives_misfit
  | succ n =>
    unfold arrayItems
    refine gives_skip fun _ => gives_skip fun nested => gives_skip fun next => ?_
    extract_lets stop
    have ended : ∀ items, Gives (stop items) (· ≠ []) := fun items => gives_last fun _ => (by simp)
    split <;> exact gives_skip fun _ => ended _

theorem arrayExpr_gives : Gives (arrayExpr g) Expr.Shown := by
  unfold arrayExpr
  refine gives_skip fun _ => gives_skip fun listed => ?_
  split
  · exact gives_skip fun _ => gives_bind (arrayItems_gives _) fun _ filled => gives_pure (shown_plain filled)
  extract_lets ofRow
  have rows : Gives ofRow Expr.Shown := gives_last fun _ => (shown_plain (by simp))
  refine gives_skip fun selection => ?_
  split
  · exact gives_either (gives_last fun _ => (shown_plain (by simp))) rows
  · exact rows

theorem parenExpr_gives : Gives (parenExpr g) Expr.Shown := by
  unfold parenExpr
  refine gives_skip fun _ => gives_skip fun closed => ?_
  split
  · exact gives_pure (.tuple [])
  refine gives_skip fun e => gives_skip fun comma => ?_
  split
  · exact gives_skip fun _ => gives_last fun _ => (.tuple _)
  extract_lets stop
  have ended : ∀ u, Gives (stop u) Expr.Shown :=
    fun u => gives_skip fun _ => gives_last fun _ => (shown_plain (by simp))
  split
  · refine gives_skip fun labelled => ?_
    split
    · exact gives_skip fun _ => gives_skip fun _ => gives_last fun _ => (shown_plain (by simp))
    · exact ended ()
  · exact ended ()

theorem intervalLiteral_gives : Gives intervalLiteral Expr.Shown := by
  have shown (v rest : Text) : (Expr.leaf .cast (stringText v ++ ("::INTERVAL" : Text) ++ rest)).Shown :=
    .leaf (by decide) (by simp)
  unfold intervalLiteral
  refine gives_skip fun _ => gives_skip fun sized => ?_
  split <;> exact gives_skip fun _ => gives_last fun _ => (shown _ _)

theorem namedLiteral_gives (parts : List Text) : Gives (namedLiteral parts) Expr.Shown := by
  unfold namedLiteral
  refine gives_skip fun v => ?_
  split
  all_goals
    extract_lets typed
    have ended : ∀ u, Gives (typed u) Expr.Shown := fun u => gives_pure (shown_typedString _ v)
    exact gives_checked ended

theorem named_gives : Gives (named g) Expr.Shown := by
  unfold named
  refine gives_skip fun first => ?_
  extract_lets path
  have headed : ∀ h, Gives (path h) Expr.Shown := by
    intro h
    refine gives_skip fun _ => ?_
    extract_lets whole
    have ended : ∀ parts, Gives (whole parts) Expr.Shown := by
      rintro ⟨more, star⟩
      have filled := pathText_filled h.name more
      dsimp only [whole]
      split
      · exact gives_pure (shown_plain (by simp [filled]))
      refine gives_skip fun next => ?_
      split
      · split
        · exact call_gives _
        · exact gives_misfit
      · split
        · exact namedLiteral_gives _
        · exact gives_misfit
      · split
        · exact gives_pure (shown_plain filled)
        · exact gives_misfit
    split <;> exact gives_skip fun _ => ended _
  split
  · split <;> exact gives_skip fun _ => headed _
  · exact gives_skip fun _ => headed _
  · exact gives_skip fun _ => headed _

theorem typedOrNamed_gives (type : Read Text) : Gives (typedOrNamed g type) Expr.Shown :=
  gives_either (gives_skip fun _ => gives_last fun _ => (shown_typedString _ _)) named_gives

theorem wordExpr_gives (w : String) : Gives (wordExpr g w) Expr.Shown := by
  have constant {t : Text} (filled : t ≠ []) : (Expr.leaf .constant t).Shown := .leaf (by decide) filled
  unfold wordExpr
  refine gives_bind specialCall_gives fun special known => ?_
  split
  · exact gives_pure (known _ rfl)
  refine gives_skip fun next => ?_
  extract_lets atCall
  split
  · exact gives_last fun _ => (constant (by simp))
  · exact gives_last fun _ => (constant (by simp))
  · exact gives_last fun _ => (constant (by simp))
  · exact arrayExpr_gives
  · split
    · exact gives_last fun _ => (.tuple _)
    · exact named_gives
  · split
    · exact gives_skip fun _ => gives_skip fun _ => gives_skip fun _ => named_gives
    · exact named_gives
  · refine gives_skip fun after => ?_
    split
    · exact intervalLiteral_gives
    · exact intervalLiteral_gives
    · exact named_gives
  · refine gives_skip fun type => ?_
    split
    · exact typedOrNamed_gives _
    · exact named_gives

theorem atom_gives : Gives (atom g) Expr.Shown := by
  have constant {t : Text} (filled : t ≠ []) : (Expr.leaf .constant t).Shown := .leaf (by decide) filled
  unfold atom
  refine gives_skip fun next => ?_
  split
  · exact gives_last fun _ => (.number _ (.inl rfl))
  · exact gives_last fun _ => (.number _ (.inl rfl))
  · exact gives_last fun _ => (constant (stringText_filled _))
  · exact gives_last fun _ => (constant (by simp [bytesText]))
  · exact gives_last fun _ => (constant (by simp))
  · exact gives_last fun _ => (shown_plain (by simp))
  · exact named_gives
  · exact wordExpr_gives _
  · refine gives_skip fun selection => ?_
    split
    · exact gives_either (gives_last fun _ => (shown_plain (parens_filled _))) parenExpr_gives
    · exact parenExpr_gives
  · refine gives_skip fun _ => gives_skip fun n => ?_
    extract_lets ordinal
    have ended : ∀ u, Gives (ordinal u) Expr.Shown := fun u => gives_pure (shown_plain (by simp))
    exact gives_checked ended
  · exact gives_skip fun _ => call_gives _
  · exact gives_misfit

theorem primary_gives : Gives (primary g) Expr.Shown := by
  unfold primary
  refine gives_skip fun case => ?_
  split
  · exact caseExpr_gives
  refine gives_skip fun test => gives_skip fun next => ?_
  split
  · exact gives_skip fun _ => gives_last fun _ => (shown_plain (by simp))
  refine gives_bind atom_gives fun e shown => gives_skip fun _ => gives_skip fun subs => ?_
  split
  · exact gives_pure shown
  · next filled => exact gives_pure (shown_plain (by simp_all))

end Primaries

section Operators

theorem namedSigned_gives : Gives (namedSigned g) Expr.Shown := by
  unfold namedSigned
  refine gives_skip fun op => gives_skip fun e => ?_
  have explicit : op.explicitText ≠ [] := by simp [Operator.explicitText]
  split
  · exact gives_pure (shown_signed _ explicit e)
  · exact gives_pure (shown_signed _ explicit e)
  · extract_lets isSign
    split
    · exact gives_pure (shown_signed _ explicit e)
    · exact gives_objectNext _

theorem overlaps_gives (first : List Text) : Gives (overlaps g first) Expr.Shown := by
  unfold overlaps
  refine gives_skip fun _ => gives_skip fun second => ?_
  extract_lets call checked
  have called : ∀ u, Gives (call u) Expr.Shown := fun _ => gives_pure (shown_plain (callText_filled _ _))
  have both : ∀ u, Gives (checked u) Expr.Shown := by
    intro u
    dsimp only [checked]
    exact gives_checked called
  exact gives_checked both

/-- An expression that starts with an operator, or with none. -/
theorem signed_gives (sound : Sound g) (bare : Bool) : Gives (signed g bare) Expr.Shown := by
  unfold signed
  refine gives_skip fun next => ?_
  split
  · refine gives_skip fun _ => gives_bind (sound.expr _ _) fun e shown => ?_
    split
    · exact gives_pure (shown_plain (parens_filled _))
    · exact gives_pure shown
  · exact gives_skip fun _ => gives_bind (sound.expr _ _) fun e shown => gives_pure (shown_negate shown)
  · exact gives_skip fun _ => gives_skip fun e => gives_pure (shown_signed _ (by simp) e)
  · split
    · exact primary_gives
    refine gives_skip fun again => ?_
    split
    · exact gives_skip fun _ => gives_skip fun e => gives_pure (shown_signed _ (by simp) e)
    · exact gives_skip fun _ => gives_skip fun e => gives_pure (shown_signed _ (by simp) e)
    · exact gives_skip fun _ => gives_last fun _ => (shown_operator (by simp))
    · exact gives_last fun _ => (shown_plain (by simp))
    · exact gives_skip fun _ => gives_skip fun _ => gives_objectNext _
    · refine gives_skip fun operated => ?_
      split
      · exact namedSigned_gives
      refine gives_bind primary_gives fun e shown => ?_
      split
      · refine gives_skip fun spans => ?_
        split
        · exact overlaps_gives _
        · exact gives_pure shown
      · exact gives_pure shown

/-- Reading the rest of an operation leaves something that shows. -/
def Operates (apply : Expr → Read (Expr × Option Nat)) : Prop :=
  ∀ l : Expr, l.Shown → Gives (apply l) fun r => r.1.Shown

theorem quantified_gives (l : Expr) (op quantifier : Text) (isTruth : Bool) :
    Gives (quantified g l op quantifier isTruth) fun r => r.1.Shown := by
  unfold quantified
  refine gives_skip fun r => ?_
  split
  · exact gives_last fun _ => (shown_wordsText _ r)
  · exact gives_pure (shown_wordsText _ r)

theorem operatorStep_gives (op : Operator) (bare : Bool) : Operates (operatorStep g op bare).apply := by
  intro l shown
  refine gives_skip fun _ => ?_
  extract_lets operand binary
  have operated : ∀ u, Gives (operand u) fun r => r.1.Shown := fun _ =>
    gives_skip fun r => gives_pure (shown_apply op shown r)
  have applied : ∀ u, Gives (binary u) fun r => r.1.Shown := by
    intro u
    dsimp only [binary]
    exact gives_checked operated
  split
  · refine gives_skip fun quantifier => ?_
    split
    · exact quantified_gives l _ _ _
    · exact applied ()
  · exact applied ()

theorem namedStep_gives : Operates (namedStep g).apply := by
  intro l shown
  refine gives_skip fun op => gives_skip fun quantifier => ?_
  split
  · exact quantified_gives l _ _ _
  · refine gives_skip fun r => ?_
    split
    · exact gives_last fun _ => (shown_between op shown _ r)
    · exact gives_pure (shown_between op shown _ r)

theorem matched_gives (m : Matching) : Operates fun l => matched g l m := by
  intro l _
  show Gives (matched g l m) _
  unfold matched
  extract_lets pattern
  have compared : ∀ u, Gives (pattern u) fun r => r.1.Shown := by
    intro u
    refine gives_skip fun r => gives_skip fun escaped => ?_
    split
    · exact gives_last fun _ => (shown_plain (callText_filled _ _))
    · exact gives_pure (shown_wordsText _ r)
  split
  · refine gives_skip fun quantifier => ?_
    split
    · exact quantified_gives l _ _ _
    · exact compared ()
  · exact compared ()

theorem bounds_gives (ws : Text) : Operates fun l => bounds g l ws := by
  intro l shown
  unfold bounds
  refine gives_skip fun symmetric => ?_
  extract_lets symmetry range
  have compared : ∀ u, Gives (range u) fun r => r.1.Shown := fun u =>
    gives_skip fun _ => gives_skip fun _ => gives_last fun _ => (shown_operator (by simp))
  exact gives_checked compared

theorem isWhat_gives (bare : Bool) : Operates fun l => isWhat g l bare := by
  intro l shown
  unfold isWhat
  refine gives_skip fun negated => ?_
  extract_lets after words constant
  have told (yes no : Text) : (after yes no).1.Shown := shown_operator (by simp)
  refine gives_skip fun distinct => ?_
  split
  · exact gives_skip fun _ => gives_skip fun r => gives_pure (shown_wordsText _ r)
  refine gives_skip fun typed => ?_
  split
  · exact gives_last fun _ => (shown_operator (by simp))
  have compared : ∀ u, Gives (constant u) fun r => r.1.Shown := by
    intro u
    refine gives_skip fun what => ?_
    split <;> exact gives_pure (told _ _)
  exact gives_checked compared

theorem negatedStep_gives {next : Option String} {op : Step} (found : negatedStep? g next = some op) :
    Operates op.apply := by
  unfold negatedStep? at found
  dsimp only at found
  split at found <;> cases found <;> intro l shown <;> refine gives_skip fun _ => ?_
  · exact gives_last fun _ => (shown_operator (by simp))
  · exact bounds_gives _ l shown
  · exact matched_gives _ l shown
  · exact matched_gives _ l shown
  · exact matched_gives _ l shown

theorem wordStep_gives {w : String} {next : Option String} {op : Step}
    (found : wordStep? g w next = some op) : Operates op.apply := by
  unfold wordStep? at found
  dsimp only at found
  split at found
  case h_12 => exact negatedStep_gives found
  case h_13 =>
    cases found
    exact namedStep_gives
  all_goals cases found
  all_goals
    intro l shown
    refine gives_skip fun _ => ?_
  · exact gives_last fun _ => (shown_plain (by simp))
  · exact gives_skip fun _ => gives_last fun _ => (shown_plain (callText_filled _ _))
  · exact gives_last fun _ => (.and _ _)
  · exact gives_last fun _ => (.or _ _)
  · exact gives_pure (shown_operator (by simp))
  · exact gives_pure (shown_operator (by simp))
  · exact gives_last fun _ => (shown_operator (by simp))
  · exact bounds_gives _ l shown
  · exact matched_gives _ l shown
  · exact matched_gives _ l shown
  · exact gives_skip fun _ => matched_gives _ l shown

theorem step_gives (bare : Bool) : Gives (step? g bare) fun r => ∀ op ∈ r, Operates op.apply := by
  have none : ∀ op ∈ (none : Option Step), Operates op.apply := fun op member => by cases member
  unfold step?
  refine gives_skip fun next => ?_
  split
  · refine gives_pure ?_
    rintro op ⟨⟩ l shown
    exact gives_skip fun _ => gives_last fun _ => (.leaf (by decide) (by simp))
  · refine gives_pure ?_
    rintro op ⟨⟩ l shown
    exact gives_skip fun _ => gives_last fun _ => (shown_plain (by simp))
  · split
    · refine gives_pure ?_
      split
      · exact none
      · rintro op ⟨⟩
        exact operatorStep_gives _ bare
    · exact gives_pure none
  · refine gives_pure ?_
    rintro op ⟨⟩ l shown
    exact gives_skip fun _ => isWhat_gives bare l shown
  · refine gives_skip fun after => gives_pure ?_
    split
    · exact none
    · intro op found
      exact wordStep_gives found
  · exact gives_pure none

/-- Operators, one after the other. -/
theorem climb_gives (ends : Read Bool) (least : Nat) (bare : Bool) (n : Nat) (last : Option Nat)
    {e : Expr} (shown : e.Shown) : Gives (climb g ends least bare n last e) Expr.Shown := by
  induction n generalizing last e with
  | zero => exact gives_pure shown
  | succ n ih =>
    unfold climb
    refine gives_skip fun ended => ?_
    split
    · exact gives_pure shown
    refine gives_bind (step_gives bare) fun next known => ?_
    split
    · exact gives_pure shown
    · next op =>
      split
      · exact gives_pure shown
      extract_lets chained
      have applied : ∀ u, Gives (chained u) Expr.Shown := fun u =>
        gives_bind (known op rfl e shown) fun r result => ih r.2 result
      exact gives_checked applied

theorem exprOf_gives (sound : Sound g) (least : Nat) (bare : Bool) : Gives (exprOf g least bare) Expr.Shown :=
  gives_bind (signed_gives sound bare) fun _ shown => gives_skip fun _ => climb_gives _ _ _ _ _ shown

theorem resultExpr_gives (sound : Sound g) : Gives (resultExpr g) Expr.Shown :=
  gives_bind (signed_gives sound false) fun _ shown => gives_skip fun _ => climb_gives _ _ _ _ _ shown

end Operators

section Tables

theorem tableName_gives : Gives tableName (· ≠ []) :=
  gives_skip fun first => gives_skip fun more => gives_pure (objectText_filled first more)

theorem calledOrNamed_gives : Gives (calledOrNamed g) fun n => ∀ parts, n = .table parts → objectText parts ≠ [] := by
  unfold calledOrNamed
  refine gives_skip fun next => ?_
  extract_lets afterHead
  have headed : ∀ h, Gives (afterHead h) fun n => ∀ parts, n = .table parts → objectText parts ≠ [] := by
    intro h
    refine gives_skip fun _ => ?_
    extract_lets afterParts
    have parted : ∀ more, Gives (afterParts more) fun n => ∀ parts, n = .table parts → objectText parts ≠ [] := by
      intro more
      refine gives_skip fun parens => ?_
      split
      · exact gives_last fun _ => fun parts table => by cases table
      · extract_lets named
        have table : ∀ u, Gives (named u) fun n => ∀ parts, n = .table parts → objectText parts ≠ [] := fun _ =>
          gives_pure fun parts same => by
            cases same
            exact objectText_filled _ _
        exact gives_checked table
    split <;> exact gives_skip parted
  split
  · split <;> exact gives_skip headed
  · exact gives_skip headed
  · exact gives_skip headed

theorem functionTable_gives (lateral : Bool) (items : List Text) :
    Gives (functionTable lateral items) Table.Shown := by
  unfold functionTable
  refine gives_skip fun ordinal => ?_
  extract_lets named
  have whole : ∀ asName, Gives (named asName) Table.Shown := fun _ =>
    gives_pure (.verbatim (tableText_filled _ (by simp) _ _ _))
  split <;> exact gives_skip whole

theorem selectionTable_gives (sound : Sound g) (lateral : Bool) : Gives (selectionTable g lateral) Table.Shown := by
  unfold selectionTable
  refine gives_bind (gives_inParens sound.select) fun s shown => gives_skip fun _ => gives_skip fun _ => ?_
  split
  · exact gives_pure (.verbatim (tableText_filled _ (parens_filled _) _ _ _))
  · exact gives_pure (.selection shown)

theorem numberedTable_gives : Gives numberedTable Table.Shown := by
  unfold numberedTable
  refine gives_skip fun n => gives_skip fun listed => ?_
  extract_lets afterColumns afterNumbers
  have whole : ∀ columns, Gives (afterColumns columns) Table.Shown := by
    intro columns
    refine gives_skip fun renamed => ?_
    extract_lets afterAs
    have named : ∀ u, Gives (afterAs u) Table.Shown := fun _ =>
      gives_skip fun _ => gives_skip fun _ => gives_skip fun _ => gives_skip fun _ => gives_skip fun _ =>
        gives_pure (.verbatim (tableText_filled _ (by simp) _ _ _))
    exact gives_checked named
  split
  · refine gives_skip fun none => ?_
    have numbered : ∀ ns, Gives (afterNumbers ns) Table.Shown := fun _ =>
      gives_skip fun _ => gives_skip whole
    split <;> exact gives_skip numbered
  · exact gives_skip whole

theorem statementTable_gives : Gives (statementTable g) Table.Shown := by
  unfold statementTable
  refine gives_skip fun next => ?_
  extract_lets afterStart
  have whole : ∀ u, Gives (afterStart u) Table.Shown := fun _ =>
    gives_skip fun _ => gives_skip fun _ => gives_skip fun _ => gives_skip fun _ =>
      gives_pure (.verbatim (tableText_filled _ (by simp) _ _ _))
  split
  · exact gives_checked whole
  · exact whole ()
  · exact gives_skip whole

theorem namedTable_gives {t : Text} (filled : t ≠ []) : Gives (namedTable t) Table.Shown :=
  gives_skip fun _ => gives_skip fun _ => gives_skip fun _ =>
    gives_pure (.verbatim (tableText_filled _ filled _ _ _))

theorem parenJoin_gives (joined : Read (Table × Bool)) : Gives (parenJoin joined) fun r => r.1.Shown := by
  unfold parenJoin
  refine gives_skip fun _ => gives_skip fun inner => ?_
  split
  extract_lets afterJoin
  have ended : ∀ u, Gives (afterJoin u) fun r => r.1.Shown := by
    intro u
    refine gives_skip fun _ => gives_skip fun ordinal => gives_skip fun asName => ?_
    extract_lets named
    have whole : ∀ u, Gives (named u) fun r => r.1.Shown := fun _ =>
      gives_pure (.verbatim (tableText_filled _ (parens_filled _) _ _ _))
    exact gives_checked whole
  exact gives_checked ended

theorem tableItem_gives (sound : Sound g) (joined : Read (Table × Bool)) :
    Gives (tableItem g joined) fun r => r.1.Shown := by
  have alone {p : Read Table} (table : Gives p Table.Shown) :
      Gives (do return (← p, false)) fun r : Table × Bool => r.1.Shown :=
    gives_bind table fun _ shown => gives_pure shown
  unfold tableItem
  refine gives_skip fun next => ?_
  split
  · refine gives_skip fun selects => ?_
    split
    · refine gives_bind (gives_attempt (selectionTable_gives sound false)) fun tried known => ?_
      split
      · exact gives_pure (known _ rfl)
      · exact parenJoin_gives joined
    · exact parenJoin_gives joined
  · refine gives_skip fun _ => gives_skip fun parens => ?_
    split
    · exact alone (selectionTable_gives sound true)
    · refine gives_skip fun rows => ?_
      extract_lets afterItems
      have lateral : ∀ items, Gives (afterItems items) fun r => r.1.Shown := fun items =>
        alone (functionTable_gives true items)
      split
      · exact gives_skip lateral
      · exact gives_skip fun _ => gives_skip lateral
  · refine gives_skip fun rows => ?_
    split
    · exact alone (functionTable_gives false _)
    refine gives_skip fun called => ?_
    split
    · exact alone (functionTable_gives false _)
    refine gives_skip fun bracket => ?_
    split
    · refine gives_skip fun inner => ?_
      split
      · exact alone numberedTable_gives
      · exact alone statementTable_gives
    refine gives_skip fun only => ?_
    split
    · refine gives_skip fun parens => ?_
      extract_lets afterName
      have named : ∀ t, t ≠ [] → Gives (afterName t) fun r => r.1.Shown := fun t filled =>
        alone (namedTable_gives filled)
      split
      · exact gives_bind (gives_inParens tableName_gives) named
      · exact gives_bind tableName_gives named
    · refine gives_bind calledOrNamed_gives fun n filled => ?_
      split
      · exact alone (functionTable_gives false _)
      · exact gives_skip fun _ => alone (namedTable_gives (filled _ rfl))

/-- Further tables, joined one after the other. -/
theorem joins_gives (joined : Read (Table × Bool)) (n : Nat) {t : Table × Bool} (shown : t.1.Shown) :
    Gives (joins g joined n t) fun r => r.1.Shown := by
  induction n generalizing t with
  | zero => exact gives_pure shown
  | succ n ih =>
    unfold joins
    refine gives_skip fun cross => ?_
    split
    · exact gives_skip fun _ => gives_skip fun _ => gives_skip fun _ => ih (.verbatim (by simp))
    refine gives_skip fun natural => ?_
    split
    · refine gives_skip fun kind => ?_
      extract_lets afterKind
      have more : ∀ kind, Gives (afterKind kind) fun r => r.1.Shown := fun _ =>
        gives_skip fun _ => gives_skip fun _ => ih (.verbatim (by simp))
      split <;> exact gives_skip more
    · refine gives_skip fun kind => ?_
      split
      · exact gives_pure shown
      · exact gives_skip fun _ => gives_skip fun _ => gives_skip fun _ => ih (.verbatim (by simp))

theorem joinedTable_gives (sound : Sound g) (n : Nat) : Gives (joinedTable g n) fun r => r.1.Shown := by
  cases n with
  | zero => exact gives_misfit
  | succ n => exact gives_bind (tableItem_gives sound _) fun t shown => gives_skip fun _ => joins_gives _ _ shown

theorem table_gives (sound : Sound g) : Gives (table g) Table.Shown :=
  gives_skip fun _ => gives_bind (joinedTable_gives sound _) fun _ shown => gives_pure shown

end Tables

section Selections

theorem column_gives (sound : Sound g) : Gives (column g) (· ≠ []) := by
  unfold column
  refine gives_skip fun star => ?_
  split
  · exact gives_pure (by simp)
  refine gives_bind (resultExpr_gives sound) fun e shown => ?_
  have filled : e.text ≠ [] := shown_text shown
  refine gives_skip fun renamed => ?_
  split
  · exact gives_skip fun _ => gives_last fun _ => (by simp)
  refine gives_skip fun next => ?_
  split
  · split
    · exact gives_pure filled
    · exact gives_last fun _ => (by simp)
  · exact gives_last fun _ => (by simp)
  · exact gives_pure filled

theorem groupKey_gives (sound : Sound g) : Gives (groupKey g) (· ≠ []) := by
  have key : Unit → Gives (exprText g) (· ≠ []) := fun _ => exprText_gives sound
  unfold groupKey
  refine gives_skip fun first => gives_skip fun second => ?_
  split
  · exact gives_skip fun _ => gives_objectNext _
  · refine gives_skip fun opened => ?_
    extract_lets plain
    split
    · exact gives_skip fun _ => gives_skip fun _ => gives_skip key
    · exact key ()
  · refine gives_skip fun opened => ?_
    extract_lets plain
    split
    · exact gives_skip fun _ => gives_skip fun _ => gives_skip key
    · exact key ()
  · exact key ()

theorem groupBy_gives (sound : Sound g) : Gives (groupBy? g) fun ts => ∀ t ∈ ts, t ≠ [] := by
  unfold groupBy?
  refine gives_skip fun grouped => ?_
  split
  · exact gives_pure fun t member => absurd member List.not_mem_nil
  · exact gives_skip fun _ => gives_mono (gives_listOf (groupKey_gives sound)) fun _ keys => keys.2

theorem selectClause_gives (sound : Sound g) : Gives (selectClause g) Body.Shown := by
  unfold selectClause
  refine gives_skip fun _ => gives_skip fun sameness => ?_
  refine gives_bind (gives_listOf (column_gives sound)) fun columns known => gives_skip fun hasTables => ?_
  extract_lets afterTables
  have sourced : ∀ tables, (∀ t ∈ tables, Table.Shown t) → Gives (afterTables tables) Body.Shown := by
    intro tables sources
    dsimp -zeta only [afterTables]
    extract_lets afterTime
    have timed : ∀ asOf, Gives (afterTime asOf) Body.Shown := by
      intro asOf
      refine gives_skip fun condition => gives_bind (groupBy_gives sound) fun groupBy keys => ?_
      refine gives_skip fun having => gives_skip fun windowed => ?_
      extract_lets afterWindows
      have ended : ∀ windows, Gives (afterWindows windows) Body.Shown := by
        intro windows
        dsimp -zeta only [afterWindows]
        extract_lets whole
        split
        · exact gives_pure (.verbatim (by simp))
        · extract_lets isDistinct
          split
          · refine gives_pure (.verbatim ?_)
            split <;> simp
          · exact gives_pure (.clause known.1 known.2 sources keys)
      split <;> exact gives_skip ended
    split <;> exact gives_skip timed
  split
  · exact gives_bind (gives_listOf (table_gives sound)) fun tables shown => sourced tables shown.2
  · refine gives_bind (gives_pure fun t member => ?_) sourced
    exact absurd member List.not_mem_nil

theorem bodyItem_gives (sound : Sound g) : Gives (bodyItem g) Body.Shown := by
  unfold bodyItem
  refine gives_skip fun next => ?_
  split
  · exact gives_bind (gives_inParens sound.select) fun _ shown => gives_pure (.parens shown)
  · exact selectClause_gives sound
  · exact gives_skip fun _ => gives_last fun _ => (.verbatim (by simp))
  · exact gives_skip fun _ => gives_last fun _ => (.verbatim (by simp))
  · exact gives_misfit

theorem shown_plainSelect {b : Body} (shown : b.Shown) : (plainSelect b).Shown :=
  .mk (fun t member => by cases member) shown fun t member => absurd member List.not_mem_nil

theorem combined_gives (ops : List (String × SetOperation)) {item : Read Body} (each : Gives item Body.Shown)
    (n : Nat) {b : Body} (shown : b.Shown) : Gives (combined ops item n b) Body.Shown := by
  induction n generalizing b with
  | zero => exact gives_pure shown
  | succ n ih =>
    unfold combined
    refine gives_skip fun next => ?_
    split
    · exact gives_pure shown
    · refine gives_skip fun _ => gives_skip fun _ => gives_bind each fun c other => ?_
      exact ih (.combined (shown_plainSelect shown) (shown_plainSelect other))

theorem body_gives (sound : Sound g) : Gives (body g) Body.Shown := by
  refine gives_skip fun c => ?_
  have tight : Gives (do combined [("intersect", .intersect)] (bodyItem g) c.rest.length (← bodyItem g)) Body.Shown :=
    gives_bind (bodyItem_gives sound) fun _ shown => combined_gives _ (bodyItem_gives sound) _ shown
  exact gives_bind tight fun _ shown => combined_gives _ tight _ shown

theorem ctes_gives : Gives (ctes? g) fun r => ∀ t ∈ r, t ≠ [] := by
  unfold ctes?
  refine gives_skip fun named => ?_
  split
  · exact gives_pure fun t member => by cases member
  refine gives_skip fun again => ?_
  extract_lets listed
  have whole : ∀ recursive, Gives (listed recursive) fun r => ∀ t ∈ r, t ≠ [] := fun _ =>
    gives_last fun _ => (by simp)
  split <;> exact gives_skip whole

theorem selectAfter_gives (sound : Sound g) {ctes : Option Text} (named : ∀ t ∈ ctes, t ≠ []) :
    Gives (selectAfter g ctes) Select.Shown := by
  unfold selectAfter
  refine gives_bind (body_gives sound) fun b shown => gives_bind (orderBy_gives sound true) fun keys filled => ?_
  refine gives_skip fun locks => ?_
  split <;> exact gives_skip fun _ => gives_last fun _ => (.mk named shown filled)

theorem selectOf_gives (sound : Sound g) : Gives (selectOf g) Select.Shown :=
  gives_bind ctes_gives fun _ named => selectAfter_gives sound named

theorem statementAfter_gives (sound : Sound g) {ctes : Option Text} (named : ∀ t ∈ ctes, t ≠ []) :
    Gives (statementAfter g ctes) Statement.Shown := by
  unfold statementAfter
  refine gives_skip fun start => ?_
  split
  · exact gives_skip fun t => gives_pure (.verbatim t)
  · exact gives_skip fun t => gives_pure (.verbatim t)
  · exact gives_skip fun t => gives_pure (.verbatim t)
  · exact gives_skip fun t => gives_pure (.verbatim t)
  · exact gives_bind (selectAfter_gives sound named) fun _ shown => gives_pure (.select shown)

theorem statementOf_gives (sound : Sound g) : Gives (statementOf g) Statement.Shown := by
  unfold statementOf
  refine gives_skip fun start => ?_
  split
  · exact gives_skip fun t => gives_pure (.verbatim t)
  · exact gives_bind ctes_gives fun _ named => statementAfter_gives sound named

/-- However deep statements are nested. -/
theorem ofDepth_sound (n : Nat) : Sound (.ofDepth n) := by
  induction n with
  | zero => exact ⟨fun _ _ => gives_misfit, gives_misfit⟩
  | succ n ih => exact ⟨fun level bare => exprOf_gives ih level bare, selectOf_gives ih⟩

theorem ofDepth_statement (n : Nat) : Gives (Grammar.ofDepth n).statement Statement.Shown := by
  cases n with
  | zero => exact gives_misfit
  | succ n => exact statementOf_gives (ofDepth_sound n)

theorem ofTokens_shown {tokens : List Token} {s : Statement} (read : Statement.ofTokens tokens = .ok s) :
    s.Shown := by
  have whole : Gives (do
      let s ← (Grammar.ofDepth (4 * tokens.length + 16)).statement
      if (← get).rest.isEmpty then return s else misfit) Statement.Shown := by
    refine gives_bind (ofDepth_statement _) fun s shown => gives_skip fun c => ?_
    split
    · exact gives_pure shown
    · exact gives_misfit
  unfold Statement.ofTokens at read
  extract_lets reader at read
  split at read
  · next ran =>
    cases read
    exact whole _ _ _ ran
  · cases read

/-- A statement that is read shows something in each of its clauses. -/
theorem parse_shown {t : Text} {ss : List Statement} (read : Statement.parse t = .ok ss) : ∀ s ∈ ss, s.Shown := by
  unfold Statement.parse at read
  split at read
  · cases read
    exact fun s member => absurd member List.not_mem_nil
  · cases found : Statement.ofTokens (Token.statement t) with
    | error e =>
      rw [found] at read
      cases read
    | ok s =>
      rw [found] at read
      cases read
      intro s' member
      rw [List.mem_singleton.mp member]
      exact ofTokens_shown found

end Selections

end StatementTexts

end Galley.Sql
