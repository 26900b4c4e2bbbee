import Mathlib.Data.List.Forall2
import Mathlib.Tactic.Choose
import Galley.Proofs.RingQueue
import Galley.Layout.Printer

/-! Printers in step. A printer decides by what it holds back, by the space left on the line and by the
widths of what it is told. So all versions of a document whose texts are equally wide are printed in step,
as long as their pages stay related: their printers hold back the same entries and decide alike, or all of
them end with the same fault. What the texts say, how texts are measured otherwise and which groups are open
have no part in it. Nothing here rests on how columns are counted: it holds of machine words as well. -/
namespace Galley.Layout.Lockstep
open RingQueue

variable {ι : Type} [Columns ι] {V : Type}

section Results

variable {α β γ δ : Type}

/-- A result and its versions: all of them are there and related, or all are the same fault. -/
def Agree (related : α → (V → β) → Prop) (x : Except Fault α) (y : V → Except Fault β) : Prop :=
  match x with
  | .ok a => ∃ b, y = (fun v => .ok (b v)) ∧ related a b
  | .error f => y = fun _ => .error f

theorem agree_bind {related : α → (V → β) → Prop} {later : γ → (V → δ) → Prop} {x : Except Fault α}
    {y : V → Except Fault β} {f : α → Except Fault γ} {g : V → β → Except Fault δ}
    (first : Agree related x y)
    (second : ∀ a b, related a b → Agree later (f a) fun v => g v (b v)) :
    Agree later (x >>= f) fun v => y v >>= g v := by
  cases x with
  | error e =>
    obtain rfl := first
    rfl
  | ok a =>
    obtain ⟨b, rfl, here⟩ := first
    exact second a b here

theorem agree_ite {related : α → (V → β) → Prop} {P : Prop} [Decidable P] {x x' : Except Fault α}
    {y y' : V → Except Fault β} (yes : P → Agree related x y) (no : ¬ P → Agree related x' y') :
    Agree related (if P then x else x') fun v => if P then y v else y' v := by
  by_cases holds : P
  · simp only [holds, ↓reduceIte]
    exact yes holds
  · simp only [holds, ↓reduceIte]
    exact no holds

theorem agree_ok {related : α → (V → β) → Prop} {a : α} {b : V → β} (here : related a b) :
    Agree related (.ok a) fun v => .ok (b v) :=
  ⟨b, rfl, here⟩

/-- A value all of whose versions are the same. -/
def Constant (a : α) (b : V → α) : Prop := b = fun _ => a

/-- A result that does not depend on the version. -/
theorem agree_constant (x : Except Fault α) : Agree (V := V) Constant x fun _ => x := by
  cases x with
  | error f => rfl
  | ok a => exact agree_ok rfl

end Results

section Queues

variable {α β : Type} {related : α → (V → β) → Prop}

/-- A queue and its versions: they stand at the same positions, and their elements are related one by
one. -/
structure QueueMirrors (related : α → (V → β) → Prop) (r : Ring α) (s : V → Ring β) : Prop where
  offset : ∀ v, (s v).offset = r.offset
  held : ∃ versions, List.Forall₂ related r.toList versions ∧ ∀ v, (s v).toList = versions.map (· v)

variable {r : Ring α} {s : V → Ring β}

variable (mirrors : QueueMirrors related r s)
include mirrors

theorem mirrors_length (v : V) : (s v).length = r.length := by
  obtain ⟨versions, all, lists⟩ := mirrors.held
  rw [← length_toList r, ← length_toList (s v), lists v, all.length_eq, List.length_map]

theorem mirrors_frontPos (v : V) : (s v).frontPos = r.frontPos :=
  congrArg Int.ofNat (mirrors.offset v)

theorem mirrors_pushBack {a : α} {b : V → β} (same : related a b) :
    QueueMirrors related (r.pushBack a) fun v => (s v).pushBack (b v) := by
  obtain ⟨versions, all, lists⟩ := mirrors.held
  refine ⟨fun v => ?_, versions ++ [b], ?_, fun v => ?_⟩
  · rw [offset_pushBack, offset_pushBack, mirrors.offset]
  · rw [toList_pushBack]
    exact List.rel_append all (.cons same .nil)
  · rw [toList_pushBack, lists, List.map_append, List.map_singleton]

/-- A position is queued in all versions or in none. -/
theorem mirrors_at (pos : Int) :
    (∃ (i : Nat) (a : α) (b : V → β), pos = r.offset + i ∧ r.toList[i]? = some a ∧
      (∀ v, (s v).toList[i]? = some (b v)) ∧ related a b) ∨ (r.index? pos = none ∧ ∀ v, (s v).index? pos = none) := by
  obtain ⟨versions, all, lists⟩ := mirrors.held
  by_cases within : 0 ≤ pos - r.offset ∧ pos - r.offset < r.length
  · obtain ⟨i, place⟩ := Int.eq_ofNat_of_zero_le within.1
    have left : i < r.toList.length := by
      rw [length_toList]
      omega
    have right : i < versions.length := all.length_eq ▸ left
    refine .inl ⟨i, _, versions[i], by omega, List.getElem?_eq_getElem left, fun v => ?_, all.get left right⟩
    rw [lists v, List.getElem?_map, List.getElem?_eq_getElem right]
    rfl
  · refine .inr ⟨dif_neg within, fun v => dif_neg ?_⟩
    rw [mirrors.offset v, mirrors_length mirrors v]
    exact within

theorem mirrors_read (pos : Int) : Agree related (queue (r.read pos)) fun v => queue ((s v).read pos) := by
  rcases mirrors_at mirrors pos with ⟨i, a, b, place, first, second, same⟩ | ⟨left, right⟩
  · have all (v : V) : (s v).read pos = .ok (b v) := by
      rw [place, ← mirrors.offset v]
      exact read_at (second v)
    simp only [place ▸ read_at first, all]
    exact agree_ok same
  · simp only [Ring.read, left, right]
    rfl

omit mirrors

private theorem forall₂_set {l : List α} {m : List (V → β)} {a : α} {b : V → β}
    (all : List.Forall₂ related l m) (same : related a b) (i : Nat) :
    List.Forall₂ related (l.set i a) (m.set i b) := by
  induction all generalizing i with
  | nil => exact .nil
  | cons first rest ih =>
    cases i with
    | zero => exact .cons same rest
    | succ i => exact .cons first (ih i)

theorem mirrors_write {a : α} {b : V → β} (mirrors : QueueMirrors related r s) (same : related a b) (pos : Int) :
    Agree (QueueMirrors related) (queue (r.write pos a)) fun v => queue ((s v).write pos (b v)) := by
  rcases mirrors_at mirrors pos with ⟨i, _, _, place, first, second, _⟩ | ⟨left, right⟩
  · obtain ⟨versions, all, lists⟩ := mirrors.held
    obtain ⟨inside, _⟩ := List.getElem?_eq_some_iff.mp first
    obtain ⟨r', wrote, list, still⟩ := write_at inside a
    choose s' written list' still' using fun v =>
      write_at (List.getElem?_eq_some_iff.mp (second v)).1 (b v)
    have each (v : V) : (s v).write pos (b v) = .ok (s' v) := by
      rw [place, ← mirrors.offset v]
      exact written v
    simp only [place ▸ wrote, each]
    refine agree_ok ⟨fun v => ?_, versions.set i b, ?_, fun v => ?_⟩
    · rw [still', still, mirrors.offset]
    · rw [list]
      exact forall₂_set all same i
    · rw [list', lists, List.map_set]
  · simp only [Ring.write, left, right]
    rfl

theorem mirrors_front (mirrors : QueueMirrors related r s) :
    Agree related (queue r.front) fun v => queue (s v).front := by
  simp only [Ring.front, mirrors_frontPos mirrors]
  exact mirrors_read mirrors r.frontPos

private theorem popFront_empty {γ : Type} {t : Ring γ} (bare : t.toList = []) :
    t.popFront = .error .popEmpty := by
  have none : ¬ 0 < t.length := by
    rw [← length_toList, bare]
    simp
  simp [Ring.popFront, none]

theorem mirrors_popFront (mirrors : QueueMirrors related r s) :
    Agree (fun x y => related x.1 (fun v => (y v).1) ∧ QueueMirrors related x.2 fun v => (y v).2)
      (queue r.popFront) fun v => queue (s v).popFront := by
  obtain ⟨versions, all, lists⟩ := mirrors.held
  cases held : r.toList with
  | nil =>
    obtain rfl : versions = [] := List.forall₂_nil_left_iff.mp (held ▸ all)
    simp only [popFront_empty held, popFront_empty (lists _)]
    rfl
  | cons a rest =>
    obtain ⟨b, others, same, tail, rfl⟩ := List.forall₂_cons_left_iff.mp (held ▸ all)
    obtain ⟨r', popped, list, moved⟩ := popFront_cons held
    choose s' also list' moved' using fun v => popFront_cons (lists v)
    simp only [popped, also]
    refine agree_ok (b := fun v => (b v, s' v)) ⟨same, fun v => ?_, others, ?_, list'⟩
    · rw [moved, moved', mirrors.offset]
    · rw [list]
      exact tail

end Queues

section Versions

/-- The texts that a token writes are good: its own, or the one before the newline of a break. -/
def TokenSpeaks (good : Text → Prop) : Token ι → Prop
  | .text s => good s
  | .lineBreak b => good b.preBreak
  | _ => True

instance (good : Text → Prop) [DecidablePred good] (t : Token ι) : Decidable (TokenSpeaks good t) :=
  match t with
  | .text s => inferInstanceAs (Decidable (good s))
  | .lineBreak b => inferInstanceAs (Decidable (good b.preBreak))
  | .groupStart _ | .groupEnd | .indent _ | .missing => inferInstanceAs (Decidable True)

/-- The texts that a call writes are good. -/
def CallVoices (good : Text → Prop) : Call ι → Prop
  | .text s => good s
  | .lineBreak .. | .hardBreak => good []
  | .trailingComma => good ","
  | .emit t => TokenSpeaks good t
  | _ => True

instance (good : Text → Prop) [DecidablePred good] (k : Call ι) : Decidable (CallVoices good k) :=
  match k with
  | .text s => inferInstanceAs (Decidable (good s))
  | .lineBreak .. | .hardBreak => inferInstanceAs (Decidable (good []))
  | .trailingComma => inferInstanceAs (Decidable (good ","))
  | .emit t => inferInstanceAs (Decidable (TokenSpeaks good t))
  | .groupStart .. | .alignStart _ | .groupEnd | .indent _ | .outdent | .eof => inferInstanceAs (Decidable True)

/-- Whether a call writes no text but that of a break. -/
def silent : Call ι → Bool
  | .text _ | .emit _ => false
  | _ => true

/-- How the versions of a document may differ: in texts that are related, written on pages that are related.
The texts of breaks are the same in all of them, and good. -/
structure Difference (V ι : Type) where
  texts : Text → (V → Text) → Prop
  good : Text → Prop
  pages : Page ι → (V → Page ι) → Prop

/-- A token and its versions. -/
inductive TokenVersions (d : Difference V ι) : Token ι → (V → Token ι) → Prop where
  | text {s : Text} {others : V → Text} (related : d.texts s others) :
      TokenVersions d (.text s) fun v => .text (others v)
  | lineBreak {b : Break ι} (fine : d.good b.preBreak) : TokenVersions d (.lineBreak b) fun _ => .lineBreak b
  | groupStart (g : Group ι) : TokenVersions d (.groupStart g) fun _ => .groupStart g
  | groupEnd : TokenVersions d .groupEnd fun _ => .groupEnd
  | indent (delta : ι) : TokenVersions d (.indent delta) fun _ => .indent delta
  | missing : TokenVersions d .missing fun _ => .missing

/-- A call and its versions. -/
inductive CallVersions (d : Difference V ι) : Call ι → (V → Call ι) → Prop where
  | text {s : Text} {others : V → Text} (related : d.texts s others) :
      CallVersions d (.text s) fun v => .text (others v)
  | emit {t : Token ι} {others : V → Token ι} (told : TokenVersions d t others) :
      CallVersions d (.emit t) fun v => .emit (others v)
  | mute {k : Call ι} (quiet : silent k = true) (fine : CallVoices d.good k) : CallVersions d k fun _ => k

/-- Related pages have the same space left, and stay related when a token and its versions are written. -/
structure PagesKept (d : Difference V ι) : Prop where
  space {page : Page ι} {sheets : V → Page ι} (related : d.pages page sheets) (v : V) :
    (sheets v).sink.space = page.sink.space
  write {page : Page ι} {sheets : V → Page ι} {t : Token ι} {others : V → Token ι}
    (related : d.pages page sheets) (told : TokenVersions d t others) (size : ι) :
    Agree d.pages (page.write t size) fun v => (sheets v).write (others v) size

end Versions

section Printers

variable {d : Difference V ι}

/-- An entry and its versions, which hold the versions of its token and have its size. -/
def EntryVersions (d : Difference V ι) (e : Entry ι) (others : V → Entry ι) : Prop :=
  ∃ tokens, TokenVersions d e.token tokens ∧ others = fun v => ⟨tokens v, e.size⟩

/-- A printer that measures otherwise, holds back other entries, writes on another page and has other groups
open. -/
def recast (p : Printer ι) (config : Config ι) (buf : Ring (Entry ι)) (page : Page ι) (scopes : List (List ι)) :
    Printer ι :=
  { p with config := config, buf := buf, page := page, scopes := scopes }

/-- A printer in some open groups and its versions in others. They are the same but for these, for what they
hold back and write on, and for how they measure, which is alike for related texts. -/
def InStep (d : Difference V ι) (own : List (List ι)) (scopes : V → List (List ι)) (p : Printer ι)
    (q : V → Printer ι) : Prop :=
  p.scopes = own ∧ ∃ (configs : V → Config ι) (buf : V → Ring (Entry ι)) (sheets : V → Page ι),
    (∀ s words, d.texts s words → ∀ v, (configs v).width (words v) = p.config.width s) ∧
    QueueMirrors (EntryVersions d) p.buf buf ∧ d.pages p.page sheets ∧
    q = fun v => recast p (configs v) (buf v) (sheets v) (scopes v)

/-- Writes what is held back at the end of a document. -/
def drain (p : Printer ι) : Except Fault (Printer ι) := do
  let p ← p.resolveClosed
  let p ← Printer.resolveScan p.scan.length p
  let p ← p.advance
  return { p with done := true }

variable {own : List (List ι)} {scopes : V → List (List ι)} {p : Printer ι} {q : V → Printer ι} {t : Token ι}
  {others : V → Token ι}

variable (kept : PagesKept d) (steps : InStep d own scopes p q)
include steps

/-- A change of the printer that touches neither the page nor what is held back nor the open groups. -/
theorem inStep_aside (change : Printer ι → Printer ι)
    (config : (change p).config = p.config) (buf : (change p).buf = p.buf) (page : (change p).page = p.page)
    (still : (change p).scopes = p.scopes) (apart : ∀ config buf page scopes, change (recast p config buf page scopes) =
      recast (change p) config buf page scopes) :
    InStep d own scopes (change p) fun v => change (q v) := by
  obtain ⟨here, configs, held, sheets, widths, mirrors, related, rfl⟩ := steps
  exact ⟨still.trans here, configs, held, sheets, config ▸ widths, buf ▸ mirrors, page ▸ related,
    funext fun v => apart _ _ _ _⟩

theorem push_inStep (told : TokenVersions d t others) (size : ι) :
    InStep d own scopes (p.push ⟨t, size⟩) fun v => (q v).push ⟨others v, size⟩ := by
  obtain ⟨here, configs, buf, sheets, widths, mirrors, related, rfl⟩ := steps
  have pushed := mirrors_pushBack mirrors (a := ⟨t, size⟩) (b := fun v => ⟨others v, size⟩) ⟨others, told, rfl⟩
  refine ⟨here, configs, _, sheets, widths, pushed, related, ?_⟩
  funext v
  have length := mirrors_length pushed v
  simp only [Printer.push, recast, length]

theorem pushPending_inStep (told : TokenVersions d t others) :
    InStep d own scopes (p.pushPending t) fun v => (q v).pushPending (others v) := by
  have pushed := push_inStep steps told (-p.rightTotal)
  have last (v : V) : ((q v).push ⟨others v, -p.rightTotal⟩).buf.backPos =
      (p.push ⟨t, -p.rightTotal⟩).buf.backPos := by
    obtain ⟨_, _, buf, _, _, mirrors, _, same⟩ := pushed
    simp only [congrFun same v, Ring.backPos, recast, mirrors.offset, mirrors_length mirrors]
  have total (v : V) : (q v).rightTotal = p.rightTotal := by
    obtain ⟨_, _, _, _, _, _, _, rfl⟩ := steps
    rfl
  simp only [Printer.pushPending, total, last]
  exact inStep_aside pushed (fun r => Printer.trackPending { r with scan := r.scan.pushBack _ }) rfl rfl rfl rfl
    fun _ _ _ _ => rfl

theorem resolve_agree (pos : Int) : Agree (InStep d own scopes) (p.resolve pos) fun v => (q v).resolve pos := by
  obtain ⟨here, configs, buf, sheets, widths, mirrors, related, rfl⟩ := steps
  refine agree_bind (mirrors_read mirrors pos) ?_
  rintro e _ ⟨tokens, told, rfl⟩
  have same : EntryVersions d { e with size := e.size + p.rightTotal } fun v =>
      ⟨tokens v, e.size + p.rightTotal⟩ := ⟨tokens, told, rfl⟩
  refine agree_bind (mirrors_write mirrors same pos) fun r s resolved => ?_
  exact agree_ok ⟨here, configs, s, sheets, widths, resolved, related, rfl⟩

theorem scan_inStep (v : V) : (q v).scan = p.scan := by
  obtain ⟨_, _, _, _, _, _, _, rfl⟩ := steps
  rfl

theorem closed_inStep (v : V) : (q v).closed = p.closed := by
  obtain ⟨_, _, _, _, _, _, _, rfl⟩ := steps
  rfl

theorem idle_inStep (v : V) : (q v).idle = p.idle := by
  obtain ⟨_, _, _, _, _, _, _, rfl⟩ := steps
  rfl

theorem length_inStep (v : V) : (q v).buf.length = p.buf.length := by
  obtain ⟨_, _, _, _, _, mirrors, _, rfl⟩ := steps
  exact mirrors_length mirrors v

theorem withScan_inStep (scan : Ring Int) :
    InStep d own scopes { p with scan := scan } fun v => { q v with scan := scan } :=
  inStep_aside steps (fun p => { p with scan := scan }) rfl rfl rfl rfl fun _ _ _ _ => rfl

theorem withScopes_inStep (inside : List (List ι)) (others : V → List (List ι)) :
    InStep d inside others { p with scopes := inside } fun v => { q v with scopes := others v } := by
  obtain ⟨_, configs, buf, sheets, widths, mirrors, related, rfl⟩ := steps
  exact ⟨rfl, configs, buf, sheets, widths, mirrors, related, rfl⟩

theorem restart_inStep : InStep d own scopes p.restart fun v => (q v).restart :=
  inStep_aside steps Printer.restart rfl rfl rfl rfl fun _ _ _ _ => rfl

theorem resolveClosed_agree : Agree (InStep d own scopes) p.resolveClosed fun v => (q v).resolveClosed := by
  have all (closed : List Int) {p : Printer ι} {q : V → Printer ι} (steps : InStep d own scopes p q) :
      Agree (InStep d own scopes) (closed.foldlM Printer.resolve p) fun v =>
        closed.foldlM Printer.resolve (q v) := by
    induction closed generalizing p q with
    | nil => exact agree_ok steps
    | cons pos closed ih =>
      simp only [List.foldlM_cons]
      exact agree_bind (resolve_agree steps pos) fun _ _ later => ih later
  simp only [Printer.resolveClosed, closed_inStep steps]
  refine agree_bind (all p.closed steps) fun p q later => ?_
  exact agree_ok (inStep_aside later (fun p => { p with closed := [] }) rfl rfl rfl rfl fun _ _ _ _ => rfl)

omit steps

theorem pendingIs_agree {test : Token ι → Bool}
    (blind : ∀ t others, TokenVersions d t others → ∀ v, test (others v) = test t)
    (steps : InStep d own scopes p q) : Agree Constant (p.pendingIs test) fun v => (q v).pendingIs test := by
  obtain ⟨_, _, buf, _, _, mirrors, _, rfl⟩ := steps
  refine agree_ite (fun _ => agree_ok rfl) fun _ => ?_
  refine agree_bind (agree_constant (queue p.scan.back)) ?_
  rintro pos _ rfl
  refine agree_bind (mirrors_read mirrors pos) ?_
  rintro e _ ⟨tokens, told, rfl⟩
  exact agree_ok (funext fun v => blind _ _ told v)

omit [Columns ι] in
private theorem isBreak_blind (told : TokenVersions d t others) (v : V) :
    Printer.isBreak (others v) = Printer.isBreak t := by
  cases told <;> rfl

omit [Columns ι] in
private theorem isGroupStart_blind (told : TokenVersions d t others) (v : V) :
    Printer.isGroupStart (others v) = Printer.isGroupStart t := by
  cases told <;> rfl

private theorem flatWidth_blind (told : TokenVersions d t others) (size : ι) (v : V) :
    Entry.flatWidth ⟨others v, size⟩ = Entry.flatWidth ⟨t, size⟩ := by
  cases told <;> rfl

theorem resolveLast_agree (steps : InStep d own scopes p q) :
    Agree (InStep d own scopes) p.resolveLast fun v => (q v).resolveLast := by
  simp only [Printer.resolveLast, scan_inStep steps]
  refine agree_ite (fun _ => agree_ok (restart_inStep steps)) fun _ => ?_
  refine agree_bind (pendingIs_agree (fun _ _ => isBreak_blind) steps) ?_
  rintro top _ rfl
  refine agree_ite (fun _ => ?_) fun _ => agree_ok steps
  refine agree_bind (agree_constant (queue p.scan.popBack)) ?_
  rintro ⟨pos, left⟩ _ rfl
  exact resolve_agree (withScan_inStep steps left) pos

theorem resolveScan_agree (fuel : Nat) (steps : InStep d own scopes p q) :
    Agree (InStep d own scopes) (Printer.resolveScan fuel p) fun v => Printer.resolveScan fuel (q v) := by
  induction fuel generalizing p q with
  | zero => exact agree_ok steps
  | succ fuel ih =>
    simp only [Printer.resolveScan, scan_inStep steps]
    refine agree_ite (fun _ => agree_ok steps) fun _ => ?_
    refine agree_bind (agree_constant (queue p.scan.popBack)) ?_
    rintro ⟨pos, left⟩ _ rfl
    exact agree_bind (resolve_agree (withScan_inStep steps left) pos) fun _ _ later => ih later

include steps

theorem breakHead_agree : Agree (InStep d own scopes) p.breakHead fun v => (q v).breakHead := by
  have stays := steps
  obtain ⟨here, configs, buf, sheets, widths, mirrors, related, rfl⟩ := steps
  have place (v : V) : (recast p (configs v) (buf v) (sheets v) (scopes v)).buf.frontPos = p.buf.frontPos :=
    mirrors_frontPos mirrors v
  unfold Printer.breakHead
  refine agree_bind (mirrors_front mirrors) ?_
  rintro e _ ⟨tokens, told, rfl⟩
  -- Whichever list the head is taken from, storing its size is the last step.
  have stores {p : Printer ι} {q : V → Printer ι} (steps : InStep d own scopes p q) (head : Int) :
      Agree (InStep d own scopes)
        (queue (p.buf.write head { e with size := infiniteWidth }) >>= fun buf => pure { p with buf := buf })
        fun v => queue ((q v).buf.write head { token := tokens v, size := infiniteWidth }) >>= fun buf =>
          pure { q v with buf := buf } := by
    obtain ⟨here, configs, buf, sheets, widths, mirrors, related, rfl⟩ := steps
    have same : EntryVersions d { e with size := infiniteWidth } fun v => ⟨tokens v, infiniteWidth⟩ :=
      ⟨tokens, told, rfl⟩
    refine agree_bind (mirrors_write mirrors same head) fun r s wrote => ?_
    exact agree_ok ⟨here, configs, s, sheets, widths, wrote, related, rfl⟩
  simp only [place]
  refine agree_ite (fun _ => ?_) fun _ => agree_ok stays
  refine agree_ite (fun _ => agree_bind (agree_constant _) ?_) fun _ => agree_bind (agree_constant _) ?_
  all_goals
    rintro first _ rfl
    refine agree_ite (fun _ => ?_) fun _ => ?_
    · refine agree_bind (agree_constant (queue p.scan.popFront)) ?_
      rintro ⟨_, left⟩ _ rfl
      exact agree_bind (agree_ok (withScan_inStep stays left)) fun _ _ later => stores later _
    · refine agree_bind (agree_ok ?_) fun _ _ later => stores later _
      exact ⟨here, configs, buf, sheets, widths, mirrors, related, rfl⟩

/-- Whether or not the top of the pending entries is closed, what is done next agrees. -/
private theorem closeTop_agree (top : Bool) {k : Printer ι → Except Fault (Printer ι)}
    (next : ∀ p q, InStep d own scopes p q → Agree (InStep d own scopes) (k p) fun v => k (q v)) :
    Agree (InStep d own scopes)
      (if top then (do let (pos, scan) ← queue p.scan.popBack
                       return Printer.close { p with scan := scan } pos) >>= k
        else pure p >>= k) fun v =>
      if top then (do let (pos, scan) ← queue (q v).scan.popBack
                      return Printer.close { q v with scan := scan } pos) >>= k
        else pure (q v) >>= k := by
  refine agree_ite (fun _ => ?_) fun _ => next p q steps
  simp only [scan_inStep steps, bind_assoc]
  refine agree_bind (agree_constant (queue p.scan.popBack)) ?_
  rintro ⟨pos, left⟩ _ rfl
  have moved := inStep_aside (withScan_inStep steps left) (fun p => p.close pos) rfl rfl rfl rfl fun _ _ _ _ => rfl
  exact next _ _ moved

theorem scanStart_inStep (g : Group ι) : InStep d own scopes (p.scanStart g) fun v => (q v).scanStart g := by
  simp only [Printer.scanStart, idle_inStep steps]
  cases p.idle with
  | true => exact pushPending_inStep (restart_inStep steps) (.groupStart g)
  | false => exact pushPending_inStep steps (.groupStart g)

/-- The total of what has been put in grows alike. -/
private theorem widen_inStep (width : ι) : InStep d own scopes { p with rightTotal := p.rightTotal + width } fun v =>
      { q v with rightTotal := (q v).rightTotal + width } :=
  inStep_aside steps (fun p => { p with rightTotal := p.rightTotal + width }) rfl rfl rfl rfl fun _ _ _ _ => rfl

theorem count_agree : Agree (InStep d own scopes) p.count fun v => (q v).count := by
  obtain ⟨here, configs, buf, sheets, widths, mirrors, related, rfl⟩ := steps
  refine agree_ite (fun _ => rfl) fun _ => ?_
  exact agree_ok ⟨here, configs, buf, sheets, widths, mirrors, related, rfl⟩

omit steps

include kept

theorem advanceUpTo_agree (fuel : Nat) (steps : InStep d own scopes p q) :
    Agree (InStep d own scopes) (Printer.advanceUpTo fuel p) fun v => Printer.advanceUpTo fuel (q v) := by
  induction fuel generalizing p q with
  | zero => exact agree_ok steps
  | succ fuel ih =>
    simp only [Printer.advanceUpTo, length_inStep steps]
    refine agree_ite (fun _ => agree_ok steps) fun _ => ?_
    have stays := steps
    obtain ⟨here, configs, buf, sheets, widths, mirrors, related, rfl⟩ := steps
    refine agree_bind (mirrors_front mirrors) ?_
    rintro e _ ⟨_, _, rfl⟩
    refine agree_ite (fun _ => agree_ok stays) fun _ => ?_
    refine agree_bind (mirrors_popFront mirrors) ?_
    rintro ⟨⟨t, size⟩, r⟩ next ⟨⟨tokens, told, same⟩, popped⟩
    simp only [congrFun same]
    refine agree_bind (kept.write related told size) fun page sheets wrote => ?_
    simp only [flatWidth_blind told]
    exact ih ⟨here, configs, _, sheets, widths, popped, wrote, rfl⟩

theorem advance_agree (steps : InStep d own scopes p q) :
    Agree (InStep d own scopes) p.advance fun v => (q v).advance := by
  simp only [Printer.advance, length_inStep steps]
  exact advanceUpTo_agree kept p.buf.length steps

theorem checkStreamUpTo_agree (fuel : Nat) (steps : InStep d own scopes p q) :
    Agree (InStep d own scopes) (Printer.checkStreamUpTo fuel p) fun v =>
      Printer.checkStreamUpTo fuel (q v) := by
  induction fuel generalizing p q with
  | zero => exact agree_ok steps
  | succ fuel ih =>
    have totals (v : V) : (q v).page.sink.space = p.page.sink.space ∧ (q v).rightTotal = p.rightTotal ∧
        (q v).leftTotal = p.leftTotal := by
      obtain ⟨_, _, _, _, _, _, related, rfl⟩ := steps
      exact ⟨kept.space related v, rfl, rfl⟩
    simp only [Printer.checkStreamUpTo, length_inStep steps, totals]
    refine agree_ite (fun _ => ?_) fun _ => agree_ok steps
    refine agree_bind (breakHead_agree steps) fun _ _ broken => ?_
    exact agree_bind (advance_agree kept broken) fun _ _ later => ih later

include steps

theorem checkStream_agree : Agree (InStep d own scopes) p.checkStream fun v => (q v).checkStream := by
  simp only [Printer.checkStream, length_inStep steps]
  exact checkStreamUpTo_agree kept p.buf.length steps

theorem writeClosed_agree : Agree (InStep d own scopes) p.writeClosed fun v => (q v).writeClosed := by
  simp only [Printer.writeClosed, closed_inStep steps]
  refine agree_ite (fun _ => agree_ok steps) fun _ => ?_
  exact agree_bind (resolveClosed_agree steps) fun _ _ resolved => advance_agree kept resolved

/-- A token is written to the page at once. -/
private theorem writeNow_agree (told : TokenVersions d t others) (size : ι) :
    Agree (InStep d own scopes) (do return { p with page := ← p.page.write t size }) fun v => do
      return { q v with page := ← (q v).page.write (others v) size } := by
  obtain ⟨here, configs, buf, sheets, widths, mirrors, related, rfl⟩ := steps
  refine agree_bind (kept.write related told size) fun page sheets wrote => ?_
  exact agree_ok ⟨here, configs, buf, sheets, widths, mirrors, wrote, rfl⟩

theorem scanEnd_agree : Agree (InStep d own scopes) p.scanEnd fun v => (q v).scanEnd := by
  simp only [Printer.scanEnd, idle_inStep steps]
  refine agree_ite (fun _ => writeNow_agree kept steps .groupEnd 0) fun _ => ?_
  refine agree_bind (pendingIs_agree (fun _ _ => isBreak_blind) steps) ?_
  rintro top _ rfl
  refine closeTop_agree steps top fun p q steps => ?_
  refine agree_bind (pendingIs_agree (fun _ _ => isGroupStart_blind) steps) ?_
  rintro top _ rfl
  refine closeTop_agree steps top fun p q steps => ?_
  exact advance_agree kept (push_inStep steps .groupEnd 0)

theorem scanBreak_agree {b : Break ι} (fine : d.good b.preBreak) :
    Agree (InStep d own scopes) (p.scanBreak b) fun v => (q v).scanBreak b := by
  refine agree_bind (writeClosed_agree kept steps) fun _ _ written => ?_
  refine agree_bind (resolveLast_agree written) fun p q resolved => ?_
  have wider := widen_inStep (pushPending_inStep resolved (.lineBreak fine)) b.width
  exact agree_bind (checkStream_agree kept wider) fun _ _ checked => advance_agree kept checked

theorem scanText_agree {s : Text} {words : V → Text} (related : d.texts s words) :
    Agree (InStep d own scopes) (p.scanText s) fun v => (q v).scanText (words v) := by
  have width (v : V) : (q v).config.width (words v) = p.config.width s := by
    obtain ⟨_, _, _, _, widths, _, _, rfl⟩ := steps
    exact widths s words related v
  simp only [Printer.scanText, idle_inStep steps, width]
  refine agree_ite (fun _ => ?_) fun _ => ?_
  · exact writeNow_agree kept steps (.text related) _
  · exact checkStream_agree kept (widen_inStep (push_inStep steps (.text related) _) _)

theorem scanIndent_agree (delta : ι) :
    Agree (InStep d own scopes) (p.scanIndent delta) fun v => (q v).scanIndent delta := by
  simp only [Printer.scanIndent, idle_inStep steps]
  refine agree_ite (fun _ => writeNow_agree kept steps (.indent delta) 0) fun _ => ?_
  exact agree_ok (push_inStep steps (.indent delta) 0)

theorem drain_agree : Agree (InStep d own scopes) (drain p) fun v => drain (q v) := by
  refine agree_bind (resolveClosed_agree steps) fun p q steps => ?_
  simp only [scan_inStep steps]
  refine agree_bind (resolveScan_agree p.scan.length steps) fun p q steps => ?_
  refine agree_bind (advance_agree kept steps) fun p q steps => ?_
  exact agree_ok (inStep_aside steps (fun p => { p with done := true }) rfl rfl rfl rfl fun _ _ _ _ => rfl)

end Printers

section Calls

variable {d : Difference V ι} {p : Printer ι} {q : V → Printer ι} {t : Token ι} {others : V → Token ι}
  (kept : PagesKept d)

/-- A printer and its versions, all in the same open groups. -/
def PrintersAlike (d : Difference V ι) (p : Printer ι) (q : V → Printer ι) : Prop :=
  InStep d p.scopes (fun _ => p.scopes) p q

theorem scopes_alike (alike : PrintersAlike d p q) (v : V) : (q v).scopes = p.scopes := by
  obtain ⟨_, _, _, _, _, _, _, rfl⟩ := alike
  rfl

theorem inStep_alike {scopes : List (List ι)} (steps : InStep d scopes (fun _ => scopes) p q) :
    PrintersAlike d p q := by
  obtain rfl := steps.1
  exact steps

theorem agree_alike {scopes : List (List ι)} {x : Except Fault (Printer ι)} {y : V → Except Fault (Printer ι)}
    (agree : Agree (InStep d scopes fun _ => scopes) x y) : Agree (PrintersAlike d) x y := by
  cases x with
  | error f => exact agree
  | ok p =>
    obtain ⟨q, all, steps⟩ := agree
    exact ⟨q, all, inStep_alike steps⟩

variable (alike : PrintersAlike d p q)
include alike

theorem count_alike : Agree (PrintersAlike d) p.count fun v => (q v).count :=
  agree_alike (count_agree alike)

theorem openGroup_agree (g : Group ι) : Agree (PrintersAlike d) (p.openGroup g) fun v => (q v).openGroup g := by
  refine agree_bind (count_alike alike) fun p q alike => ?_
  simp only [scopes_alike alike]
  have opened := scanStart_inStep (withScopes_inStep alike ([] :: p.scopes) fun _ => [] :: p.scopes) g
  cases g.breaks with
  | unknown code => rfl
  | consistent | inconsistent => exact agree_ok (inStep_alike opened)

include kept

theorem closeGroup_agree : Agree (PrintersAlike d) p.closeGroup fun v => (q v).closeGroup := by
  refine agree_bind (count_alike alike) fun p q alike => ?_
  simp only [scopes_alike alike]
  match p.scopes with
  | [] => rfl
  | [_] => rfl
  | _ :: outer :: rest =>
    exact agree_alike (scanEnd_agree kept (withScopes_inStep alike (outer :: rest) fun _ => outer :: rest))

theorem pushIndent_agree (delta : ι) :
    Agree (PrintersAlike d) (p.pushIndent delta) fun v => (q v).pushIndent delta := by
  refine agree_bind (count_alike alike) fun p q alike => ?_
  refine agree_ite (fun _ => rfl) fun _ => ?_
  simp only [scopes_alike alike]
  match p.scopes with
  | [] => rfl
  | scope :: rest =>
    have pushed := withScopes_inStep alike ((delta :: scope) :: rest) fun _ => (delta :: scope) :: rest
    exact agree_alike (scanIndent_agree kept pushed delta)

theorem popIndent_agree : Agree (PrintersAlike d) p.popIndent fun v => (q v).popIndent := by
  refine agree_bind (count_alike alike) fun p q alike => ?_
  simp only [scopes_alike alike]
  match p.scopes with
  | [] => rfl
  | [] :: _ => rfl
  | (delta :: scope) :: rest =>
    have popped := withScopes_inStep alike (scope :: rest) fun _ => scope :: rest
    exact agree_alike (scanIndent_agree kept popped (-delta))

theorem writeText_agree {s : Text} {words : V → Text} (related : d.texts s words) :
    Agree (PrintersAlike d) (p.count >>= fun p => p.scanText s) fun v =>
      (q v).count >>= fun q => q.scanText (words v) :=
  agree_bind (count_alike alike) fun _ _ counted => agree_alike (scanText_agree kept counted related)

theorem takeBreak_agree {b : Break ι} (fine : d.good b.preBreak) :
    Agree (PrintersAlike d) (p.scanBreak b) fun v => (q v).scanBreak b :=
  agree_alike (scanBreak_agree kept alike fine)

/-- A token and its versions keep the printers that are told them in step. -/
theorem emit_agree (told : TokenVersions d t others) :
    Agree (PrintersAlike d) (p.emit t) fun v => (q v).emit (others v) := by
  cases told with
  | text related => exact writeText_agree kept alike related
  | lineBreak fine =>
    refine agree_bind (count_alike alike) fun _ _ counted => ?_
    refine agree_ite (fun _ => takeBreak_agree kept counted fine) fun _ => ?_
    exact agree_ite (fun _ => rfl) fun _ => takeBreak_agree kept counted fine
  | groupStart g => exact openGroup_agree alike g
  | groupEnd => exact closeGroup_agree kept alike
  | indent delta =>
    simp only [Printer.emit, scopes_alike alike]
    refine agree_ite (fun _ => pushIndent_agree kept alike delta) fun _ => ?_
    exact agree_ite (fun _ => popIndent_agree kept alike) fun _ => rfl
  | missing => rfl

theorem finish_agree : Agree (PrintersAlike d) p.finish fun v => (q v).finish := by
  refine agree_bind (count_alike alike) fun p q alike => ?_
  simp only [scopes_alike alike]
  exact agree_ite (fun _ => rfl) fun _ => agree_alike (drain_agree kept alike)

/-- A call and its versions keep the printers that are asked them in step. -/
theorem call_agree {k : Call ι} {others : V → Call ι}
    (asked : CallVersions d k others) : Agree (PrintersAlike d) (p.call k) fun v => (q v).call (others v) := by
  cases asked with
  | text related => exact writeText_agree kept alike related
  | emit told => exact emit_agree kept alike told
  | mute quiet fine =>
    cases k with
    | text s => cases quiet
    | lineBreak width offset =>
      refine agree_bind (count_alike alike) fun _ _ counted => ?_
      exact agree_ite (fun _ => rfl) fun _ => takeBreak_agree kept counted fine
    | hardBreak | trailingComma =>
      exact agree_bind (count_alike alike) fun _ _ counted => takeBreak_agree kept counted fine
    | groupStart | alignStart => exact openGroup_agree alike _
    | groupEnd => exact closeGroup_agree kept alike
    | indent delta => exact pushIndent_agree kept alike delta
    | outdent => exact popIndent_agree kept alike
    | emit t => cases quiet
    | eof => exact finish_agree kept alike

/-- Printers stay in step over all calls. -/
theorem run_agree {ks : List (Call ι)} {others : List (V → Call ι)} (asked : List.Forall₂ (CallVersions d) ks others) :
    Agree (PrintersAlike d) (p.run ks) fun v => (q v).run (others.map (· v)) := by
  induction asked generalizing p q with
  | nil => exact agree_ok alike
  | cons first rest ih =>
    simp only [Printer.run, List.map_cons, List.foldlM_cons]
    exact agree_bind (call_agree kept alike first) fun _ _ later => ih later

end Calls

section Documents

variable {d : Difference V ι} {c : Config ι} {configs : V → Config ι} {ks : List (Call ι)}
  {others : List (V → Call ι)}

/-- Configurations with one margin and unit that measure related texts alike, and whose blank pages are
related. -/
structure ConfigVersions (d : Difference V ι) (c : Config ι) (configs : V → Config ι) : Prop where
  margin (v : V) : (configs v).margin = c.margin
  unit (v : V) : (configs v).unit = c.unit
  width {s : Text} {words : V → Text} (related : d.texts s words) (v : V) :
    (configs v).width (words v) = c.width s
  blank : d.pages (.ofConfig c.withDefaults) fun v => .ofConfig (configs v).withDefaults

theorem ofConfig_agree (start : ConfigVersions d c configs) :
    Agree (PrintersAlike d) (Printer.ofConfig c) fun v => Printer.ofConfig (configs v) := by
  have defaults (v : V) : (configs v).withDefaults.margin = c.withDefaults.margin ∧
      (configs v).withDefaults.unit = c.withDefaults.unit := by
    simp only [Config.withDefaults, start.margin v, start.unit v, and_self]
  simp only [Printer.ofConfig, defaults]
  refine agree_ite (fun _ => rfl) fun _ => agree_ok ?_
  exact ⟨rfl, fun v => (configs v).withDefaults, fun _ => .empty, _, fun _ _ related => start.width related,
    ⟨fun _ => rfl, [], .nil, fun _ => rfl⟩, start.blank, rfl⟩

variable (kept : PagesKept d)
include kept

/-- Calls and their versions are done in step from the start. -/
theorem begun_agree (start : ConfigVersions d c configs) (asked : List.Forall₂ (CallVersions d) ks others) :
    Agree (PrintersAlike d) (Printer.ofConfig c >>= fun p => p.run ks) fun v =>
      Printer.ofConfig (configs v) >>= fun p => p.run (others.map (· v)) :=
  agree_bind (ofConfig_agree start) fun _ _ started => run_agree kept started asked

/-- Whole documents are printed in step. -/
theorem print_agree (start : ConfigVersions d c configs) (asked : List.Forall₂ (CallVersions d) ks others) :
    Agree (PrintersAlike d) (Printer.print c ks) fun v => Printer.print (configs v) (others.map (· v)) := by
  have agree := agree_bind (begun_agree kept start asked) fun _ _ ran => finish_agree kept ran
  simp only [bind_assoc] at agree
  exact agree

end Documents

end Galley.Layout.Lockstep
