import Galley.Proofs.Lockstep

/-! What is written has no part in a layout. Two printers that differ only in their sinks and are told the
same tokens stay side by side: both go on and their sinks stay related, or both end with the same fault. One
printer beside itself keeps of its sink what every token keeps. Nothing here rests on how columns are
counted: it holds of machine words as well. -/
namespace Galley.Layout.SideBySide
open Lockstep

variable {ι : Type} [Columns ι]

section Results

variable {α β : Type} {related : α → β → Prop}

/-- Two results that are there and related, or are the same fault. -/
inductive ResultsBoth (related : α → β → Prop) : Except Fault α → Except Fault β → Prop where
  | ok {a : α} {b : β} (here : related a b) : ResultsBoth related (.ok a) (.ok b)
  | error (f : Fault) : ResultsBoth related (.error f) (.error f)

/-- A result and its only version. -/
abbrev Pair (related : α → β → Prop) (x : Except Fault α) (y : Except Fault β) : Prop :=
  Agree (V := Unit) (fun a b => related a (b ())) x fun _ => y

theorem pair_both {x : Except Fault α} {y : Except Fault β} (pair : Pair related x y) : ResultsBoth related x y := by
  cases x with
  | error f =>
    obtain rfl := congrFun pair ()
    exact .error f
  | ok a =>
    obtain ⟨b, same, here⟩ := pair
    obtain rfl := congrFun same ()
    exact .ok here

end Results

/-- What is kept between two sinks when the same is written to both, as long as texts are good. Sinks that
are so related have the same space left and stand at the same column. -/
structure SinksUpheld (good : Text → Prop) (sinks : Sink ι → Sink ι → Prop) : Prop where
  space {a b : Sink ι} (related : sinks a b) : b.space = a.space
  column {a b : Sink ι} (related : sinks a b) : b.column = a.column
  quiet {a b : Sink ι} {m : Mark ι} (related : sinks a b) (silent : m.spelling = []) :
    sinks (a.mark m) (b.mark m)
  text {a b : Sink ι} {s : Text} (related : sinks a b) (fine : good s) (width : ι) :
    sinks (a.write s width) (b.write s width)
  owe {a b : Sink ι} (related : sinks a b) (n : ι) : sinks (a.owe n) (b.owe n)
  newline {a b : Sink ι} {s : Text} (related : sinks a b) (fine : good s) (indent : ι) :
    Pair sinks (a.newline s indent) (b.newline s indent)

variable {good : Text → Prop} {sinks : Sink ι → Sink ι → Prop}

section Pages

/-- Pages with the same groups open and related sinks. -/
structure PagesPaired (sinks : Sink ι → Sink ι → Prop) (a b : Page ι) : Prop where
  frames : b.frames = a.frames
  sink : sinks a.sink b.sink

variable {a b : Page ι}

private theorem writeBreak_pair (upheld : SinksUpheld good sinks) (paired : PagesPaired sinks a b) {br : Break ι}
    (fine : good br.preBreak) (size : ι) : Pair (PagesPaired sinks) (a.writeBreak br size) (b.writeBreak br size) := by
  have flat (top : Frame ι) : b.staysFlat top br size = a.staysFlat top br size := by
    simp only [Page.staysFlat, upheld.space paired.sink]
  simp only [Page.writeBreak, paired.frames, flat]
  cases a.frames with
  | nil => rfl
  | cons top rest =>
    refine agree_ite (fun _ => agree_ok ⟨rfl, upheld.owe paired.sink _⟩) fun _ => ?_
    exact agree_bind (upheld.newline paired.sink fine _) fun _ _ line => agree_ok ⟨rfl, line⟩

private theorem startGroup_pair (upheld : SinksUpheld good sinks) (paired : PagesPaired sinks a b) (g : Group ι)
    (size : ι) :
    Pair (PagesPaired sinks) (a.startGroup g size) (b.startGroup g size) := by
  have opened (frame : Frame ι) (fits : Bool) : PagesPaired sinks ⟨a.sink.mark (.start fits), frame :: a.frames⟩
      ⟨b.sink.mark (.start fits), frame :: b.frames⟩ :=
    ⟨congrArg (frame :: ·) paired.frames, upheld.quiet paired.sink rfl⟩
  rw [paired.frames] at opened
  simp only [Page.startGroup, paired.frames, upheld.space paired.sink, upheld.column paired.sink]
  cases framed : a.frames with
  | nil => rfl
  | cons top rest =>
    rw [framed] at opened
    refine agree_ite (fun _ => agree_ok (opened _ true)) fun _ => ?_
    exact agree_ite (fun _ => rfl) fun _ => agree_ok (opened _ false)

/-- The same good texts, written on paired pages. -/
def besides (good : Text → Prop) (sinks : Sink ι → Sink ι → Prop) : Difference Unit ι where
  texts s words := good s ∧ words = fun _ => s
  good := good
  pages page sheets := PagesPaired sinks page (sheets ())

/-- A token is written alike to both pages. -/
theorem besides_kept (upheld : SinksUpheld good sinks) : PagesKept (besides good sinks) where
  space := fun paired _ => upheld.space (PagesPaired.sink paired)
  write := by
    intro page sheets t _ paired told size
    have paired : PagesPaired sinks page (sheets ()) := paired
    cases told with
    | text related =>
      obtain ⟨fine, rfl⟩ := related
      exact agree_ok ⟨paired.frames, upheld.text paired.sink fine size⟩
    | lineBreak fine => exact writeBreak_pair upheld paired fine size
    | groupStart g => exact startGroup_pair upheld paired g size
    | groupEnd =>
      simp only [Page.write, paired.frames]
      cases page.frames with
      | nil => rfl
      | cons top rest => exact agree_ok ⟨rfl, upheld.quiet paired.sink rfl⟩
    | indent delta =>
      simp only [Page.write, paired.frames]
      cases page.frames with
      | nil => rfl
      | cons top rest =>
        exact agree_ite (fun _ => rfl) fun _ => agree_ok ⟨rfl, upheld.quiet paired.sink rfl⟩
    | missing => exact agree_ok paired

end Pages

section Documents

variable {c d : Config ι} {ks : List (Call ι)}

omit [Columns ι] in
theorem speaks_told {t : Token ι} (speaks : TokenSpeaks good t) : TokenVersions (besides good sinks) t fun _ => t := by
  cases t with
  | text s => exact .text ⟨speaks, rfl⟩
  | lineBreak b => exact .lineBreak speaks
  | groupStart g => exact .groupStart g
  | groupEnd => exact .groupEnd
  | indent delta => exact .indent delta
  | missing => exact .missing

omit [Columns ι] in
theorem voices_asked (voices : ∀ k ∈ ks, CallVoices good k) :
    List.Forall₂ (CallVersions (besides good sinks)) ks (ks.map fun k _ => k) := by
  rw [List.forall₂_map_right_iff, List.forall₂_same]
  intro k member
  have fine := voices k member
  cases k with
  | text s => exact .text ⟨fine, rfl⟩
  | emit t => exact .emit (speaks_told fine)
  | _ => exact .mute rfl fine

/-- Configurations that differ only in how indentation is spelled and in how texts that are not good are
measured, with blank sinks that are related. -/
structure ConfigsBeside (good : Text → Prop) (sinks : Sink ι → Sink ι → Prop) (c d : Config ι) : Prop where
  margin : d.margin = c.margin
  unit : d.unit = c.unit
  width {s : Text} (fine : good s) : d.width s = c.width s
  first : sinks (Sink.ofConfig c.withDefaults) (Sink.ofConfig d.withDefaults)

theorem besides_starts (start : ConfigsBeside good sinks c d) :
    ConfigVersions (besides good sinks) c fun _ => d where
  margin _ := start.margin
  unit _ := start.unit
  width := by
    rintro s _ ⟨fine, rfl⟩ _
    exact start.width fine
  blank := ⟨rfl, start.first⟩

/-- Printers whose sinks are related. -/
abbrev SinksRelated (sinks : Sink ι → Sink ι → Prop) (p q : Printer ι) : Prop := sinks p.page.sink q.page.sink

theorem alike_both {x y : Except Fault (Printer ι)}
    (agree : Agree (PrintersAlike (besides good sinks)) x fun _ => y) : ResultsBoth (SinksRelated sinks) x y := by
  refine pair_both ?_
  cases x with
  | error f => exact agree
  | ok p =>
    obtain ⟨q, all, _, _, _, _, _, _, paired, rfl⟩ := agree
    exact ⟨_, all, paired.sink⟩

variable (upheld : SinksUpheld good sinks) (start : ConfigsBeside good sinks c d)
include upheld start

/-- Calls are done side by side from the start. -/
theorem begun_both (voices : ∀ k ∈ ks, CallVoices good k) :
    ResultsBoth (SinksRelated sinks) (Printer.ofConfig c >>= fun p => p.run ks)
      (Printer.ofConfig d >>= fun p => p.run ks) := by
  have agree := begun_agree (besides_kept upheld) (besides_starts start) (voices_asked voices)
  simp only [List.map_map, Function.comp_def, List.map_id'] at agree
  exact alike_both agree

/-- Whole documents are printed side by side. -/
theorem print_both (voices : ∀ k ∈ ks, CallVoices good k) :
    ResultsBoth (SinksRelated sinks) (Printer.print c ks) (Printer.print d ks) := by
  have agree := print_agree (besides_kept upheld) (besides_starts start) (voices_asked voices)
  simp only [List.map_map, Function.comp_def, List.map_id'] at agree
  exact alike_both agree

/-- Whole documents are printed side by side, and the sinks are related at the end. -/
theorem render_both {ts : List (Token ι)} (speaks : ∀ t ∈ ts, TokenSpeaks good t) :
    ResultsBoth (fun s t => ∃ a b, sinks a b ∧ s = a.text ∧ t = b.text) (render c ts) (render d ts) := by
  have voices : ∀ k ∈ ts.map Call.emit, CallVoices good k := by
    intro k member
    obtain ⟨t, told, rfl⟩ := List.mem_map.mp member
    exact speaks t told
  have printed := print_both upheld start voices
  unfold render printCalls
  generalize Printer.print c (ts.map Call.emit) = x at printed ⊢
  generalize Printer.print d (ts.map Call.emit) = y at printed ⊢
  cases printed with
  | ok related => exact .ok ⟨_, _, related, rfl, rfl⟩
  | error f => exact .error f

end Documents

end Galley.Layout.SideBySide
