import Galley.Proofs.Lockstep

/-! What texts say has no part in a layout, only how wide they are and whether there is anything to
write. All versions of a document with other words of the same measure are printed in step: their
printers hold back the same entries, decide alike and leave the same marks, up to the words. So there
is one plan of what is written, with places left open for the words, and every version fills it.
Nothing here rests on how columns are counted: it holds of machine words as well. -/
namespace Galley.Layout.Rewording
open Lockstep

variable {ι : Type} [Columns ι] {V : Type}

/-- Texts that no layout tells apart. -/
structure SameMeasure (c : Config ι) (s u : Text) : Prop where
  width : c.width s = c.width u
  void : s.isEmpty = u.isEmpty

/-- A mark and its versions, which differ at most in the words of some place. -/
inductive MarkEchoes (say : V → Nat → Text) : Mark ι → (V → Mark ι) → Prop where
  | text (lead s : Text) (place : Nat) : MarkEchoes say (.text lead s) fun v => .text lead (say v place)
  | flat (blank : ι) : MarkEchoes say (.flat blank) fun _ => .flat blank
  | taken (lead preBreak : Text) (indent : ι) :
      MarkEchoes say (.taken lead preBreak indent) fun _ => .taken lead preBreak indent
  | start (fits : Bool) : MarkEchoes say (.start fits) fun _ => .start fits
  | stop : MarkEchoes say .stop fun _ => .stop
  | shift (delta : ι) : MarkEchoes say (.shift delta) fun _ => .shift delta

variable {c : Config ι} {say : V → Nat → Text}

section Pages

/-- A page with other marks on it. -/
def remark (page : Page ι) (marks : List (Mark ι)) : Page ι :=
  { page with sink := { page.sink with marks := marks } }

/-- A page and its versions, which are the same but for the words on them. -/
def SamePage (say : V → Nat → Text) (page : Page ι) (versions : V → Page ι) : Prop :=
  ∃ marks, List.Forall₂ (MarkEchoes say) page.sink.marks marks ∧
    versions = fun v => remark page (marks.map (· v))

section Writing

variable {page : Page ι} {marks : List (V → Mark ι)}

variable (echoes : List.Forall₂ (MarkEchoes say) page.sink.marks marks)
include echoes

private theorem writeBreak_agree (b : Break ι) (size : ι) :
    Agree (SamePage say) (page.writeBreak b size) fun v => (remark page (marks.map (· v))).writeBreak b size := by
  unfold Page.writeBreak
  cases framed : page.frames with
  | nil =>
    simp only [remark, framed]
    rfl
  | cons top rest =>
    simp only [remark, framed]
    refine agree_ite (fun _ => ?_) fun _ => ?_
    · exact agree_ok ⟨_ :: marks, .cons (.flat b.blank) echoes, rfl⟩
    · have sinks : Agree
          (fun (s : Sink ι) (t : V → Sink ι) => ∃ m, List.Forall₂ (MarkEchoes say) s.marks m ∧
            t = fun v => { s with marks := m.map (· v) })
          (page.sink.newline b.preBreak (top.indent + b.offset)) fun v =>
          (remark page (marks.map (· v))).sink.newline b.preBreak (top.indent + b.offset) :=
        agree_ite (fun _ => rfl) fun _ => agree_ok ⟨_ :: marks, .cons (.taken _ _ _) echoes, rfl⟩
      refine agree_bind sinks ?_
      rintro sink _ ⟨m, same, rfl⟩
      exact agree_ok ⟨m, same, rfl⟩

private theorem startGroup_agree (g : Group ι) (size : ι) :
    Agree (SamePage say) (page.startGroup g size) fun v => (remark page (marks.map (· v))).startGroup g size := by
  unfold Page.startGroup
  cases framed : page.frames with
  | nil =>
    simp only [remark, framed]
    rfl
  | cons top rest =>
    simp only [remark, framed]
    refine agree_ite (fun _ => ?_) fun _ => ?_
    · exact agree_ok ⟨_ :: marks, .cons (.start true) echoes, rfl⟩
    · refine agree_ite (fun _ => rfl) fun _ => ?_
      exact agree_ok ⟨_ :: marks, .cons (.start false) echoes, rfl⟩

private theorem writeText_same {s : Text} {place : Nat} (measured : ∀ v, SameMeasure c s (say v place)) (size : ι) :
    SamePage say { page with sink := page.sink.write s size } fun v =>
      { remark page (marks.map (· v)) with sink :=
        (remark page (marks.map (· v))).sink.write (say v place) size } := by
  refine ⟨(fun v => .text (page.sink.lead s) (say v place)) :: marks, ?_, ?_⟩
  · cases bare : s.isEmpty <;> simp only [Sink.write, bare] <;> exact .cons (.text _ _ place) echoes
  · funext v
    have void := (measured v).void
    have lead : (remark page (marks.map (· v))).sink.lead (say v place) = page.sink.lead s := by
      simp only [Sink.lead, void]
      rfl
    cases bare : s.isEmpty <;> simp only [Sink.write, ← void, bare, lead] <;> rfl

end Writing

/-- Versions that say other words of the same measure in some places. -/
def rewording (c : Config ι) (say : V → Nat → Text) : Difference V ι where
  texts s words := ∃ place, (∀ v, SameMeasure c s (say v place)) ∧ words = fun v => say v place
  good _ := True
  pages := SamePage say

/-- Pages stay the same but for the words when a token and its versions are written. -/
theorem rewording_kept : PagesKept (rewording c say) where
  space := by
    rintro page _ ⟨marks, _, rfl⟩ v
    rfl
  write := by
    rintro page _ t _ ⟨marks, echoes, rfl⟩ told size
    cases told with
    | text related =>
      obtain ⟨place, measured, rfl⟩ := related
      exact agree_ok (writeText_same echoes measured size)
    | lineBreak _ => exact writeBreak_agree echoes _ size
    | groupStart g => exact startGroup_agree echoes g size
    | groupEnd =>
      simp only [Page.write]
      cases framed : page.frames with
      | nil =>
        simp only [remark, framed]
        rfl
      | cons top rest =>
        simp only [remark, framed]
        exact agree_ok ⟨_ :: marks, .cons .stop echoes, rfl⟩
    | indent delta =>
      simp only [Page.write]
      cases framed : page.frames with
      | nil =>
        simp only [remark, framed]
        rfl
      | cons top rest =>
        simp only [remark, framed]
        refine agree_ite (fun _ => rfl) fun _ => ?_
        exact agree_ok ⟨_ :: marks, .cons (.shift delta) echoes, rfl⟩
    | missing => exact agree_ok ⟨marks, echoes, rfl⟩

/-- One configuration measures words of the same measure alike. -/
theorem rewording_starts (c : Config ι) (say : V → Nat → Text) :
    ConfigVersions (rewording c.withDefaults say) c fun _ => c where
  margin _ := rfl
  unit _ := rfl
  width := by
    rintro s _ ⟨place, measured, rfl⟩ v
    exact (measured v).width.symm
  blank := ⟨[], .nil, rfl⟩

end Pages

section Plans

/-- A piece of what is written, with the words of some place of the document left open. -/
inductive Piece (ι : Type) where
  | word (lead : Text) (place : Nat)
  | flat (blank : ι)
  | taken (lead preBreak : Text) (indent : ι)
  | start (fits : Bool)
  | stop
  | shift (delta : ι)
  deriving DecidableEq, Repr

/-- A piece with its words filled in. -/
def Piece.fill (words : Nat → Text) : Piece ι → Mark ι
  | .word lead place => .text lead (words place)
  | .flat blank => .flat blank
  | .taken lead preBreak indent => .taken lead preBreak indent
  | .start fits => .start fits
  | .stop => .stop
  | .shift delta => .shift delta

/-- The text in some place of a document. -/
def wordAt (ts : List (Token ι)) (place : Nat) : Text :=
  match ts[place]? with
  | some (.text s) => s
  | _ => []

/-- Tokens that are the same, or texts of the same measure. -/
inductive TokensAlike (c : Config ι) : Token ι → Token ι → Prop where
  | text {s u : Text} (measured : SameMeasure c s u) : TokensAlike c (.text s) (.text u)
  | same (t : Token ι) : TokensAlike c t t

omit [Columns ι] in
/-- Marks whose versions differ only in words follow one plan. -/
theorem echoes_plan {marks : List (Mark ι)} {others : List (V → Mark ι)}
    (echoes : List.Forall₂ (MarkEchoes say) marks others) :
    ∃ plan : List (Piece ι), ∀ v, others.map (· v) = plan.map (Piece.fill (say v)) := by
  induction echoes with
  | nil => exact ⟨[], fun _ => rfl⟩
  | @cons _ other _ _ first rest ih =>
    obtain ⟨plan, follows⟩ := ih
    obtain ⟨piece, own⟩ : ∃ piece : Piece ι, ∀ v, other v = piece.fill (say v) := by
      cases first with
      | text lead s place => exact ⟨.word lead place, fun _ => rfl⟩
      | flat blank => exact ⟨.flat blank, fun _ => rfl⟩
      | taken lead preBreak indent => exact ⟨.taken lead preBreak indent, fun _ => rfl⟩
      | start fits => exact ⟨.start fits, fun _ => rfl⟩
      | stop => exact ⟨.stop, fun _ => rfl⟩
      | shift delta => exact ⟨.shift delta, fun _ => rfl⟩
    refine ⟨piece :: plan, fun v => ?_⟩
    rw [List.map_cons, List.map_cons, own, follows]

private theorem alike_word {us : List (Token ι)} {place : Nat} {s : Text} {u : Token ι}
    (here : us[place]? = some u) (alike : TokensAlike c (.text s) u) :
    SameMeasure c s (wordAt us place) ∧ u = .text (wordAt us place) := by
  cases alike with
  | text measured =>
    rw [wordAt, here]
    exact ⟨measured, rfl⟩
  | same =>
    rw [wordAt, here]
    exact ⟨⟨rfl, rfl⟩, rfl⟩

private theorem alike_eq {t u : Token ι} (alike : TokensAlike c t u) (mute : ¬ ∃ s, t = .text s) : u = t := by
  cases alike with
  | text measured => exact absurd ⟨_, rfl⟩ mute
  | same => rfl

/-- A token and what stands in its place in the documents alike. -/
private theorem alike_told {t : Token ι} {place : Nat} {docs : V → List (Token ι)}
    (alike : ∀ v, ∃ u, (docs v)[place]? = some u ∧ TokensAlike c t u) :
    ∃ versions, (∀ v, (docs v)[place]? = some (versions v)) ∧
      TokenVersions (rewording c fun v => wordAt (docs v)) t versions := by
  choose versions here alike using alike
  refine ⟨versions, here, ?_⟩
  by_cases spoken : ∃ s, t = .text s
  · obtain ⟨s, rfl⟩ := spoken
    have measured (v : V) := alike_word (here v) (alike v)
    rw [funext fun v => (measured v).2]
    exact .text ⟨place, fun v => (measured v).1, rfl⟩
  · rw [funext fun v => alike_eq (alike v) spoken]
    cases t with
    | text s => exact absurd ⟨s, rfl⟩ spoken
    | lineBreak b => exact .lineBreak trivial
    | groupStart g => exact .groupStart g
    | groupEnd => exact .groupEnd
    | indent delta => exact .indent delta
    | missing => exact .missing

/-- Standard values leave measures as they are. -/
private theorem alike_withDefaults {ts us : List (Token ι)} (alike : List.Forall₂ (TokensAlike c) ts us) :
    List.Forall₂ (TokensAlike c.withDefaults) ts us := by
  refine alike.imp fun t u pair => ?_
  cases pair with
  | text measured => exact .text ⟨measured.width, measured.void⟩
  | same => exact .same t

/-- The documents alike to a given one are its versions. -/
theorem alike_versions (c : Config ι) (ts : List (Token ι)) :
    ∃ others : List ({ us // List.Forall₂ (TokensAlike c) ts us } → Token ι),
      List.Forall₂ (TokenVersions (rewording c fun v => wordAt v.1)) ts others ∧ ∀ v, v.1 = others.map (· v) := by
  have each (i : Fin ts.length) (v : { us // List.Forall₂ (TokensAlike c) ts us }) :
      ∃ u, v.1[i.1]? = some u ∧ TokensAlike c ts[i] u := by
    have inside : i < v.1.length := v.2.length_eq ▸ i.2
    exact ⟨_, List.getElem?_eq_getElem inside, v.2.get i.2 inside⟩
  choose versions here rewords using fun i => alike_told (each i)
  refine ⟨List.ofFn versions, ?_, fun v => ?_⟩
  · rw [List.forall₂_iff_get]
    refine ⟨(List.length_ofFn).symm, fun i left right => ?_⟩
    simpa using rewords ⟨i, left⟩
  · refine List.ext_getElem? fun i => ?_
    rw [List.getElem?_map, List.getElem?_ofFn]
    by_cases inside : i < ts.length
    · simpa [inside] using here ⟨i, inside⟩ v
    · simp [inside, ← v.2.length_eq]

/-- A layout depends on texts only through their widths, and on whether they are empty. All documents
that differ from a given one only in texts of the same measure are refused with one fault, or they are
all written by one plan: every break is decided alike and the same blanks stand before each text, and
the outputs differ in that each has its own text in each place. -/
theorem layout_by_measure (c : Config ι) (ts : List (Token ι)) :
    (∃ f, ∀ us, List.Forall₂ (TokensAlike c) ts us → render c us = .error f) ∨
      ∃ plan : List (Piece ι), ∀ us, List.Forall₂ (TokensAlike c) ts us →
        ∃ p, Printer.print c (us.map Call.emit) = .ok p ∧
          p.page.sink.marks.reverse = plan.map (Piece.fill (wordAt us)) ∧
          render c us = .ok ((plan.map (Piece.fill (wordAt us))).flatMap Mark.spelling) := by
  obtain ⟨others, told, versions⟩ := alike_versions c.withDefaults ts
  have calls : List.Forall₂ (CallVersions (rewording c.withDefaults fun v => wordAt v.1)) (ts.map Call.emit)
      (others.map fun versions v => Call.emit (versions v)) := by
    rw [List.forall₂_map_left_iff, List.forall₂_map_right_iff]
    exact told.imp fun _ _ => .emit
  have agree := print_agree rewording_kept (rewording_starts c _) calls
  have same (v : { us // List.Forall₂ (TokensAlike c.withDefaults) ts us }) :
      (others.map fun versions v => Call.emit (versions v)).map (· v) = v.1.map Call.emit := by
    rw [versions v, List.map_map, List.map_map]
    rfl
  simp only [same] at agree
  unfold render printCalls
  cases printed : Printer.print c (ts.map Call.emit) with
  | error f =>
    rw [printed] at agree
    refine .inl ⟨f, fun us alike => ?_⟩
    rw [show Printer.print c (us.map Call.emit) = .error f from congrFun agree ⟨us, alike_withDefaults alike⟩]
    rfl
  | ok p =>
    rw [printed] at agree
    obtain ⟨q, all, _, _, _, _, _, _, ⟨marks, echoes, rfl⟩, same⟩ := agree
    obtain ⟨plan, follows⟩ := echoes_plan (List.rel_reverse echoes)
    refine .inr ⟨plan, fun us alike => ?_⟩
    have version : ∃ v : { us // List.Forall₂ (TokensAlike c.withDefaults) ts us }, v.1 = us :=
      ⟨⟨us, alike_withDefaults alike⟩, rfl⟩
    obtain ⟨v, rfl⟩ := version
    have wrote : (q v).page.sink.marks.reverse = plan.map (Piece.fill (wordAt v.1)) := by
      rw [same, ← follows v, List.map_reverse]
      rfl
    have done : Printer.print c (v.1.map Call.emit) = .ok (q v) := congrFun all v
    refine ⟨q v, done, wrote, ?_⟩
    rw [done, ← wrote]
    rfl

/-- A group that does not fit, counted in machine words. With two wide letters in the place of four
narrow ones it is written by the same plan. -/
theorem layout_by_measure_wide_letters :
    let c : Config Int64 := ⟨6, 2, false, false⟩
    let doc (s u : Text) : List (Token Int64) :=
      [.groupStart ⟨.consistent, 2, false⟩, .text s, .lineBreak ⟨.space, 1, 0, []⟩, .text u, .groupEnd]
    ∃ plan : List (Piece Int64), ∀ us ∈ [doc "aaaa" "bb", doc "日本" "cc"],
      List.Forall₂ (TokensAlike c) (doc "aaaa" "bb") us ∧
        render c us = .ok ((plan.map (Piece.fill (wordAt us))).flatMap Mark.spelling) := by
  intro c doc
  have alike : ∀ us ∈ [doc "aaaa" "bb", doc "日本" "cc"], List.Forall₂ (TokensAlike c) (doc "aaaa" "bb") us := by
    have letters : SameMeasure c "aaaa" "日本" := ⟨by decide +kernel, by decide⟩
    have others : SameMeasure c "bb" "cc" := ⟨by decide +kernel, by decide⟩
    rintro us (_ | ⟨_, _ | ⟨_, ⟨⟩⟩⟩)
    · exact List.forall₂_same.mpr fun t _ => .same t
    · exact .cons (.same _) (.cons (.text letters) (.cons (.same _) (.cons (.text others) (.cons (.same _) .nil))))
  have written : (render c (doc "aaaa" "bb")).toOption = some ("aaaa\n  bb" : Text) := by decide +kernel
  rcases layout_by_measure c (doc "aaaa" "bb") with ⟨f, refused⟩ | ⟨plan, writes⟩
  · rw [refused _ (alike _ (.head _))] at written
    cases written
  · refine ⟨plan, fun us among => ⟨alike us among, ?_⟩⟩
    obtain ⟨_, _, _, rendered⟩ := writes us (alike us among)
    exact rendered

end Plans

end Galley.Layout.Rewording
