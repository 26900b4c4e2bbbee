import Galley.Proofs.Exactness
import Galley.Proofs.FrontEnds

/-! Formatting a source again with another layout. Counted exactly, two layouts differ in blanks alone.
A printer that counts in words keeps to that as long as the columns that a source asks for can be counted:
then it does under both layouts what exact counting does. Where levels of indentation run over a word,
one layout fails and the other does not. -/
namespace Galley

/-- A configuration in words, read as numbers. -/
def Layout.Config.numbers (c : Layout.Config Int64) : Layout.Config Int :=
  ⟨c.margin.toInt, c.unit.toInt, c.tabs, c.ansi⟩

/-- Options in words, read as numbers. -/
def Options.numbers (o : Options Int64) : Options Int := { o with layout := o.layout.numbers }

namespace Layout.Reformatting
open PageWriting Extent Documents Twinning FrontEnds
open Words Exactness Bracketing

/-- What a call in words stands for. -/
def CallSpells (k : Call Int64) (j : Call Int) : Prop := k = j.words

variable {c : Config Int} {start p : Printer Int} {before calls more : List (Call Int)} {o o' : Options Int64}

section Numbers

theorem numbers_words (c : Config Int64) : c.numbers.words = c := by
  simp only [Config.numbers, Config.words, Int64.ofInt_toInt]

theorem numbers_fits (c : Config Int64) : Fits c.numbers.margin ∧ Fits c.numbers.unit :=
  ⟨⟨Int64.le_toInt _, Int64.toInt_lt _⟩, ⟨Int64.le_toInt _, Int64.toInt_lt _⟩⟩

theorem numbers_config (o : Options Int64) : o.numbers.config = o.config.numbers := rfl

theorem accepted_numbers {c : Config Int64} {start : Printer Int64} (accepted : Printer.ofConfig c = .ok start) :
    ∃ p, Printer.ofConfig c.numbers = .ok p := by
  obtain ⟨margin, unit⟩ := numbers_fits c
  have same := ofConfig_words margin unit
  rw [numbers_words, accepted] at same
  cases begins : Printer.ofConfig c.numbers with
  | error f =>
    rw [begins] at same
    cases same
  | ok p => exact ⟨p, rfl⟩

theorem accepted_words {start : Printer Int64} (accepted : Printer.ofConfig o.layout = .ok start) :
    ∃ p, Printer.ofConfig o.numbers.config = .ok p := by
  obtain ⟨_, counted⟩ := accepted_numbers accepted
  exact accepted_config (o := o.numbers) counted

theorem kin_words (o : Options Int64) : OptionsAlike CallSpells o o.numbers := by
  obtain ⟨margin, unit⟩ := numbers_fits o.config
  have level : step o = word (step o.numbers) := by
    have same := withDefaults_words margin unit
    rw [numbers_words] at same
    exact congrArg Config.unit same
  have rises (breaks : Breaks) : CallSpells (.groupStart breaks (step o)) (.groupStart breaks (step o.numbers)) :=
    congrArg (Call.groupStart breaks) level
  exact ⟨fun _ => rfl, rfl, rises _, rises _, rfl, congrArg Call.indent level⟩

theorem twins_words {xs : List (Call Int64)} (twins : CallsTwinned CallSpells xs calls) :
    xs = calls.map Call.words := by
  induction twins with
  | append _ _ first second => rw [first, second, List.map_append]
  | group kin _ inner =>
    rw [kin, inner, List.map_append, List.map_cons]
    rfl
  | indented kin _ inner =>
    rw [kin, inner, List.map_append, List.map_cons]
    rfl
  | _ => rfl

end Numbers

section Values

theorem countable_append (countable : Countable c (calls ++ more)) : Countable c calls := by
  induction more using List.reverseRecOn with
  | nil => rwa [List.append_nil] at countable
  | append_singleton more k ih =>
    rw [← List.append_assoc] at countable
    exact ih (countable_concat countable).1

/-- What is emitted between two calls is emitted in words between the same calls. -/
private theorem enclosed_seen {opens closes : Call Int} {e : Doc Int} {d : Doc Int64} {unit : Int}
    (follows : PrinterFollows c start before p) (roomy : PrinterRoomy (loadOf c before) p) (more : opens ≠ .eof)
    (countable : Countable c (before ++ (opens :: Documents.calls unit e ++ [closes])))
    (sound : ∀ {before q}, PrinterFollows c start before q → e.emit q = q.run (Documents.calls unit e))
    (balanced : Balanced (Documents.calls unit e))
    (inner : ∀ {before p}, PrinterFollows c start before p → PrinterRoomy (loadOf c before) p →
      Countable c (before ++ Documents.calls unit e) →
      SeenInWords (loadOf c (before ++ Documents.calls unit e)) (e.emit p) (d.emit p.words)) :
    SeenInWords (loadOf c (before ++ (opens :: Documents.calls unit e ++ [closes])))
      (do (← e.emit (← p.call opens)).call closes)
      (do (← d.emit (← p.words.call opens.words)).call closes.words) := by
  have whole : before ++ (opens :: Documents.calls unit e ++ [closes]) =
      before ++ [opens] ++ Documents.calls unit e ++ [closes] := by simp
  rw [whole] at countable ⊢
  have inside := countable_append countable
  have opened := step_seen follows.accepted follows.ran roomy (countable_append inside)
  refine seen_bind opened fun q called roomy => ?_
  have entered := follows_call follows more called
  refine seen_bind (inner entered roomy inside) fun r emitted roomy => ?_
  rw [sound entered] at emitted
  exact step_seen follows.accepted (follows_run entered balanced emitted).ran roomy countable

/-- A document is emitted in words as it is emitted. -/
theorem emit_seen {e : Doc Int} {d : Doc Int64} (parallel : CallsParallel e d)
    (follows : PrinterFollows c start before p) (roomy : PrinterRoomy (loadOf c before) p)
    (countable : Countable c (before ++ Documents.calls c.withDefaults.unit e)) :
    SeenInWords (loadOf c (before ++ Documents.calls c.withDefaults.unit e)) (e.emit p) (d.emit p.words) := by
  have level : 0 ≤ c.withDefaults.unit := Int.le_of_lt (Safety.accepted_unit follows.accepted)
  induction parallel generalizing before p with
  | nil =>
    rw [Documents.calls, List.append_nil]
    exact seen_ok roomy
  | text | line | softBreak => exact step_seen follows.accepted follows.ran roomy countable
  | @nest e d inside ih =>
    have sound := parallel_sound inside
    have unit : (1 : Int64) * p.words.unit = word (1 * c.withDefaults.unit) := by
      rw [Int64.one_mul, Int.one_mul, ← follows_unit follows]
      rfl
    rw [Doc.emit, Doc.emit, follows_unit follows]
    simp only [↓reduceIte, unit]
    exact enclosed_seen follows roomy (by simp) countable (fun later => emit_eq_run later sound)
      (calls_balanced level sound) ih
  | @group e d inside ih =>
    have sound := parallel_sound inside
    exact enclosed_seen follows roomy (by simp [groupCall]) countable (fun later => emit_eq_run later sound)
      (calls_balanced level sound) ih
  | @concat a b d e first second left right =>
    have sound := parallel_sound first
    rw [Documents.calls, ← List.append_assoc] at countable ⊢
    refine seen_bind (left follows roomy (countable_append countable)) fun q emitted roomy => ?_
    rw [emit_eq_run follows sound] at emitted
    exact right (follows_run follows (calls_balanced level sound) emitted) roomy countable

/-- A document is rendered in words as it is rendered. -/
theorem render_words {e : Doc Int} {d : Doc Int64} (accepted : Printer.ofConfig c = .ok start)
    (margin : Fits c.margin) (unit : Fits c.unit) (parallel : CallsParallel e d)
    (room : loadOf c (Documents.calls c.withDefaults.unit e) ≤ limit) : d.render c.words = e.render c := by
  have level : 0 ≤ c.withDefaults.unit := Int.le_of_lt (Safety.accepted_unit accepted)
  have sound := parallel_sound parallel
  have balanced := calls_balanced level sound
  have begins : PrinterFollows c start [] start := ⟨accepted, rfl, rfl⟩
  have countable : Countable c ([] ++ Documents.calls c.withDefaults.unit e) :=
    ⟨balanced_disciplined balanced, balanced_direct balanced, room⟩
  have emitted := emit_seen parallel begins (start_seen accepted margin unit) countable
  rw [← id_map (e.render c)]
  refine bind_seen (ofConfig_words margin unit) fun begun same => ?_
  rw [accepted] at same
  cases same
  refine bind_seen emitted.same fun p ran => ?_
  have roomy := emitted.roomy p ran
  rw [emit_eq_run begins sound] at ran
  have finished := run_finish accepted ran roomy.toCountsWithin room
  refine bind_seen finished.same fun q _ => ?_
  exact congrArg Except.ok (output_words q)

end Values

section Formats

/-- The columns that calls take and move under some options can be counted in words. -/
def ColumnsCount (o : Options Int64) (calls : Options Int → List (Call Int)) : Prop :=
  loadOf o.numbers.config (calls o.numbers) ≤ limit

instance (o : Options Int64) (calls : Options Int → List (Call Int)) : Decidable (ColumnsCount o calls) :=
  inferInstanceAs (Decidable (_ ≤ _))

/-- What SQL sources ask for. -/
def sourceCalls {ε : Type} (d : Sql.Dialect ε) (srcs : List Text) (o : Options Int) : List (Call Int) :=
  pieceCalls o (d.allPieces srcs).1

/-- What a JSON value asks for, if one was read. -/
def valueCalls (read : Except Text Json.Shape) (o : Options Int) : List (Call Int) :=
  match read with
  | .ok v => Documents.calls (step o) v.doc
  | .error _ => []

/-- What a YAML stream asks for. -/
def streamCalls (lines : List Text) (docs : List Yaml.Document) (o : Options Int) : List (Call Int) :=
  Yaml.Document.allCalls o lines docs true .empty

variable (begins : Printer.ofConfig o.numbers.config = .ok start)
include begins

/-- Calls that can be counted are printed in words as they are printed. -/
theorem printed_words {xs : List (Call Int64)} {q : Printer Int}
    (twins : CallsTwinned CallSpells xs calls) (balanced : Balanced calls)
    (room : loadOf o.numbers.config calls ≤ limit)
    (printed : Printer.print o.numbers.config calls = .ok q) : Printer.print o.config xs = .ok q.words := by
  obtain ⟨margin, unit⟩ := numbers_fits o.config
  have same := print_words begins margin unit balanced room
  rw [numbers_config] at same printed
  rw [numbers_words, ← twins_words twins, printed] at same
  exact same

/-- What differs in layout alone is printed in words with other blanks alone. -/
theorem sealed_words {begun : Printer Int} {xs ys : List (Call Int64)}
    (also : Printer.ofConfig o'.numbers.config = .ok begun)
    (sealed : CallsSealed BothRise calls more) (left : CallsTwinned CallSpells xs calls)
    (right : CallsTwinned CallSpells ys more)
    (room : loadOf o.numbers.config calls ≤ limit) (space : loadOf o'.numbers.config more ≤ limit) :
    ∃ p q, Printer.print o.config xs = .ok p ∧ Printer.print o'.config ys = .ok q ∧
      solid p.output.trimRight = solid q.output.trimRight := by
  have twins := sealed_twins sealed
  obtain ⟨p, q, printed, reprinted, same⟩ := sealed_printed begins also sealed
  refine ⟨p.words, q.words, printed_words begins left (twins_balanced twins) room printed,
    printed_words also right (twins_balanced (twins_symm twins)) space reprinted, ?_⟩
  rw [output_words, output_words]
  exact same

theorem shape_words {v : Json.Shape} (room : loadOf o.numbers.config (Documents.calls (step o.numbers) v.doc) ≤ limit) :
    (v.doc : Doc Int64).render o.config = (v.doc : Doc Int).render o.numbers.config := by
  obtain ⟨margin, unit⟩ := numbers_fits o.config
  have same := render_words begins margin unit (shape_parallel v) room
  rwa [numbers_config, numbers_words] at same

omit begins

/-- Options that differ in layout alone. -/
structure SameWording {ι : Type} (o o' : Options ι) : Prop where
  cases : o.keywordCase = o'.keywordCase
  colors : o.color = o'.color
  comments : o.comments = o'.comments

/-- Layout changes blanks alone. Whatever was read of sources is refused with the same complaint under both layouts, or
formatted to texts that differ in spaces, tabs and newlines: counted exactly, and in words as long as the columns that
are asked for can be counted under both layouts. -/
theorem layouts_differ_in_blanks {ε : Type} (d : Sql.Dialect ε) (message : ε → Text) (srcs : List Text)
    (value : Except Text Json.Shape) (lines : List Text) (docs : List Yaml.Document) (problem : Option Text) :
    (∀ (o o' : Options Int) (start begun : Printer Int), Printer.ofConfig o.layout = .ok start →
      Printer.ofConfig o'.layout = .ok begun → SameWording o o' →
      FormatsAlike (d.format message o srcs) (d.format message o' srcs) ∧
      FormatsAlike (Json.formatRead o value) (Json.formatRead o' value) ∧
      FormatsAlike (Yaml.formatRead o lines docs problem) (Yaml.formatRead o' lines docs problem)) ∧
    ∀ (o o' : Options Int64) (start begun : Printer Int64), Printer.ofConfig o.layout = .ok start →
      Printer.ofConfig o'.layout = .ok begun → SameWording o o' →
      (ColumnsCount o (sourceCalls d srcs) → ColumnsCount o' (sourceCalls d srcs) →
        FormatsAlike (d.format message o srcs) (d.format message o' srcs)) ∧
      (ColumnsCount o (valueCalls value) → ColumnsCount o' (valueCalls value) →
        FormatsAlike (Json.formatRead o value) (Json.formatRead o' value)) ∧
      (ColumnsCount o (streamCalls lines docs) → ColumnsCount o' (streamCalls lines docs) →
        FormatsAlike (Yaml.formatRead o lines docs problem) (Yaml.formatRead o' lines docs problem)) := by
  refine ⟨fun o o' start begun accepted also wording => ?_, fun o o' start begun accepted also wording => ?_⟩
  · obtain ⟨p, begins⟩ := accepted_config accepted
    obtain ⟨q, again⟩ := accepted_config also
    obtain ⟨sql, json, yaml⟩ := formats_alike begins again
      (kin_apart begins again wording.cases wording.colors wording.comments)
    exact ⟨sql ε d message srcs, json value, yaml lines docs problem⟩
  · obtain ⟨p, begins⟩ := accepted_words accepted
    obtain ⟨q, again⟩ := accepted_words also
    have kin : OptionsAlike BothRise o.numbers o'.numbers :=
      kin_apart begins again wording.cases wording.colors wording.comments
    refine ⟨fun room space => ?_, fun room space => ?_, fun room space => ?_⟩
    · obtain ⟨_, _, printed, reprinted, same⟩ := sealed_words begins again (source_sealed kin _)
        (sealed_twins (source_sealed (kin_words o) _)) (sealed_twins (source_sealed (kin_words o') _)) room space
      exact sql_alike d message srcs printed reprinted same
    · refine json_alike value fun v found => ?_
      subst found
      obtain ⟨s, t, rendered, rerendered, same⟩ :=
        parallel_rendered begins again (shape_parallel v) (shape_parallel v)
      exact ⟨s, t, (shape_words begins room).trans rendered, (shape_words again space).trans rerendered, same⟩
    · obtain ⟨_, _, printed, reprinted, same⟩ := sealed_words begins again (documents_sealed kin _ _ _ _)
        (sealed_twins (documents_sealed (kin_words o) _ _ _ _))
        (sealed_twins (documents_sealed (kin_words o') _ _ _ _)) room space
      exact yaml_alike lines docs problem printed reprinted same

/-- Broken at every place with tabs, and on one line: a query, an array in an array, and a list in a
mapping. -/
theorem layouts_differ_in_blanks_nested :
    let tall : Options Int64 := ⟨⟨1, 4, true, false⟩, none, true, false, ⟨0, 9⟩⟩
    let wide : Options Int64 := ⟨⟨80, 2, false, true⟩, none, false, false, ⟨0, 9⟩⟩
    FormatsAlike (Sql.dialect.format Sql.Problem.message tall ["select a, b from t"])
        (Sql.dialect.format Sql.Problem.message wide ["select a, b from t"]) ∧
      FormatsAlike (Json.format tall "[[1]]") (Json.format wide "[[1]]") ∧
      FormatsAlike (Yaml.format tall "a: [b, c]") (Yaml.format wide "a: [b, c]") := by
  intro tall wide
  let value := Json.readShape "[[1]]"
  let lines := Text.lines "a: [b, c]"
  let read := Yaml.Document.read "a: [b, c]"
  obtain ⟨sql, json, yaml⟩ := (layouts_differ_in_blanks Sql.dialect Sql.Problem.message ["select a, b from t"] value
    lines read.1 (read.2.map (·.message))).2 tall wide _ _ rfl rfl ⟨rfl, rfl, rfl⟩
  have query : ColumnsCount tall (sourceCalls Sql.dialect ["select a, b from t"]) ∧
      ColumnsCount wide (sourceCalls Sql.dialect ["select a, b from t"]) := by decide +kernel
  have array : ColumnsCount tall (valueCalls value) ∧ ColumnsCount wide (valueCalls value) := by decide +kernel
  have mapping : ColumnsCount tall (streamCalls lines read.1) ∧ ColumnsCount wide (streamCalls lines read.1) := by
    decide +kernel
  exact ⟨sql query.1 query.2, json array.1 array.2, yaml mapping.1 mapping.2⟩

/-- Two levels of indentation that are half of a word each run over it: the array is formatted with narrow
levels and refused with these. -/
theorem layouts_differ_in_faults :
    let narrow : Options Int64 := ⟨⟨1, 4, true, false⟩, none, false, false, ⟨0, 9⟩⟩
    let deep : Options Int64 := { narrow with layout.unit := 0x4000000000000000 }
    (∃ p, Printer.ofConfig narrow.layout = .ok p) ∧ (∃ p, Printer.ofConfig deep.layout = .ok p) ∧
      Json.format narrow "[[1]]" = .ok "[\n\t[\n\t\t1\n\t]\n]" ∧
      Json.format deep "[[1]]" = .error (.layout (.contract (.indentUnderflow (-0x8000000000000000)))) := by
  refine ⟨⟨_, rfl⟩, ⟨_, rfl⟩, ?_, ?_⟩
  · decide +kernel
  · decide +kernel

end Formats

end Layout.Reformatting

end Galley
