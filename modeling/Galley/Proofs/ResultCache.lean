import Mathlib.Data.List.Induction
import Galley.Web.Server

/-! What a service answers that keeps its results. A result is kept for the query that asked for it, and only
the query is compared when it is used again; what else a request sends is not. So a request gets the
result of one with the same query, its own or an earlier one, and is answered as by a new service if the
earlier ones sent the same form. How many results are kept has no part in it. -/
namespace Galley.Web.ResultCache
open Layout (Columns Fault)

/-- Where results are asked for. -/
def resultPath : Text := "/fmt"

section Requests

variable (ι : Type) [Columns ι]

/-- The answer to a request, and the service after it. A request that fails is not answered and changes
nothing. -/
def serve (s : Server) (r : Request) : Except Fault Reply × Server :=
  match s.answer ι r with
  | .ok (reply, next) => (.ok reply, next)
  | .error f => (.error f, s)

/-- The service after some requests. -/
def after (s : Server) (history : List Request) : Server := history.foldl (fun s r => (serve ι s r).2) s

/-- Every result that is kept is that of a request for its query. -/
def Sourced (history : List Request) (s : Server) : Prop :=
  ∀ entry ∈ s.results.entries,
    ∃ q ∈ history, q.path = resultPath ∧ q.query = entry.1 ∧ q.form.result ι = .ok entry.2

end Requests

variable {ι : Type} [Columns ι] {s : Server} {history : List Request} {r : Request}

section Caches

variable {κ α : Type} [DecidableEq κ] {c : Cache κ α} {k : κ} {a : α} {entry : κ × α}

theorem mem_of_get? (found : c.get? k = some a) : (k, a) ∈ c.entries := by
  have first := List.lookup_eq_some_iff.mp found
  obtain ⟨before, rest, split, _⟩ := first
  rw [split]
  simp

/-- A cache holds nothing but what was put there. -/
theorem mem_put (member : entry ∈ (c.put k a).entries) : entry = (k, a) ∨ entry ∈ c.entries := by
  rcases List.mem_cons.mp (List.mem_of_mem_take member) with new | old
  · exact .inl new
  · exact .inr (List.mem_filter.mp old).1

end Caches

section Answers

/-- A request for a result whose query is known. -/
theorem serve_known {v : Result} (asks : r.path = resultPath) (known : s.results.get? r.query = some v) :
    serve ι s r = (.ok (v.reply r.form), ⟨s.results.put r.query v⟩) := by
  have here : r.path = Text.ofString "/fmt" := asks
  simp only [serve, Server.answer, Server.result, known, here]
  rfl

/-- A request for a result whose query is not known. One that fails leaves nothing behind. -/
theorem serve_new (asks : r.path = resultPath) (new : s.results.get? r.query = none) :
    serve ι s r = match r.form.result ι with
      | .ok v => (.ok (v.reply r.form), ⟨s.results.put r.query v⟩)
      | .error f => (.error f, s) := by
  have here : r.path = Text.ofString "/fmt" := asks
  simp only [serve, Server.answer, Server.result, new, here]
  cases r.form.result ι with
  | ok | error => rfl

/-- What is asked for elsewhere changes no service, and all answer it alike. -/
theorem serve_elsewhere (elsewhere : r.path ≠ resultPath) (s t : Server) :
    (serve ι s r).2 = s ∧ (serve ι s r).1 = (serve ι t r).1 := by
  have there : r.path ≠ Text.ofString "/fmt" := elsewhere
  unfold serve Server.answer
  dsimp only
  by_cases clean : cleanPath r.path ≠ r.path
  · simp only [if_pos clean, and_self]
  · rw [ne_eq, not_not] at clean
    by_cases about : r.path = Text.ofString "/about"
    · simp only [clean, ne_eq, not_true_eq_false, ↓reduceIte, if_neg there, if_pos about, and_self]
    · simp only [clean, ne_eq, not_true_eq_false, ↓reduceIte, if_neg there, if_neg about, and_self]

end Answers

section Histories

theorem sourced_ofCapacity {capacity : Int} (made : Server.ofCapacity capacity = .ok s) : Sourced ι [] s := by
  unfold Server.ofCapacity at made
  split at made
  · cases made
    intro entry member
    cases member
  · cases made

theorem sourced_append (sourced : Sourced ι history s) (r : Request) : Sourced ι (history ++ [r]) s := by
  intro entry member
  obtain ⟨q, asked, rest⟩ := sourced entry member
  exact ⟨q, List.mem_append_left _ asked, rest⟩

/-- The result of a request may be kept for its query. -/
theorem sourced_put {q : Request} {v : Result} (sourced : Sourced ι history s) (asked : q ∈ history)
    (asks : q.path = resultPath) (made : q.form.result ι = .ok v) :
    Sourced ι history ⟨s.results.put q.query v⟩ := by
  intro entry member
  rcases mem_put member with rfl | old
  · exact ⟨q, asked, asks, rfl, made⟩
  · exact sourced entry old

/-- A request for a result is answered with that of a request for the same query. -/
theorem serve_source (sourced : Sourced ι history s) (asks : r.path = resultPath) :
    ∃ q ∈ history ++ [r], q.path = resultPath ∧ q.query = r.query ∧
      (serve ι s r).1 = (q.form.result ι).map (·.reply r.form) := by
  cases found : s.results.get? r.query with
  | some v =>
    obtain ⟨q, asked, place, query, made⟩ := sourced _ (mem_of_get? found)
    refine ⟨q, List.mem_append_left _ asked, place, query, ?_⟩
    rw [serve_known asks found, made]
    rfl
  | none =>
    refine ⟨r, by simp, asks, rfl, ?_⟩
    rw [serve_new asks found]
    cases r.form.result ι with
    | ok | error => rfl

/-- A request leaves a service with results of requests. -/
theorem serve_sourced (sourced : Sourced ι history s) (r : Request) :
    Sourced ι (history ++ [r]) (serve ι s r).2 := by
  have before := sourced_append sourced r
  by_cases asks : r.path = resultPath
  · cases found : s.results.get? r.query with
    | some v =>
      obtain ⟨q, asked, place, query, made⟩ := sourced _ (mem_of_get? found)
      rw [serve_known asks found, ← show q.query = r.query from query]
      exact sourced_put before (List.mem_append_left _ asked) place made
    | none =>
      rw [serve_new asks found]
      cases made : r.form.result ι with
      | ok v => exact sourced_put before (by simp) asks made
      | error f => exact before
  · rw [(serve_elsewhere asks s s).1]
    exact before

theorem after_sourced (sourced : Sourced ι [] s) (history : List Request) :
    Sourced ι history (after ι s history) := by
  induction history using List.reverseRecOn with
  | nil => exact sourced
  | append_singleton history r ih =>
    rw [after, List.foldl_append]
    exact serve_sourced ih r

/-- After any requests, a service answers a request for a result with the result of a request for the same
query, its own or an earlier one. If the earlier ones of that query sent the same form, the answer is the one that a
new service gives, and what is asked for elsewhere is always answered as a new service answers it. -/
theorem replies_by_query (capacity : Int) (fresh : Server) (made : Server.ofCapacity capacity = .ok fresh)
    (history : List Request) (r : Request) :
    (r.path = resultPath → ∃ q ∈ history ++ [r], q.path = resultPath ∧ q.query = r.query ∧
      (serve ι (after ι fresh history) r).1 = (q.form.result ι).map (·.reply r.form)) ∧
    ((∀ q ∈ history, q.path = resultPath → q.query = r.query → q.form = r.form) →
      (serve ι (after ι fresh history) r).1 = (serve ι fresh r).1) ∧
    (r.path ≠ resultPath → (serve ι (after ι fresh history) r).1 = (serve ι fresh r).1) := by
  have start : Sourced ι [] fresh := sourced_ofCapacity made
  have kept := after_sourced start history
  refine ⟨serve_source kept, ?_, fun elsewhere => (serve_elsewhere elsewhere _ _).2⟩
  intro alike
  by_cases asks : r.path = resultPath
  · obtain ⟨q, asked, place, query, answered⟩ := serve_source kept asks
    obtain ⟨own, only, _, _, alone⟩ := serve_source start asks
    have same : q.form = r.form := by
      rcases List.mem_append.mp asked with earlier | last
      · exact alike q earlier place query
      · rw [List.mem_singleton.mp last]
    rw [answered, alone, same, List.mem_singleton.mp only]
  · exact (serve_elsewhere asks _ _).2

/-- With room for one result, the first query is asked for again after another has taken its place. -/
theorem replies_by_query_evicted :
    let get (query : String) : Request := ⟨"GET", "/fmt", query, none⟩
    let history := [get "lang=json&src=1", get "lang=json&src=2&json=1"]
    ∃ fresh, Server.ofCapacity 1 = .ok fresh ∧
      (serve Int64 (after Int64 fresh history) (get "lang=json&src=1")).1 =
        (serve Int64 fresh (get "lang=json&src=1")).1 := by
  intro get history
  refine ⟨⟨.empty 1⟩, rfl, ?_⟩
  exact (replies_by_query 1 ⟨.empty 1⟩ rfl history (get "lang=json&src=1")).2.1 (by decide +kernel)

/-- Two forms under one query: the second is answered with the result of the first. -/
theorem replies_to_another_form :
    let post (form : String) : Request := ⟨"POST", "/fmt", "lang=json", some form⟩
    ∃ fresh, Server.ofCapacity 1 = .ok fresh ∧
      (serve Int64 (after Int64 fresh [post "src=1"]) (post "src=2")).1 = .ok ⟨200, "text/plain", "1"⟩ ∧
      (serve Int64 fresh (post "src=2")).1 = .ok ⟨200, "text/plain", "2"⟩ := by
  intro post
  refine ⟨⟨.empty 1⟩, rfl, ?_, ?_⟩
  · decide +kernel
  · decide +kernel

end Histories

end Galley.Web.ResultCache
