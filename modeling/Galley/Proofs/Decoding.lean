import Galley.Yaml.Node

/-! The trees of YAML sources. Whatever events a source has, the documents that are made from them hold scalars,
references, sequences and mappings, and no document inside another: comments move from one node to another while a
tree is made, and nothing else of it changes. -/
namespace Galley.Yaml

namespace Node

mutual

/-- A tree without documents in it. -/
def decoded : Node → Bool
  | .scalar .. | .reference .. => true
  | .sequence _ _ items => decodedItems items
  | .mapping _ _ pairs => decodedPairs pairs
  | .document .. => false

/-- Items without documents in them. -/
def decodedItems : List Node → Bool
  | [] => true
  | n :: rest => n.decoded && decodedItems rest

/-- Pairs without documents in them. -/
def decodedPairs : List (Node × Node) → Bool
  | [] => true
  | (k, v) :: rest => k.decoded && v.decoded && decodedPairs rest

end

theorem decodedItems_all (items : List Node) : decodedItems items = items.all decoded := by
  induction items with
  | nil => rfl
  | cons n rest ih => rw [decodedItems, ih, List.all_cons]

theorem decodedPairs_all (pairs : List (Node × Node)) :
    decodedPairs pairs = pairs.all fun p => p.1.decoded && p.2.decoded := by
  induction pairs with
  | nil => rfl
  | cons p rest ih => rw [decodedPairs, ih, List.all_cons]

@[simp] theorem decoded_withNotes (f : Notes → Notes) (n : Node) : (n.withNotes f).decoded = n.decoded := by
  cases n <;> simp only [withNotes, decoded]

@[simp] theorem decoded_withFoot (n : Node) (t : Text) : (n.withFoot t).decoded = n.decoded :=
  decoded_withNotes _ n

end Node

/-- A document whose tree has no documents in it. -/
def Document.decoded (d : Document) : Bool := d.root.all Node.decoded

namespace Decoding
open Node Build

variable {α β : Type} {n : Nat} {pairs : List (Node × Node)} {k v : Node}

theorem footLast_decoded (t : Text) (pairs : List (Node × Node)) :
    decodedPairs (footLast t pairs) = decodedPairs pairs := by
  fun_induction footLast t pairs with
  | case1 => rfl
  | case2 k v => simp only [decodedPairs, decoded_withFoot]
  | case3 p rest _ ih => simp only [decodedPairs, ih]

theorem addPair_decoded (flow : Bool) (before : decodedPairs pairs = true) (key : k.decoded = true)
    (value : v.decoded = true) : decodedPairs (addPair flow pairs k v) = true := by
  unfold addPair
  split
  next others own moved =>
    have front : decodedPairs others = true ∧ own.decoded = true := by
      split at moved
      · cases moved
        exact ⟨by rw [footLast_decoded, before], by rw [decoded_withFoot, key]⟩
      · cases moved
        exact ⟨before, key⟩
    split
    next first second kept =>
      have back : first.decoded = true ∧ second.decoded = true := by
        split at kept
        · cases kept
          exact ⟨by rw [decoded_withFoot, front.2], by rw [decoded_withFoot, value]⟩
        · cases kept
          exact ⟨front.2, value⟩
      rw [decodedPairs_all, List.all_append, ← decodedPairs_all, front.1]
      simp [back]

theorem closeMapping_decoded (i : Info) (flow : Bool) (closing : Notes) (before : decodedPairs pairs = true) :
    (closeMapping i flow pairs closing).decoded = true := by
  unfold closeMapping
  dsimp only
  split
  · rw [decoded, footLast_decoded, before]
  · rw [decoded, before]

/-- Whatever is made has a property. -/
def Makes (b : Build α) (good : α → Prop) : Prop := ∀ f a f', b f = .ok (a, f') → good a

theorem makes_pure {good : α → Prop} {a : α} (fine : good a) : Makes (pure a) good := by
  intro f b f' made
  cases made
  exact fine

theorem makes_throw {good : α → Prop} (p : Problem) : Makes (throw p) good := by
  intro f b f' made
  cases made

theorem makes_bind {mid : α → Prop} {good : β → Prop} {b : Build α} {g : α → Build β} (first : Makes b mid)
    (rest : ∀ a, mid a → Makes (g a) good) : Makes (b >>= g) good := by
  intro f c f' made
  cases ran : b f with
  | error p =>
    simp only [bind, StateT.bind, Except.bind, ran] at made
    cases made
  | ok r =>
    simp only [bind, StateT.bind, Except.bind, ran] at made
    exact rest r.1 (first f r.1 r.2 ran) _ _ _ made

/-- What comes after a step whose result may be anything. -/
theorem makes_after {good : β → Prop} {b : Build α} {g : α → Build β} (rest : ∀ a, Makes (g a) good) :
    Makes (b >>= g) good := by
  have first : Makes b fun _ => True := fun _ _ _ _ => trivial
  exact makes_bind first fun a _ => rest a

/-- A node that was made, if any was, is a tree without documents. -/
abbrev Plain (found : Option Node) : Prop := found.all Node.decoded = true

mutual

theorem node_makes : ∀ n, Makes (Build.node n) Plain
  | 0 => makes_pure rfl
  | n + 1 => by
    rw [Build.node]
    refine makes_after fun found => ?_
    cases found with
    | none => exact makes_pure rfl
    | some e =>
      refine makes_after fun _ => ?_
      split
      · refine makes_after fun f => ?_
        split
        · exact makes_pure rfl
        · exact makes_throw _
      · exact makes_after fun _ => makes_pure rfl
      · exact makes_after fun _ => sequence_makes n _ _ rfl
      · exact makes_after fun _ => mapping_makes n _ _ rfl
      · exact makes_pure rfl

theorem sequence_makes : ∀ n i flow {items}, decodedItems items = true → Makes (Build.sequence n i flow items) Plain
  | 0, i, flow, items, before => makes_pure rfl
  | n + 1, i, flow, items, before => by
    rw [Build.sequence]
    refine makes_after fun found => ?_
    cases found with
    | none => exact makes_pure rfl
    | some e =>
      dsimp only
      split
      · refine makes_after fun _ => makes_pure ?_
        rw [Plain, Option.all_some, decoded, decodedItems_all, List.all_reverse, ← decodedItems_all, before]
      · refine makes_bind (node_makes n) fun found plain => ?_
        cases found with
        | none => exact makes_pure rfl
        | some item => exact sequence_makes n i flow (by rw [decodedItems, before, Bool.and_true]; exact plain)

theorem mapping_makes : ∀ n i flow {pairs}, decodedPairs pairs = true → Makes (Build.mapping n i flow pairs) Plain
  | 0, i, flow, pairs, before => makes_pure rfl
  | n + 1, i, flow, pairs, before => by
    rw [Build.mapping]
    refine makes_after fun found => ?_
    cases found with
    | none => exact makes_pure rfl
    | some e =>
      dsimp only
      split
      · exact makes_after fun _ => makes_pure (closeMapping_decoded i flow e.notes before)
      · refine makes_bind (node_makes n) fun found key => ?_
        cases found with
        | none => exact makes_pure rfl
        | some k =>
          refine makes_bind (node_makes n) fun found value => ?_
          cases found with
          | none => exact makes_pure rfl
          | some v => exact mapping_makes n i flow (addPair_decoded flow before key value)

end

theorem document_makes : Makes Build.document fun found => found.all Document.decoded = true := by
  unfold Build.document
  refine makes_after fun found => ?_
  cases found with
  | none => exact makes_pure rfl
  | some e =>
    dsimp only
    split
    · exact makes_pure rfl
    · refine makes_after fun _ => makes_after fun f => makes_bind (node_makes _) fun root plain => ?_
      refine makes_after fun found => ?_
      cases found with
      | none => exact makes_pure rfl
      | some close => exact makes_after fun _ => makes_pure plain

theorem documents_decoded (n : Nat) (f : Feed) : ∀ d ∈ (Build.documents n f).1, d.decoded = true := by
  induction n generalizing f with
  | zero => exact fun _ member => absurd member List.not_mem_nil
  | succ n ih =>
    rw [Build.documents]
    split
    · exact fun _ member => absurd member List.not_mem_nil
    · exact fun _ member => absurd member List.not_mem_nil
    · next d f' made =>
      have first := document_makes f _ _ made
      exact List.forall_mem_cons.mpr ⟨first, ih f'⟩

/-- The documents of a source have no documents in them. -/
theorem read_decoded (src : Text) : ∀ d ∈ (Document.read src).1, d.decoded = true := documents_decoded _ _

end Decoding

end Galley.Yaml
