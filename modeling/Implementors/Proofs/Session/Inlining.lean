import Implementors.Proofs.Index.Synthetic
import Implementors.Proofs.Session.Growth

/-! When types are inlined does not matter. An index keeps what it gets and what is inlined apart
and puts its lists together when it is asked, and from the inlined types they depend as a set. -/
namespace Implementors

theorem Index.lists_congr {i j : Index} (hown : i.ownLibrary = j.ownLibrary)
    (hinlined : ∀ t, t ∈ i.inlined ↔ t ∈ j.inlined) (hreceived : i.received = j.received) :
    i.lists = j.lists := by
  rw [lists, lists, candidates, candidates, hown, hreceived, assemble_congr hinlined]

namespace Session

open Board (portion)

/-- The types that a step adds to those that the page shows inline. -/
def Step.inlines (sink : Nat) : Step → List String
  | .inline other types => if other = sink then types else []
  | _ => []

def inlinedIn (sink : Nat) (steps : List Step) : List String := steps.flatMap (Step.inlines sink)

/-- The registries that a sink gets in a run, in order. -/
def handedIn (s : Session) (sink : Nat) : List Step → List Registry
  | [] => []
  | t :: ts => portion (s.handedOver t) sink ++ handedIn (s.step t).1 sink ts

theorem inlines_eq_nil {sink : Nat} {t : Step} (ht : t.keepsInlined sink = true) :
    t.inlines sink = [] := by
  cases t with
  | inline other types => exact if_neg (bne_iff_ne.mp ht)
  | _ => rfl

theorem index?_step_inline {s : Session} {sink : Nat} {i : Index} (hi : s.index? sink = some i)
    (types : List String) : (s.step (.inline sink types)).1.index? sink = some (i.inline types) := by
  obtain ⟨label, hk⟩ := index?_eq_some_iff.mp hi
  apply index?_eq_some_iff.mpr
  refine ⟨label, ?_⟩
  rw [step, modifySink, List.getElem?_modify, hk]
  simp only [if_pos]
  rfl

/-- All that a step does to an index: it gets what is handed over and adds what is inlined. -/
theorem index?_step {s : Session} {sink : Nat} {i : Index} (hi : s.index? sink = some i)
    (t : Step) :
    (s.step t).1.index? sink = some
      ⟨i.ownLibrary, i.inlined ++ t.inlines sink,
        i.received ++ portion (s.handedOver t) sink⟩ := by
  by_cases ht : t.keepsInlined sink = true
  · rw [index?_of_gains (s.step_gains_portion ht) hi, Index.foldl_receive, inlines_eq_nil ht,
      List.append_nil]
  · cases t with
    | inline other types =>
      obtain rfl : other = sink := by simpa [Step.keepsInlined] using ht
      have hnone : portion (s.handedOver (.inline other types)) other = [] := rfl
      have hall : (Step.inline other types).inlines other = types := if_pos rfl
      rw [index?_step_inline hi, hnone, hall, List.append_nil]
      rfl
    | _ => exact absurd rfl ht

theorem index?_run {s : Session} {sink : Nat} {i : Index} (hi : s.index? sink = some i)
    (steps : List Step) :
    (s.run steps).index? sink = some
      ⟨i.ownLibrary, i.inlined ++ inlinedIn sink steps,
        i.received ++ s.handedIn sink steps⟩ := by
  induction steps generalizing s i with
  | nil =>
    rw [inlinedIn, handedIn, List.flatMap_nil, List.append_nil, List.append_nil]
    exact hi
  | cons t ts ih =>
    have hrest := ih (index?_step hi t)
    rw [List.append_assoc, List.append_assoc] at hrest
    exact hrest

theorem lists_of_index? {s : Session} {sink : Nat} {i : Index} (hi : s.index? sink = some i) :
    s.lists sink = .lists i.lists := by
  rw [index?] at hi
  rw [lists, hi]

/-- Two runs, each with a new index for a page of the same library, or of none: if the indexes get
the same registries in the same order, and the same types are inlined, then both end with the same
lists, those of an index where all types are inlined first. It does not matter in which order, how
often or how early types are inlined, nor who asks for lists in between. All handles on an index are
its number in the session, so what is delivered or inlined through one clone is there for every
other. -/
theorem inlining_order_irrelevant (own : Option String) (s t : Session) (a b : Nat)
    (ps qs : List Step) (hs : s.index? a = some { ownLibrary := own })
    (ht : t.index? b = some { ownLibrary := own }) (hgot : s.handedIn a ps = t.handedIn b qs)
    (hinlined : ∀ x, x ∈ inlinedIn a ps ↔ x ∈ inlinedIn b qs) :
    let ready : Index := Index.inline { ownLibrary := own } (inlinedIn a ps)
    let filled : Index := (s.handedIn a ps).foldl Index.receive ready
    (s.run ps).lists a = .lists filled.lists ∧ (t.run qs).lists b = .lists filled.lists := by
  intro ready filled
  have hfilled : filled = ⟨own, inlinedIn a ps, s.handedIn a ps⟩ := Index.foldl_receive _ _
  have hps : (s.run ps).index? a = some ⟨own, inlinedIn a ps, s.handedIn a ps⟩ := index?_run hs ps
  have hqs : (t.run qs).index? b = some ⟨own, inlinedIn b qs, t.handedIn b qs⟩ := index?_run ht qs
  have hsame : (⟨own, inlinedIn a ps, s.handedIn a ps⟩ : Index).lists =
      (⟨own, inlinedIn b qs, t.handedIn b qs⟩ : Index).lists :=
    Index.lists_congr rfl hinlined hgot
  rw [hfilled]
  refine ⟨lists_of_index? hps, ?_⟩
  rw [hsame]
  exact lists_of_index? hqs

/-- A board whose sink is bound between two fragments, against an index that is fed by hand. -/
theorem inlining_order_irrelevant_early_and_late :
    let one : Registry := .ofList [("dep", [⟨"x", true, ["A"]⟩, ⟨"y", true, ["B"]⟩])]
    let two : Registry := .ofList [("own", [⟨"o", true, ["C"]⟩]), ("z", [⟨"z", true, ["C"]⟩])]
    let i : Index := { ownLibrary := some "own" }
    let s : Session := ⟨.board {}, [⟨Index.label, .index i⟩]⟩
    let t : Session := ⟨.viewer {}, [⟨"other", .discard⟩, ⟨Index.label, .index i⟩]⟩
    let ps : List Step := [.call (.register one), .inline 0 ["A", "D"], .call (.bind 0), .lists 0,
      .call (.register two)]
    let qs : List Step := [.feed 1 one, .lists 1, .feed 1 two, .feed 0 one, .inline 1 ["D"],
      .inline 1 ["A", "D"]]
    let shown : Lists := ⟨[], [⟨"dep", ⟨"y", true, ["B"]⟩⟩, ⟨"z", ⟨"z", true, ["C"]⟩⟩]⟩
    s.index? 0 = some i ∧ t.index? 1 = some i ∧ s.handedIn 0 ps = t.handedIn 1 qs ∧
      (∀ x, x ∈ inlinedIn 0 ps ↔ x ∈ inlinedIn 1 qs) ∧
      (s.run ps).lists 0 = .lists shown ∧ (t.run qs).lists 1 = .lists shown := by
  intro one two i s t ps qs shown
  have hgot : s.handedIn 0 ps = t.handedIn 1 qs := rfl
  have hinlined : ∀ x, x ∈ inlinedIn 0 ps ↔ x ∈ inlinedIn 1 qs := by
    intro x
    show x ∈ ["A", "D"] ↔ x ∈ ["D", "A", "D"]
    simp only [List.mem_cons, List.not_mem_nil, or_false]
    exact ⟨.inr, fun h => h.elim .inr id⟩
  have hfilled : (s.handedIn 0 ps).foldl Index.receive (Index.inline i (inlinedIn 0 ps)) =
      ⟨some "own", ["A", "D"], [one, two]⟩ := rfl
  have hshown : (⟨some "own", ["A", "D"], [one, two]⟩ : Index).lists = shown := rfl
  have h := inlining_order_irrelevant (some "own") s t 0 1 ps qs rfl rfl hgot hinlined
  dsimp only at h
  rw [hfilled, hshown] at h
  exact ⟨rfl, rfl, hgot, hinlined, h⟩

end Session
end Implementors
