import Implementors.Proofs.Registry.Content
import Implementors.Proofs.Script.RoundTrip
import Implementors.Proofs.Text.Octets

/-! A rendered script is a canonical form: it shows what a registry holds and nothing of how the
registry was built. -/
namespace Implementors.Script

open Registry

theorem render_inj {r s : Registry} : render r = render s ↔ r = s := by
  refine ⟨fun h => ?_, congrArg render⟩
  have hp : parse (render r) = .ok s := h ▸ parse_render s
  exact Except.ok.inj ((parse_render r).symm.trans hp)

/-- The octets of the script for the registry that entries build. -/
def octets (p : TraitPath) (entries : List LibraryEntry) : Octets :=
  Text.encode (Fragment.toScript ⟨p, ofList entries⟩)

theorem octets_eq_iff_ofList {p q : TraitPath} {ps qs : List LibraryEntry} :
    octets p ps = octets q qs ↔ ofList ps = ofList qs :=
  Text.encode_inj.trans render_inj

/-- Entries give the same script exactly when they give each library the same list last. So
distinct libraries may come in any order, and an entry that a later one replaces may be left
out. -/
theorem octets_eq_iff (p q : TraitPath) :
    (∀ ps qs, octets p ps = octets q qs ↔ ∀ name, lastList name ps = lastList name qs) ∧
    (∀ ps qs, (ps.map (·.1)).Nodup → ps.Perm qs → octets p ps = octets q qs) ∧
    ∀ before e after, e.1 ∈ after.map (·.1) →
      octets p (before ++ e :: after) = octets q (before ++ after) := by
  have heq (ps qs : List LibraryEntry) :
      octets p ps = octets q qs ↔ ∀ name, lastList name ps = lastList name qs :=
    octets_eq_iff_ofList.trans ofList_eq_iff
  refine ⟨heq, fun ps qs hn hp => ?_, fun before e after he => ?_⟩
  · exact (heq ps qs).mpr (lastList_perm hn hp)
  · exact (heq _ _).mpr (lastList_replaced he before)

theorem octets_eq_iff_two_libraries :
    (([("a", [⟨"A", false, []⟩]), ("b", [])] : List LibraryEntry).map (·.1)).Nodup ∧
    List.Perm ([("a", [⟨"A", false, []⟩]), ("b", [])] : List LibraryEntry)
      [("b", []), ("a", [⟨"A", false, []⟩])] ∧
    octets ⟨[], "T"⟩ [("a", [⟨"A", false, []⟩]), ("b", [])] =
      octets ⟨[], "U"⟩ [("b", []), ("a", [⟨"A", false, []⟩])] ∧
    "b" ∈ ([("b", []), ("a", [])] : List LibraryEntry).map (·.1) ∧
    octets ⟨[], "T"⟩ ([("a", [])] ++ ("b", [⟨"B", true, ["X"]⟩]) :: [("b", []), ("a", [])]) =
      octets ⟨[], "U"⟩ ([("a", [])] ++ [("b", []), ("a", [])]) := by
  have hn : (([("a", [⟨"A", false, []⟩]), ("b", [])] : List LibraryEntry).map (·.1)).Nodup := by
    decide
  have hp : List.Perm ([("a", [⟨"A", false, []⟩]), ("b", [])] : List LibraryEntry)
      [("b", []), ("a", [⟨"A", false, []⟩])] := by decide
  have hm : "b" ∈ ([("b", []), ("a", [])] : List LibraryEntry).map (·.1) := by decide
  obtain ⟨-, hperm, hreplaced⟩ := octets_eq_iff ⟨[], "T"⟩ ⟨[], "U"⟩
  exact ⟨hn, hp, hperm _ _ hn hp, hm, hreplaced _ _ _ hm⟩

end Implementors.Script
