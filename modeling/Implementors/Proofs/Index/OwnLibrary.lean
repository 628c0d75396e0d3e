import Implementors.Proofs.Index.Synthetic
import Implementors.Proofs.Registry.Content

/-! The library that a page belongs to. What registries hold under its name has no effect on the
lists of the page's index: they are those of the registries without it. -/
namespace Implementors

namespace Registry

/-- A registry with one library taken out. -/
def without (r : Registry) (name : String) : Registry :=
  ⟨r.entries.filter fun e => e.1 != name, r.sorted.filter _⟩

theorem library?_without (r : Registry) (name other : String) :
    (r.without name).library? other = if other = name then none else r.library? other := by
  show (r.entries.filter fun e => e.1 != name).lookup other = _
  rw [library?]
  induction r.entries with
  | nil => exact (ite_self none).symm
  | cons e entries ih =>
    rw [List.filter_cons, lookup_entry]
    by_cases he : e.1 = name
    · rw [if_neg (by simpa using he), ih, he]
      by_cases h : other = name <;> simp only [h, if_true, if_false]
    · rw [if_pos (by simpa using he), lookup_entry, ih]
      by_cases h : other = e.1
      · rw [if_pos h, if_pos h, if_neg (h ▸ he)]
      · rw [if_neg h, if_neg h]

/-- Registries that may differ in one library, and in no other. -/
def AgreeOutside (name : String) (r s : Registry) : Prop :=
  ∀ other, other ≠ name → r.library? other = s.library? other

theorem AgreeOutside.without_eq {name : String} {r s : Registry} (h : AgreeOutside name r s) :
    r.without name = s.without name := by
  apply eq_of_library?_eq
  intro other
  rw [library?_without, library?_without]
  by_cases hn : other = name
  · rw [if_pos hn, if_pos hn]
  · rw [if_neg hn, if_neg hn, h other hn]

end Registry

namespace Index

theorem candidatesIn_own (c : String) (r : Registry) :
    candidatesIn (some c) r = candidatesIn none (r.without c) := by
  have hown : ∀ e : LibraryEntry, (some c != some e.1) = (e.1 != c) := by
    intro e
    rw [Bool.eq_iff_iff, bne_iff_ne, bne_iff_ne, ne_comm, Ne, Option.some_inj]
  have hall : ∀ e ∈ (r.without c).entries, (none != some e.1) = true := fun _ _ => rfl
  rw [candidatesIn, candidatesIn, List.filter_eq_self.mpr hall]
  simp only [hown]
  rfl

theorem candidates_own (c : String) (types : List String) (rs : List Registry) :
    (⟨some c, types, rs⟩ : Index).candidates =
      (⟨none, types, rs.map (·.without c)⟩ : Index).candidates := by
  have hall : candidatesIn (some c) = fun r => candidatesIn none (r.without c) :=
    funext (candidatesIn_own c)
  rw [candidates, candidates, List.flatMap_map, hall]

theorem library_ne_own {c : String} {r : Registry} {x : Listed}
    (h : x ∈ candidatesIn (some c) r) : x.library ≠ c := by
  obtain ⟨e, he, hd⟩ := List.mem_flatMap.mp h
  obtain ⟨d, -, rfl⟩ := List.mem_map.mp hd
  rintro rfl
  exact bne_iff_ne.mp (List.mem_filter.mp he).2 rfl

/-- Whatever registries hold under the name of the page's own library, the lists are those of an
index that belongs to no library and received the registries without it. So they are the same if
the registries differ in this library alone: it hides nothing that other libraries contribute, and
nothing of it is listed. -/
theorem own_library_unseen (c : String) (types : List String) (rs : List Registry) :
    let page : List Registry → Index := fun rs => ⟨some c, types, rs⟩
    (page rs).lists = (⟨none, types, rs.map (·.without c)⟩ : Index).lists ∧
      (∀ ss, List.Forall₂ (Registry.AgreeOutside c) rs ss → (page ss).lists = (page rs).lists) ∧
      ∀ x ∈ (page rs).lists.implementors ++ (page rs).lists.synthetic, x.library ≠ c := by
  intro page
  have hlists (rs : List Registry) :
      (page rs).lists = (⟨none, types, rs.map (·.without c)⟩ : Index).lists := by
    rw [lists, lists, candidates_own]
  refine ⟨hlists rs, ?_, ?_⟩
  · intro ss h
    have hwithout : rs.map (·.without c) = ss.map (·.without c) := by
      induction h with
      | nil => rfl
      | cons hfirst _ ih => rw [List.map_cons, List.map_cons, hfirst.without_eq, ih]
    rw [hlists, hlists, hwithout]
  · intro x hx
    obtain ⟨r, -, hr⟩ := List.mem_flatMap.mp (mem_candidates_of_listed hx)
    exact library_ne_own hr

end Index
end Implementors
