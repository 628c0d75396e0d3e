import Implementors.Proofs.Registry.Lookup
import Mathlib.Data.List.Sort

/-! What a registry holds decides it. Registries with the same lists under the same names are
equal, however they were built: the order in which names come does not matter, nor do lists that
are replaced later. -/
namespace Implementors.Registry

theorem lookup_eq_some_iff_mem {entries : List LibraryEntry} (h : (entries.map (·.1)).Nodup)
    {name : String} {list : List Descriptor} :
    entries.lookup name = some list ↔ (name, list) ∈ entries := by
  induction entries with
  | nil => simp
  | cons first entries ih =>
    obtain ⟨hfirst, hrest⟩ := List.nodup_cons.mp h
    rw [lookup_entry, List.mem_cons, Prod.ext_iff]
    by_cases hn : name = first.1
    · have hout : (name, list) ∉ entries := by
        intro hm
        exact hfirst (List.mem_map.mpr ⟨_, hm, hn⟩)
      rw [if_pos hn, Option.some_inj, or_iff_left hout, and_iff_right hn, eq_comm]
    · rw [if_neg hn, ih hrest, or_iff_right fun he => hn he.1]

theorem lookup_isSome_iff_mem {entries : List LibraryEntry} {name : String} :
    (entries.lookup name).isSome ↔ name ∈ entries.map (·.1) := by
  rw [List.lookup_isSome_iff, List.mem_map]
  simp only [beq_iff_eq, @eq_comm _ name]

theorem names_nodup (r : Registry) : (r.entries.map (·.1)).Nodup := by
  refine List.pairwise_map.mpr (r.sorted.imp fun {a b} hlt he => ?_)
  exact String.lt_irrefl a.1 (he ▸ hlt)

theorem mem_entries_iff {r : Registry} {e : LibraryEntry} :
    e ∈ r.entries ↔ r.library? e.1 = some e.2 :=
  (lookup_eq_some_iff_mem r.names_nodup).symm

/-- Lists in ascending order of names are equal if they have the same members. -/
theorem eq_of_mem_iff_of_sorted {α : Type} {ps qs : List (String × α)}
    (hps : ps.Pairwise (·.1 < ·.1)) (hqs : qs.Pairwise (·.1 < ·.1))
    (h : ∀ e, e ∈ ps ↔ e ∈ qs) : ps = qs := by
  have hirrefl : Std.Irrefl fun a b : String × α => a.1 < b.1 := ⟨fun a => String.lt_irrefl a.1⟩
  have hantisymm : Std.Antisymm fun a b : String × α => a.1 < b.1 :=
    ⟨fun _ _ hab hba => absurd hba (String.lt_asymm hab)⟩
  exact hps.eq_of_mem_iff hqs h

/-- Registries that hold the same lists under the same names are equal. -/
theorem eq_of_library?_eq {r s : Registry} (h : ∀ name, r.library? name = s.library? name) :
    r = s := by
  refine Registry.ext (eq_of_mem_iff_of_sorted r.sorted s.sorted fun e => ?_)
  rw [mem_entries_iff, mem_entries_iff, h]

theorem library?_ofList (entries : List LibraryEntry) (name : String) :
    (ofList entries).library? name = lastList name entries := by
  have h := library?_setAll empty entries name
  rwa [library?_empty, Option.or_none] at h

/-- Entries build equal registries exactly when they give each name the same list last. -/
theorem ofList_eq_iff {ps qs : List LibraryEntry} :
    ofList ps = ofList qs ↔ ∀ name, lastList name ps = lastList name qs := by
  simp only [← library?_ofList]
  exact ⟨fun h name => h ▸ rfl, eq_of_library?_eq⟩

theorem lastList_append (name : String) (ps qs : List LibraryEntry) :
    lastList name (ps ++ qs) = (lastList name qs).or (lastList name ps) := by
  rw [lastList, List.reverse_append, List.lookup_append]
  rfl

theorem lastList_perm {ps qs : List LibraryEntry} (h : (ps.map (·.1)).Nodup) (hp : ps.Perm qs)
    (name : String) : lastList name ps = lastList name qs := by
  have hps : (ps.reverse.map (·.1)).Nodup := by
    rwa [List.map_reverse, List.nodup_reverse]
  have hperm : ps.reverse.Perm qs.reverse := (List.reverse_perm ps).trans
    (hp.trans (List.reverse_perm qs).symm)
  have hqs : (qs.reverse.map (·.1)).Nodup := (hperm.map (·.1)).nodup_iff.mp hps
  refine Option.ext fun list => ?_
  rw [lastList, lastList, lookup_eq_some_iff_mem hps, lookup_eq_some_iff_mem hqs, hperm.mem_iff]

theorem lastList_isSome_iff {name : String} {entries : List LibraryEntry} :
    (lastList name entries).isSome ↔ name ∈ entries.map (·.1) := by
  rw [lastList, lookup_isSome_iff_mem, List.map_reverse, List.mem_reverse]

/-- A list that is replaced later leaves no trace. -/
theorem lastList_replaced {e : LibraryEntry} {after : List LibraryEntry}
    (h : e.1 ∈ after.map (·.1)) (before : List LibraryEntry) (name : String) :
    lastList name (before ++ e :: after) = lastList name (before ++ after) := by
  have hafter : name = e.1 → (lastList name after).isSome := by
    rintro rfl
    exact lastList_isSome_iff.mpr h
  rw [lastList_append, lastList_append, lastList_cons, Option.or_assoc]
  by_cases hn : name = e.1
  · obtain ⟨list, hl⟩ := Option.isSome_iff_exists.mp (hafter hn)
    simp [hl]
  · simp [hn]

/-- What each library gives, where it gives anything. -/
def contributions {α : Type} (give : String → List Descriptor → List α)
    (entries : List LibraryEntry) : List (String × List α) :=
  (entries.map fun e => (e.1, give e.1 e.2)).filter fun e => !e.2.isEmpty

theorem flatMap_contributions {α : Type} (give : String → List Descriptor → List α)
    (entries : List LibraryEntry) :
    (contributions give entries).flatMap Prod.snd = entries.flatMap fun e => give e.1 e.2 := by
  induction entries with
  | nil => rfl
  | cons e entries ih =>
    rw [contributions, List.map_cons, List.filter_cons, List.flatMap_cons, ← ih]
    by_cases he : give e.1 e.2 = []
    · rw [he]
      rfl
    · have hkept : (!(give e.1 e.2).isEmpty) = true := by simpa using he
      rw [if_pos hkept]
      rfl

theorem contributions_sorted {α : Type} (give : String → List Descriptor → List α)
    (r : Registry) : (contributions give r.entries).Pairwise (·.1 < ·.1) := by
  apply List.Pairwise.filter
  exact List.pairwise_map.mpr r.sorted

theorem mem_contributions_iff {α : Type} {give : String → List Descriptor → List α}
    (hempty : ∀ name, give name [] = []) {r : Registry} {e : String × List α} :
    e ∈ contributions give r.entries ↔
      e.2 ≠ [] ∧ give e.1 ((r.library? e.1).getD []) = e.2 := by
  have hshown : (!e.2.isEmpty) = true ↔ e.2 ≠ [] := by simp
  rw [contributions, List.mem_filter, hshown, List.mem_map, and_comm]
  apply and_congr_right
  intro hne
  constructor
  · rintro ⟨f, hf, rfl⟩
    rw [mem_entries_iff.mp hf]
    rfl
  · intro h
    cases hl : r.library? e.1 with
    | none =>
      rw [hl, Option.getD_none, hempty] at h
      exact absurd h.symm hne
    | some list =>
      rw [hl, Option.getD_some] at h
      exact ⟨(e.1, list), mem_entries_iff.mpr hl, Prod.ext rfl h⟩

/-- What the libraries of a registry give, one after the other, depends alone on what there is under
each name. A library that gives nothing may as well be missing. -/
theorem flatMap_entries_congr {α : Type} {give : String → List Descriptor → List α}
    (hempty : ∀ name, give name [] = []) {r s : Registry}
    (h : ∀ name, give name ((r.library? name).getD []) = give name ((s.library? name).getD [])) :
    (r.entries.flatMap fun e => give e.1 e.2) = s.entries.flatMap fun e => give e.1 e.2 := by
  have hsame : contributions give r.entries = contributions give s.entries := by
    apply eq_of_mem_iff_of_sorted (contributions_sorted give r) (contributions_sorted give s)
    intro e
    rw [mem_contributions_iff hempty, mem_contributions_iff hempty, h]
  rw [← flatMap_contributions, ← flatMap_contributions, hsame]

end Implementors.Registry
