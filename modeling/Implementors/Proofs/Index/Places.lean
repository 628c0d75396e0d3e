import Implementors.Proofs.Index.Synthetic
import Implementors.Proofs.Registry.Content
import Implementors.Proofs.Text.Order

/-! Where the descriptors that an index received stand, and in which order: by registry as they
arrived, then by library in the order of the octets of its name, then as in its list. The explicit
implementors of an index are all explicit descriptors in this order; the synthetic ones are some of
the synthetic descriptors, in this order as well. -/
namespace Implementors

/-- A place among registries: the registry by its number, the library, the place in its list. -/
structure Spot where
  arrival : Nat
  library : String
  place : Nat

def Spot.Before (p q : Spot) : Prop :=
  p.arrival < q.arrival ∨ p.arrival = q.arrival ∧
    (Text.encode p.library < Text.encode q.library ∨ p.library = q.library ∧ p.place < q.place)

theorem Spot.Before.asymm {p q : Spot} (h : p.Before q) : ¬ q.Before p := by
  intro h'
  rw [Spot.Before, Text.encode_lt_iff] at h h'
  rcases h with h | ⟨he, h⟩ <;> rcases h' with h' | ⟨he', h'⟩
  · omega
  · omega
  · omega
  · rcases h with h | ⟨hname, h⟩ <;> rcases h' with h' | ⟨hname', h'⟩
    · exact String.lt_asymm h h'
    · exact String.lt_irrefl q.library (hname' ▸ h)
    · exact String.lt_irrefl q.library (hname ▸ h')
    · omega

namespace Registry

/-- The descriptors of a library that were written out. -/
def explicitsOf (r : Registry) (name : String) : List Descriptor :=
  ((r.library? name).getD []).filter fun d => !d.synthetic

/-- Registries that differ in synthetic descriptors alone. A library that has no others may be
missing from one of them. -/
def SameExplicits (r s : Registry) : Prop := ∀ name, r.explicitsOf name = s.explicitsOf name

end Registry

namespace Index

/-- The descriptor at a place, with its library. -/
def StandsAt (i : Index) (p : Spot) (x : Listed) : Prop :=
  x.library = p.library ∧ ∃ r list, i.received[p.arrival]? = some r ∧
    r.library? p.library = some list ∧ list[p.place]? = some x.descriptor

/-- All descriptors of a kind that an index received, but those of the page's own library, in the
order of their places. -/
def Enumerates (i : Index) (ofKind : Descriptor → Bool) (xs : List Listed) : Prop :=
  ∃ placed : List (Spot × Listed), placed.map Prod.snd = xs ∧
    placed.Pairwise (fun a b => a.1.Before b.1) ∧
    ∀ p x, (p, x) ∈ placed ↔
      i.StandsAt p x ∧ i.ownLibrary ≠ some x.library ∧ ofKind x.descriptor = true

/-- The candidates of a registry with their places. -/
def placedIn (own : Option String) (r : Registry) (arrival : Nat) : List (Spot × Listed) :=
  (r.entries.filter fun e => own != some e.1).flatMap fun e =>
    e.2.zipIdx.map fun d => (⟨arrival, e.1, d.2⟩, ⟨e.1, d.1⟩)

def placed (i : Index) : List (Spot × Listed) :=
  i.received.zipIdx.flatMap fun r => placedIn i.ownLibrary r.1 r.2

theorem map_snd_placedIn (own : Option String) (r : Registry) (arrival : Nat) :
    (placedIn own r arrival).map Prod.snd = candidatesIn own r := by
  rw [placedIn, List.map_flatMap, candidatesIn]
  congr 1
  funext e
  rw [List.map_map]
  have hd : e.2.map (fun d => (⟨e.1, d⟩ : Listed)) =
      (e.2.zipIdx.map Prod.fst).map fun d => ⟨e.1, d⟩ := by rw [List.zipIdx_map_fst]
  rw [hd, List.map_map]
  rfl

theorem map_snd_placed (i : Index) : i.placed.map Prod.snd = i.candidates := by
  rw [placed, List.map_flatMap, candidates]
  simp only [map_snd_placedIn]
  have hr : i.received = i.received.zipIdx.map Prod.fst := by rw [List.zipIdx_map_fst]
  conv_rhs => rw [hr]
  rw [List.flatMap_map]

theorem mem_placedIn {own : Option String} {r : Registry} {arrival : Nat} {p : Spot} {x : Listed} :
    (p, x) ∈ placedIn own r arrival ↔ p.arrival = arrival ∧ own ≠ some x.library ∧
      x.library = p.library ∧ ∃ list, r.library? p.library = some list ∧
        list[p.place]? = some x.descriptor := by
  obtain ⟨k, name, j⟩ := p
  obtain ⟨library, d⟩ := x
  rw [placedIn, List.mem_flatMap]
  constructor
  · rintro ⟨e, he, hd⟩
    obtain ⟨hentry, hown⟩ := List.mem_filter.mp he
    obtain ⟨⟨d', j'⟩, hj, heq⟩ := List.mem_map.mp hd
    cases heq
    exact ⟨rfl, bne_iff_ne.mp hown, rfl, e.2, Registry.mem_entries_iff.mp hentry,
      List.mk_mem_zipIdx_iff_getElem?.mp hj⟩
  · rintro ⟨rfl, hown, rfl, list, hlist, hd⟩
    refine ⟨(library, list), List.mem_filter.mpr ⟨Registry.mem_entries_iff.mpr hlist, ?_⟩, ?_⟩
    · exact bne_iff_ne.mpr hown
    · exact List.mem_map.mpr ⟨(d, j), List.mk_mem_zipIdx_iff_getElem?.mpr hd, rfl⟩

theorem mem_placed {i : Index} {p : Spot} {x : Listed} :
    (p, x) ∈ i.placed ↔ i.StandsAt p x ∧ i.ownLibrary ≠ some x.library := by
  rw [placed, List.mem_flatMap]
  constructor
  · rintro ⟨⟨r, k⟩, hr, hp⟩
    obtain ⟨rfl, hown, hname, list, hlist, hd⟩ := mem_placedIn.mp hp
    exact ⟨⟨hname, r, list, List.mk_mem_zipIdx_iff_getElem?.mp hr, hlist, hd⟩, hown⟩
  · rintro ⟨⟨hname, r, list, hr, hlist, hd⟩, hown⟩
    refine ⟨(r, p.arrival), List.mk_mem_zipIdx_iff_getElem?.mpr hr, ?_⟩
    exact mem_placedIn.mpr ⟨rfl, hown, hname, list, hlist, hd⟩

theorem zipIdx_pairwise {α : Type} (xs : List α) :
    xs.zipIdx.Pairwise (fun a b => a.2 < b.2) := by
  apply List.pairwise_map.mp
  rw [List.zipIdx_map_snd]
  exact List.pairwise_lt_range'

theorem placedIn_pairwise (own : Option String) (r : Registry) (arrival : Nat) :
    (placedIn own r arrival).Pairwise (fun a b => a.1.Before b.1) := by
  rw [placedIn, List.pairwise_flatMap]
  constructor
  · intro e _
    apply List.pairwise_map.mpr
    exact (zipIdx_pairwise e.2).imp fun {a b} hab => .inr ⟨rfl, .inr ⟨rfl, hab⟩⟩
  · apply (r.sorted.filter _).imp
    intro e f hef a ha b hb
    obtain ⟨d, -, rfl⟩ := List.mem_map.mp ha
    obtain ⟨d', -, rfl⟩ := List.mem_map.mp hb
    exact .inr ⟨rfl, .inl (Text.encode_lt_iff.mpr hef)⟩

theorem placed_pairwise (i : Index) : i.placed.Pairwise (fun a b => a.1.Before b.1) := by
  rw [placed, List.pairwise_flatMap]
  constructor
  · intro r _
    exact placedIn_pairwise i.ownLibrary r.1 r.2
  · apply (zipIdx_pairwise i.received).imp
    intro q r hqr a ha b hb
    have hfirst : a.1.arrival = q.2 := (mem_placedIn.mp ha).1
    have hnext : b.1.arrival = r.2 := (mem_placedIn.mp hb).1
    left
    omega

theorem enumerates_candidates (i : Index) (ofKind : Descriptor → Bool) :
    i.Enumerates ofKind (i.candidates.filter fun x => ofKind x.descriptor) := by
  refine ⟨i.placed.filter fun a => ofKind a.2.descriptor, ?_, ?_, ?_⟩
  · rw [← map_snd_placed, List.filter_map]
    rfl
  · exact i.placed_pairwise.filter _
  · intro p x
    rw [List.mem_filter, mem_placed, and_assoc]

/-- There is one such list only. -/
theorem Enumerates.unique {i : Index} {ofKind : Descriptor → Bool} {xs ys : List Listed}
    (hxs : i.Enumerates ofKind xs) (hys : i.Enumerates ofKind ys) : xs = ys := by
  obtain ⟨ps, rfl, hps, hmemp⟩ := hxs
  obtain ⟨qs, rfl, hqs, hmemq⟩ := hys
  have hirrefl : Std.Irrefl fun a b : Spot × Listed => a.1.Before b.1 := ⟨fun _ h => h.asymm h⟩
  have hantisymm : Std.Antisymm fun a b : Spot × Listed => a.1.Before b.1 :=
    ⟨fun _ _ hab hba => absurd hba hab.asymm⟩
  have hsame : ps = qs := by
    refine hps.eq_of_mem_iff hqs fun ⟨p, x⟩ => ?_
    rw [hmemp, hmemq]
  rw [hsame]

theorem enumerates_iff {i : Index} {ofKind : Descriptor → Bool} {xs : List Listed} :
    i.Enumerates ofKind xs ↔ xs = i.candidates.filter fun x => ofKind x.descriptor :=
  ⟨fun h => h.unique (i.enumerates_candidates ofKind), fun h => h ▸ i.enumerates_candidates ofKind⟩

/-- What a library adds to the explicit implementors of an index. -/
def explicitsUnder (own : Option String) (name : String) (list : List Descriptor) : List Listed :=
  if own = some name then [] else (list.filter fun d => !d.synthetic).map fun d => ⟨name, d⟩

theorem explicits_candidatesIn (own : Option String) (r : Registry) :
    ((candidatesIn own r).filter fun x => !x.descriptor.synthetic) =
      r.entries.flatMap fun e => explicitsUnder own e.1 e.2 := by
  rw [candidatesIn]
  induction r.entries with
  | nil => rfl
  | cons e entries ih =>
    rw [List.flatMap_cons, ← ih, List.filter_cons, explicitsUnder]
    by_cases he : own = some e.1
    · rw [if_pos he, if_neg (by simpa using he)]
      rfl
    · rw [if_neg he, if_pos (by simpa using he), List.flatMap_cons, List.filter_append,
        List.filter_map]
      rfl

theorem explicits_candidatesIn_congr {r s : Registry} (h : r.SameExplicits s)
    (own : Option String) :
    ((candidatesIn own r).filter fun x => !x.descriptor.synthetic) =
      (candidatesIn own s).filter fun x => !x.descriptor.synthetic := by
  rw [explicits_candidatesIn, explicits_candidatesIn]
  apply Registry.flatMap_entries_congr
  · intro name
    exact ite_self []
  · intro name
    have hname := h name
    rw [Registry.explicitsOf, Registry.explicitsOf] at hname
    rw [explicitsUnder, explicitsUnder, hname]

theorem explicits_candidates_congr {i j : Index} (hown : j.ownLibrary = i.ownLibrary)
    (h : List.Forall₂ Registry.SameExplicits i.received j.received) :
    (j.candidates.filter fun x => !x.descriptor.synthetic) =
      i.candidates.filter fun x => !x.descriptor.synthetic := by
  rw [candidates, candidates, List.filter_flatMap, List.filter_flatMap, hown]
  generalize i.received = rs at h
  generalize j.received = ss at h
  induction h with
  | nil => rfl
  | cons hfirst _ ih =>
    rw [List.flatMap_cons, List.flatMap_cons, ih, explicits_candidatesIn_congr hfirst]

/-- The explicit implementors of an index are all explicit descriptors that it received, outside
the page's own library, in the order of their places. Neither inlined types nor synthetic
descriptors matter to them. The synthetic implementors are some of the synthetic descriptors, in
the order of their places too. -/
theorem explicit_complete (i : Index) :
    (∀ xs, i.Enumerates (fun d => !d.synthetic) xs ↔ xs = i.lists.implementors) ∧
      (∃ all, i.Enumerates (fun d => d.synthetic) all ∧ i.lists.synthetic.Sublist all) ∧
      ∀ j : Index, j.ownLibrary = i.ownLibrary →
        List.Forall₂ Registry.SameExplicits i.received j.received →
        j.lists.implementors = i.lists.implementors := by
  refine ⟨fun xs => ?_, ?_, ?_⟩
  · rw [lists_implementors]
    exact enumerates_iff
  · exact ⟨i.synthetics, i.enumerates_candidates fun d => d.synthetic, i.lists_synthetic_sublist⟩
  · intro j hown hsame
    rw [lists_implementors, lists_implementors, explicits_candidates_congr hown hsame]

end Index
end Implementors
