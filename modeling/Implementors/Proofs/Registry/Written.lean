import Implementors.Proofs.Descriptor.Written
import Implementors.Proofs.Registry.Lookup

/-! Registries and descriptors written as JSON read back, in every layout that adds nothing but
blanks. -/
namespace Implementors.Registry

open Json

variable {layout : Layout}

/-- The members of a written object set its entries one after the other. -/
theorem folds_entries (hl : layout.Plain) (r : Registry) (entries : List LibraryEntry) :
    Layout.Folds layout readEntry r (entries.map fun e => (e.1, writeList layout 1 e.2))
      (r.setAll entries) := by
  induction entries generalizing r with
  | nil => exact .nil r
  | cons e entries ih =>
    refine .cons (c := r.set e.1 e.2) (fun rest => ?_) (ih (r.set e.1 e.2))
    have hlist := Layout.run_afterColon hl (takes_writeList hl 1 e.2) rest
    simp only [readEntry, Reader.map, hlist]

theorem takes_writeEntries (hl : layout.Plain) (entries : List LibraryEntry) :
    reader.Takes (writeEntries layout entries) (empty.setAll entries) := by
  obtain ⟨text, ht, hm⟩ := Layout.object_eq hl 0 (folds_entries hl empty entries)
  have hw : writeEntries layout entries = '{' :: text := by
    rw [writeEntries, ← ht, List.map_map]
    rfl
  exact hw ▸ Reader.takes_object hm

theorem ofJson_write (hl : layout.Plain) (r : Registry) :
    ofJson (String.ofList (r.write layout)) = .ok r := by
  have h := (takes_writeEntries hl r.entries).readAll
  rw [setAll_entries] at h
  rwa [ofJson, String.toList_ofList]

/-- A registry reads back from its compact text and from its pretty text, whatever its names, texts
and types are, and a single descriptor from its compact text. -/
theorem json_round_trip :
    (∀ r : Registry, ofJson r.toJson = .ok r ∧ ofJson r.toPrettyJson = .ok r) ∧
      ∀ d : Descriptor, Descriptor.ofJson d.toJson = .ok d :=
  ⟨fun r => ⟨ofJson_write Layout.plain_compact r, ofJson_write Layout.plain_pretty r⟩,
    Descriptor.ofJson_toJson⟩

end Implementors.Registry
