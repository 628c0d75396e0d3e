import Implementors.Descriptor

/-! Registries: which implementors each library contributes for one trait. Libraries stand in
ascending order of their names, each once, so equal registries are equal lists. -/
namespace Implementors

abbrev LibraryEntry := String × List Descriptor

structure Registry where
  entries : List LibraryEntry := []
  sorted : entries.Pairwise (·.1 < ·.1) := by exact List.Pairwise.nil
  deriving DecidableEq

namespace Registry

def empty : Registry := {}

/-- Puts a library where its name belongs; gives the list that it replaces as well. -/
def insertEntry (name : String) (list : List Descriptor) :
    List LibraryEntry → Option (List Descriptor) × List LibraryEntry
  | [] => (none, [(name, list)])
  | entry :: rest =>
    if name < entry.1 then (none, (name, list) :: entry :: rest)
    else if name = entry.1 then (some entry.2, (name, list) :: rest)
    else
      let (replaced, rest) := insertEntry name list rest
      (replaced, entry :: rest)

theorem mem_insertEntry {name : String} {list : List Descriptor} {entries : List LibraryEntry}
    {e : LibraryEntry} (h : e ∈ (insertEntry name list entries).2) :
    e = (name, list) ∨ e ∈ entries := by
  induction entries with
  | nil => simpa [insertEntry] using h
  | cons entry rest ih =>
    simp only [insertEntry] at h
    grind

theorem insertEntry_sorted (name : String) (list : List Descriptor) {entries : List LibraryEntry}
    (h : entries.Pairwise (·.1 < ·.1)) :
    (insertEntry name list entries).2.Pairwise (·.1 < ·.1) := by
  induction entries with
  | nil => simp [insertEntry]
  | cons entry rest ih =>
    obtain ⟨hlow, hrest⟩ := List.pairwise_cons.mp h
    simp only [insertEntry]
    split
    · next hn =>
      refine List.pairwise_cons.mpr ⟨fun e he => ?_, h⟩
      rcases List.mem_cons.mp he with rfl | he
      · exact hn
      · exact String.lt_trans hn (hlow e he)
    · split
      · next hn => exact List.pairwise_cons.mpr ⟨fun e he => hn ▸ hlow e he, hrest⟩
      · next hn hne =>
        refine List.pairwise_cons.mpr ⟨fun e he => ?_, ih hrest⟩
        rcases mem_insertEntry he with rfl | he
        · exact Decidable.byContradiction fun hlt =>
            hne (String.le_antisymm (String.not_lt.mp hlt) (String.not_lt.mp hn))
        · exact hlow e he

/-- Sets the list of a library; gives the list that it replaces as well. -/
def insert (r : Registry) (name : String) (list : List Descriptor) :
    Option (List Descriptor) × Registry :=
  ((insertEntry name list r.entries).1,
    ⟨(insertEntry name list r.entries).2, insertEntry_sorted name list r.sorted⟩)

def set (r : Registry) (name : String) (list : List Descriptor) : Registry := (r.insert name list).2

/-- Entries from left to right: a later list for the same library replaces an earlier one. -/
def ofList (entries : List LibraryEntry) : Registry :=
  entries.foldl (fun r e => r.set e.1 e.2) empty

def library? (r : Registry) (name : String) : Option (List Descriptor) := r.entries.lookup name

/-- The number of libraries. -/
def size (r : Registry) : Nat := r.entries.length

def isEmpty (r : Registry) : Bool := r.entries.isEmpty

/-- The number of descriptors in all libraries. -/
def count (r : Registry) : Nat := (r.entries.flatMap (·.2)).length

@[ext] theorem ext {r s : Registry} (h : r.entries = s.entries) : r = s := by
  cases r
  cases s
  cases h
  rfl

/-- A walk over the libraries of a registry: those still to come. -/
structure Walk where
  toCome : List LibraryEntry
  deriving DecidableEq

def walk (r : Registry) : Walk := ⟨r.entries⟩

namespace Walk

def next? (w : Walk) : Option (LibraryEntry × Walk) :=
  match w.toCome with
  | [] => none
  | e :: rest => some (e, ⟨rest⟩)

def size (w : Walk) : Nat := w.toCome.length

/-- Bounds on the number of libraries still to come. -/
def sizeBounds (w : Walk) : Nat × Nat := (w.size, w.size)

/-- Takes up to `n` libraries. -/
def take : Nat → Walk → List LibraryEntry × Walk
  | 0, w => ([], w)
  | n + 1, w =>
    match w.next? with
    | none => ([], w)
    | some (e, w) =>
      let (es, w) := take n w
      (e :: es, w)

end Walk
end Registry
end Implementors
