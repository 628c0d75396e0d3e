import Implementors.Registry

/-! Looking libraries up. What a registry holds under a name is the list that was set there last,
and its entries, set one after the other, build it again. -/
namespace Implementors.Registry

theorem lookup_entry (name : String) (e : LibraryEntry) (entries : List LibraryEntry) :
    (e :: entries).lookup name = if name = e.1 then some e.2 else entries.lookup name := by
  obtain ⟨key, list⟩ := e
  by_cases h : name = key
  · rw [h, List.lookup_cons_self, if_pos rfl]
  · rw [List.lookup_cons, beq_false_of_ne h, if_neg h]

theorem lookup_insertEntry (name other : String) (list : List Descriptor)
    (entries : List LibraryEntry) :
    (insertEntry name list entries).2.lookup other =
      if other = name then some list else entries.lookup other := by
  induction entries with
  | nil => exact lookup_entry other (name, list) []
  | cons entry rest ih =>
    simp only [insertEntry]
    split
    · exact lookup_entry other (name, list) (entry :: rest)
    · split
      · next hn =>
        rw [lookup_entry, lookup_entry, ← hn]
        by_cases h : other = name <;> simp [h]
      · next hn =>
        rw [lookup_entry, lookup_entry, ih]
        by_cases he : other = entry.1
        · have hne : other ≠ name := fun h => hn (h ▸ he)
          rw [if_pos he, if_pos he, if_neg hne]
        · rw [if_neg he, if_neg he]

@[simp] theorem library?_empty (name : String) : empty.library? name = none := rfl

theorem library?_set (r : Registry) (name other : String) (list : List Descriptor) :
    (r.set name list).library? other = if other = name then some list else r.library? other :=
  lookup_insertEntry name other list r.entries

theorem mem_entries_set {r : Registry} {name : String} {list : List Descriptor} {e : LibraryEntry}
    (h : e ∈ (r.set name list).entries) : e = (name, list) ∨ e ∈ r.entries :=
  mem_insertEntry h

/-- The list that comes last under a name. -/
def lastList (name : String) (entries : List LibraryEntry) : Option (List Descriptor) :=
  entries.reverse.lookup name

theorem lastList_cons (name : String) (e : LibraryEntry) (entries : List LibraryEntry) :
    lastList name (e :: entries) =
      (lastList name entries).or (if name = e.1 then some e.2 else none) := by
  rw [lastList, List.reverse_cons, List.lookup_append, lookup_entry]
  rfl

/-- Sets entries from left to right. -/
def setAll (r : Registry) (entries : List LibraryEntry) : Registry :=
  entries.foldl (fun r e => r.set e.1 e.2) r

theorem library?_setAll (r : Registry) (entries : List LibraryEntry) (name : String) :
    (r.setAll entries).library? name = (lastList name entries).or (r.library? name) := by
  induction entries generalizing r with
  | nil => rfl
  | cons e entries ih =>
    rw [lastList_cons, Option.or_assoc]
    change ((r.set e.1 e.2).setAll entries).library? name = _
    rw [ih, library?_set]
    by_cases h : name = e.1 <;> simp [h]

theorem mem_entries_setAll {r : Registry} {entries : List LibraryEntry} {e : LibraryEntry}
    (h : e ∈ (r.setAll entries).entries) : e ∈ entries ∨ e ∈ r.entries := by
  induction entries generalizing r with
  | nil => exact .inr h
  | cons first entries ih =>
    rcases ih (r := r.set first.1 first.2) h with he | he
    · exact .inl (List.mem_cons_of_mem _ he)
    · rcases mem_entries_set he with rfl | he
      · exact .inl List.mem_cons_self
      · exact .inr he

/-- A library behind all others is put at the end. -/
theorem insertEntry_append (name : String) (list : List Descriptor) (entries : List LibraryEntry)
    (h : ∀ e ∈ entries, e.1 < name) :
    insertEntry name list entries = (none, entries ++ [(name, list)]) := by
  induction entries with
  | nil => rfl
  | cons entry rest ih =>
    obtain ⟨hentry, hrest⟩ := List.forall_mem_cons.mp h
    have hne : name ≠ entry.1 := fun he => String.lt_irrefl _ (he ▸ hentry)
    rw [insertEntry, if_neg (String.lt_asymm hentry), if_neg hne, ih hrest]
    rfl

theorem entries_setAll {r : Registry} {entries : List LibraryEntry}
    (h : (r.entries ++ entries).Pairwise (·.1 < ·.1)) :
    (r.setAll entries).entries = r.entries ++ entries := by
  induction entries generalizing r with
  | nil => simp [setAll]
  | cons e entries ih =>
    have hlow : ∀ x ∈ r.entries, x.1 < e.1 := fun x hx =>
      (List.pairwise_append.mp h).2.2 x hx e List.mem_cons_self
    have hset : (r.set e.1 e.2).entries = r.entries ++ [e] := by
      have hi := insertEntry_append e.1 e.2 r.entries hlow
      exact congrArg Prod.snd hi
    change ((r.set e.1 e.2).setAll entries).entries = _
    rw [ih, hset, List.append_assoc, List.singleton_append]
    rwa [hset, List.append_assoc, List.singleton_append]

/-- The entries of a registry, set in their order, build it again. -/
theorem setAll_entries (r : Registry) : empty.setAll r.entries = r := by
  apply Registry.ext
  rw [entries_setAll (by simpa [empty] using r.sorted)]
  rfl

end Implementors.Registry
