import Implementors.Proofs.Registry.Content
import Implementors.Proofs.Registry.Spelled
import Implementors.Proofs.Registry.Walk
import Implementors.Proofs.Text.Order
import Mathlib.Algebra.GroupWithZero.Nat
import Mathlib.Data.List.Dedup

/-! Registries over their whole history. Wherever a registry starts and whatever is inserted later,
all that it shows is settled by the lists that were given last under each name. Main statement:
`last_lists_shown`. -/
namespace Implementors.Registry

/-- All names of the entries are above a smaller one, so there is nothing under it. -/
theorem lookup_eq_none_of_lt {name : String} {entries : List LibraryEntry}
    (h : ∀ e ∈ entries, name < e.1) : entries.lookup name = none := by
  refine List.lookup_eq_none_iff.mpr fun e he => bne_iff_ne.mpr ?_
  rintro rfl
  exact String.lt_irrefl e.1 (h e he)

theorem insertEntry_fst (name : String) (list : List Descriptor) {entries : List LibraryEntry}
    (h : entries.Pairwise (·.1 < ·.1)) :
    (insertEntry name list entries).1 = entries.lookup name := by
  induction entries with
  | nil => rfl
  | cons entry rest ih =>
    obtain ⟨hlow, hrest⟩ := List.pairwise_cons.mp h
    simp only [insertEntry]
    split
    · next hn =>
      have habove : ∀ e ∈ entry :: rest, name < e.1 := by
        intro e he
        rcases List.mem_cons.mp he with rfl | he
        · exact hn
        · exact String.lt_trans hn (hlow e he)
      exact (lookup_eq_none_of_lt habove).symm
    · rw [lookup_entry]
      split
      · rfl
      · exact ih hrest

/-- What an insertion gives back is what it replaces. -/
theorem insert_fst (r : Registry) (name : String) (list : List Descriptor) :
    (r.insert name list).1 = r.library? name :=
  insertEntry_fst name list r.sorted

/-- Inserts entries from left to right; gives all that the insertions gave back as well. -/
def insertAll (r : Registry) : List LibraryEntry → List (Option (List Descriptor)) × Registry
  | [] => ([], r)
  | e :: es =>
    let (replaced, r) := r.insert e.1 e.2
    let (others, r) := insertAll r es
    (replaced :: others, r)

theorem insertAll_append (r : Registry) (ps qs : List LibraryEntry) :
    r.insertAll (ps ++ qs) =
      ((r.insertAll ps).1 ++ ((r.insertAll ps).2.insertAll qs).1,
        ((r.insertAll ps).2.insertAll qs).2) := by
  induction ps generalizing r with
  | nil => rfl
  | cons e ps ih => simp only [List.cons_append, insertAll, ih]

theorem length_insertAll (r : Registry) (es : List LibraryEntry) :
    (r.insertAll es).1.length = es.length := by
  induction es generalizing r with
  | nil => rfl
  | cons e es ih => simp only [insertAll, List.length_cons, ih]

theorem insertAll_snd (r : Registry) (es : List LibraryEntry) :
    (r.insertAll es).2 = r.setAll es := by
  induction es generalizing r with
  | nil => rfl
  | cons e es ih => exact ih (r.set e.1 e.2)

/-- Each insertion on the way gives back what was there right before it. -/
theorem insertAll_getElem? (r : Registry) (before after : List LibraryEntry) (e : LibraryEntry) :
    (r.insertAll (before ++ e :: after)).1[before.length]? =
      some ((r.insertAll before).2.library? e.1) := by
  rw [insertAll_append, ← length_insertAll r before, List.getElem?_append_right (Nat.le_refl _),
    Nat.sub_self]
  exact congrArg some (insert_fst _ e.1 e.2)

/-- Each insertion on the way leaves the other libraries alone. -/
theorem library?_insertAll_concat (r : Registry) (before : List LibraryEntry) {e : LibraryEntry}
    {other : String} (h : other ≠ e.1) :
    (r.insertAll (before ++ [e])).2.library? other = (r.insertAll before).2.library? other := by
  rw [insertAll_append]
  exact (library?_set _ e.1 other e.2).trans (if_neg h)

/-- A registry that was given entries in this order shows the list that came last under each name,
and nothing else. -/
structure Shows (r : Registry) (given : List LibraryEntry) : Prop where
  library?_eq : ∀ name, r.library? name = lastList name given
  size_eq : r.size = (given.map (·.1)).dedup.length
  /-- A walk gives each library once, in the order of the octets of the names, and knows at each
  point how many are still to come. -/
  walked : ∃ items, r.walk.Yields items ∧
    items.Pairwise (fun a b => Text.encode a.1 < Text.encode b.1) ∧
    (∀ e, e ∈ items ↔ lastList e.1 given = some e.2) ∧
    r.count = (items.map (·.2.length)).sum ∧
    ∀ n, (r.walk.take n).1 = items.take n ∧ (r.walk.take n).2.Yields (items.drop n) ∧
      (r.walk.take n).2.size = (items.drop n).length ∧
      (r.walk.take n).2.sizeBounds = ((items.drop n).length, (items.drop n).length)

section

variable {r : Registry} {given : List LibraryEntry}

theorem size_eq_of_library?_eq (h : ∀ name, r.library? name = lastList name given) :
    r.size = (given.map (·.1)).dedup.length := by
  have hmem (name : String) :
      name ∈ r.entries.map (·.1) ↔ name ∈ (given.map (·.1)).dedup := by
    rw [List.mem_dedup, ← lookup_isSome_iff_mem, ← lastList_isSome_iff, ← h name]
    rfl
  have hperm := (List.perm_ext_iff_of_nodup r.names_nodup (List.nodup_dedup _)).mpr hmem
  rw [← hperm.length_eq, List.length_map]
  rfl

/-- The order of the names is that of their octets. -/
theorem entries_ascend (r : Registry) :
    r.entries.Pairwise fun a b => Text.encode a.1 < Text.encode b.1 :=
  r.sorted.imp Text.encode_lt_of_lt

theorem count_eq (r : Registry) : r.count = (r.entries.map (·.2.length)).sum :=
  List.length_flatMap

theorem shows_of_library?_eq (h : ∀ name, r.library? name = lastList name given) :
    r.Shows given := by
  have hyields : r.walk.Yields r.entries := Walk.yields_toCome r.entries
  refine ⟨h, size_eq_of_library?_eq h, r.entries, hyields, r.entries_ascend, ?_, r.count_eq, ?_⟩
  · intro e
    rw [mem_entries_iff, h]
  · intro n
    obtain ⟨htaken, hleft⟩ := hyields.take n
    have hbounds := hleft.sizeBounds_eq
    exact ⟨htaken, hleft, congrArg Prod.fst hbounds, hbounds⟩

end

/-- Insertions go on from the entries that were given so far. -/
theorem shows_insertAll (given es : List LibraryEntry) :
    ((ofList given).insertAll es).2.Shows (given ++ es) := by
  apply shows_of_library?_eq
  intro name
  rw [insertAll_snd, library?_setAll, library?_ofList, lastList_append]

/-- Where a registry may start. -/
inductive Start
  | empty
  | entries (given : List LibraryEntry)
  | json (text : String)

namespace Start

/-- The registry at the start, if there is one: a text need not be a registry. -/
def build? : Start → Option Registry
  | empty => some .empty
  | entries given => some (ofList given)
  | json text => (ofJson text).toOption

/-- The entries that a start gives, in their order. A text gives those of its members. -/
def Gives : Start → List LibraryEntry → Prop
  | empty, given => given = []
  | entries es, given => given = es
  | json text, given => ∃ xs, IsObject xs text ∧ given = xs.map (·.entry)

theorem build?_eq_some_iff {start : Start} {r : Registry} :
    start.build? = some r ↔ ∃ given, start.Gives given ∧ r = ofList given := by
  have hgiven (es : List LibraryEntry) :
      some (ofList es) = some r ↔ ∃ given, given = es ∧ r = ofList given := by
    rw [Option.some_inj, exists_eq_left, eq_comm]
  cases start with
  | empty => exact hgiven []
  | entries es => exact hgiven es
  | json text =>
    have hread : (ofJson text).toOption = some r ↔ ofJson text = .ok r := by
      cases ofJson text <;> simp [Except.toOption]
    rw [build?, hread, ofJson_eq_ok_iff]
    constructor
    · rintro ⟨xs, hxs, hr⟩
      exact ⟨xs.map (·.entry), ⟨xs, hxs, rfl⟩, hr⟩
    · rintro ⟨given, ⟨xs, hxs, rfl⟩, hr⟩
      exact ⟨xs, hxs, hr⟩

end Start

/-- Wherever a registry starts, empty, from entries or from a JSON text, some entries were given for
it. Each insertion then gives back the list that was under its name right before, and changes no
other library. After any insertions the registry shows all entries so far: a walk gives each library
once, in the order of the octets of the names, with the list that came last for it, the registry
counts the names and the descriptors, and a walk knows at each point how many libraries are still to
come. -/
theorem last_lists_shown (start : Start) :
    (∀ r, start.build? = some r → ∃ given, start.Gives given) ∧
    ∀ given, start.Gives given → ∃ r, start.build? = some r ∧
      (∀ before e after,
        (r.insertAll (before ++ e :: after)).1[before.length]? =
          some ((r.insertAll before).2.library? e.1) ∧
        ∀ other, other ≠ e.1 → (r.insertAll (before ++ [e])).2.library? other =
          (r.insertAll before).2.library? other) ∧
      ∀ es, (r.insertAll es).1.length = es.length ∧ (r.insertAll es).2.Shows (given ++ es) := by
  constructor
  · intro r hr
    obtain ⟨given, hgiven, -⟩ := Start.build?_eq_some_iff.mp hr
    exact ⟨given, hgiven⟩
  · intro given hgiven
    refine ⟨ofList given, Start.build?_eq_some_iff.mpr ⟨given, hgiven, rfl⟩, ?_, ?_⟩
    · intro before e after
      refine ⟨insertAll_getElem? _ before after e, fun other hother => ?_⟩
      exact library?_insertAll_concat _ before hother
    · intro es
      exact ⟨length_insertAll _ es, shows_insertAll given es⟩

/-- A text that gives a library twice, once with an escaped name. -/
theorem last_lists_shown_escaped_name :
    let start : Start := .json ("\x7b\"b\":[],\"a\":[\x7b\"text\":\"x\"\x7d]," ++
      "\"\\u0062\" : [\x7b\"text\":\"y\"\x7d]\x7d")
    let given : List LibraryEntry :=
      [("b", []), ("a", [⟨"x", false, []⟩]), ("b", [⟨"y", false, []⟩])]
    let es : List LibraryEntry := [("é", []), ("a", [])]
    let r : Registry := ofList given
    start.build? = some r ∧ start.Gives given ∧ "b" ≠ "a" ∧
      (r.insertAll es).1[1]? = some (some [⟨"x", false, []⟩]) ∧
      (r.insertAll es).2.library? "b" = some [⟨"y", false, []⟩] ∧
      (r.insertAll es).2.size = 3 := by
  intro start given es r
  have hr : start.build? = some r := by decide +kernel
  have hgiven : start.Gives given := by
    refine ⟨[⟨"\"b\"".toList, "[]".toList, ("b", []), ?_, ?_⟩,
      ⟨"\"a\"".toList, "[\x7b\"text\":\"x\"\x7d]".toList, ("a", [⟨"x", false, []⟩]), ?_, ?_⟩,
      ⟨"\"\\u0062\" ".toList, " [\x7b\"text\":\"y\"\x7d]".toList,
        ("b", [⟨"y", false, []⟩]), ?_, ?_⟩], ⟨[], [], [], rfl, rfl, rfl, ?_⟩, rfl⟩
    all_goals decide +kernel
  have hb : "b" ≠ "a" := by decide
  obtain ⟨s, hs, hanswers, hshown⟩ := (last_lists_shown start).2 given hgiven
  obtain rfl : r = s := Option.some.inj (hr.symm.trans hs)
  obtain ⟨hreplaced, hothers⟩ := hanswers [("é", [])] ("a", []) []
  have hbefore := (hshown [("é", [])]).2
  refine ⟨hr, hgiven, hb, ?_, ?_, (hshown es).2.size_eq⟩
  · exact hreplaced.trans (congrArg some (hbefore.library?_eq "a"))
  · exact (hothers "b" hb).trans (hbefore.library?_eq "b")

end Implementors.Registry
