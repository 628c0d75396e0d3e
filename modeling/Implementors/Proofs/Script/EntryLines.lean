import Implementors.Fragment
import Implementors.Proofs.Registry.Lookup
import Implementors.Proofs.Text.Affix
import Implementors.Proofs.Text.Lines
import Implementors.Proofs.Text.Trim

/-! The entry lines of a script, with their numbers. A script is read by its entry lines alone. -/
namespace Implementors.Script

open Json Registry

/-- A line whose trimmed text starts an entry; `text` is what follows that start. -/
structure EntryLine where
  number : Nat
  line : List Char
  text : List Char

namespace EntryLine

def entry? (l : EntryLine) : Option LibraryEntry := (readEntry l.text).toOption

def IsWellFormed (l : EntryLine) : Prop := ∃ e, readEntry l.text = .ok e

end EntryLine

def entryLine? (numbered : List Char × Nat) : Option EntryLine :=
  (entryText? numbered.1).map fun text => ⟨numbered.2, numbered.1, text⟩

/-- The entry lines among lines of which the first has number `n`. -/
def entryLinesFrom (n : Nat) (lines : List (List Char)) : List EntryLine :=
  (lines.zipIdx n).filterMap entryLine?

/-- Numbers count all lines of a script, from one. -/
def entryLines (source : String) : List EntryLine := entryLinesFrom 1 (Text.lines source.toList)

/-- The entries of the well-formed entry lines, in their order. -/
def assigned (source : String) : List LibraryEntry :=
  (entryLines source).filterMap EntryLine.entry?

theorem entryText?_eq_some_iff {line text : List Char} :
    entryText? line = some text ↔ Text.trim line = entryStart.toList ++ text :=
  Text.isPrefixOf?_eq_some_iff

theorem mem_entryLines {source : String} {l : EntryLine} :
    l ∈ entryLines source ↔
      0 < l.number ∧ (Text.lines source.toList)[l.number - 1]? = some l.line ∧
        Text.trim l.line = entryStart.toList ++ l.text := by
  rw [entryLines, entryLinesFrom, List.mem_filterMap]
  constructor
  · rintro ⟨⟨line, n⟩, hm, he⟩
    obtain ⟨text, ht, rfl⟩ := Option.map_eq_some_iff.mp he
    obtain ⟨hn, hl⟩ := List.mk_mem_zipIdx_iff_le_and_getElem?_sub.mp hm
    exact ⟨hn, hl, entryText?_eq_some_iff.mp ht⟩
  · rintro ⟨hn, hl, ht⟩
    refine ⟨(l.line, l.number), List.mk_mem_zipIdx_iff_le_and_getElem?_sub.mpr ⟨hn, hl⟩, ?_⟩
    rw [entryLine?, entryText?_eq_some_iff.mpr ht]
    rfl

theorem entryLinesFrom_cons (n : Nat) (line : List Char) (lines : List (List Char)) :
    entryLinesFrom n (line :: lines) =
      match entryText? line with
      | none => entryLinesFrom (n + 1) lines
      | some text => ⟨n, line, text⟩ :: entryLinesFrom (n + 1) lines := by
  rw [entryLinesFrom, List.zipIdx_cons, List.filterMap_cons, entryLine?]
  cases entryText? line <;> rfl

/-- Sets the entries of lines one after the other, up to the first that is none. -/
def assign (r : Registry) : List EntryLine → Except Error Registry
  | [] => .ok r
  | l :: ls =>
    match readEntry l.text with
    | .error fault => .error (fault.onLine l.number)
    | .ok (name, list) => assign (r.set name list) ls

theorem readLines_eq_assign (n : Nat) (r : Registry) (lines : List (List Char)) :
    readLines n r lines = assign r (entryLinesFrom n lines) := by
  induction lines generalizing n r with
  | nil => rfl
  | cons line lines ih =>
    rw [readLines, entryLinesFrom_cons]
    cases entryText? line with
    | none => exact ih (n + 1) r
    | some text =>
      simp only [assign]
      cases readEntry text with
      | error fault => rfl
      | ok entry => exact ih (n + 1) _

theorem parse_eq_assign (source : String) : parse source = assign .empty (entryLines source) :=
  readLines_eq_assign 1 .empty _

theorem assign_of_wellFormed (r : Registry) {ls : List EntryLine}
    (h : ∀ l ∈ ls, l.IsWellFormed) :
    assign r ls = .ok (r.setAll (ls.filterMap EntryLine.entry?)) := by
  induction ls generalizing r with
  | nil => rfl
  | cons l ls ih =>
    obtain ⟨⟨e, he⟩, hs⟩ := List.forall_mem_cons.mp h
    have hl : l.entry? = some e := by rw [EntryLine.entry?, he]; rfl
    rw [List.filterMap_cons, hl]
    simp only [assign, he]
    exact ih (r.set e.1 e.2) hs

/-- The first line that is no entry settles the outcome. -/
theorem assign_of_fault (r : Registry) {before : List EntryLine}
    (h : ∀ l ∈ before, l.IsWellFormed) {l : EntryLine} {fault : EntryFault}
    (hl : readEntry l.text = .error fault) (after : List EntryLine) :
    assign r (before ++ l :: after) = .error (fault.onLine l.number) := by
  induction before generalizing r with
  | nil => simp only [List.nil_append, assign, hl]
  | cons m before ih =>
    obtain ⟨⟨e, he⟩, hs⟩ := List.forall_mem_cons.mp h
    simp only [List.cons_append, assign, he]
    exact ih (r.set e.1 e.2) hs

/-- Lines that are not all entries have a first that is none. -/
theorem exists_first_fault {ls : List EntryLine} (h : ¬ ∀ l ∈ ls, l.IsWellFormed) :
    ∃ before l after fault, ls = before ++ l :: after ∧ (∀ m ∈ before, m.IsWellFormed) ∧
      readEntry l.text = .error fault := by
  induction ls with
  | nil => exact absurd (by simp) h
  | cons l ls ih =>
    cases hl : readEntry l.text with
    | error fault => exact ⟨[], l, ls, fault, rfl, by simp, hl⟩
    | ok e =>
      have hls : ¬ ∀ m ∈ ls, m.IsWellFormed := fun hs =>
        h (List.forall_mem_cons.mpr ⟨⟨e, hl⟩, hs⟩)
      obtain ⟨before, m, after, fault, rfl, hb, hm⟩ := ih hls
      exact ⟨l :: before, m, after, fault, rfl, List.forall_mem_cons.mpr ⟨⟨e, hl⟩, hb⟩, hm⟩

theorem no_feed_of_mem_entryLines {source : String} {l : EntryLine} (h : l ∈ entryLines source) :
    '\n' ∉ l.line := by
  obtain ⟨-, hl, -⟩ := mem_entryLines.mp h
  exact Text.no_feed_of_mem_lines (List.mem_of_getElem? hl)

theorem text_subset_of_mem_entryLines {source : String} {l : EntryLine}
    (h : l ∈ entryLines source) : l.text ⊆ l.line := by
  obtain ⟨-, -, ht⟩ := mem_entryLines.mp h
  intro c hc
  exact Text.trim_subset l.line (ht ▸ List.mem_append_right _ hc)

/-- An entry line is the only line of a script of its own. -/
theorem entryLines_alone {source : String} {l : EntryLine} (h : l ∈ entryLines source) :
    entryLines (String.ofList l.line) = [⟨1, l.line, l.text⟩] := by
  obtain ⟨-, -, ht⟩ := mem_entryLines.mp h
  have hne : l.line ≠ [] := by
    intro hn
    rw [hn] at ht
    exact absurd ht (by simp [Text.trim, Text.trimStart, Text.trimEnd, entryStart])
  rw [entryLines, String.toList_ofList, Text.lines_of_no_feed hne (no_feed_of_mem_entryLines h),
    entryLinesFrom_cons, entryText?_eq_some_iff.mpr ht]
  rfl

end Implementors.Script
