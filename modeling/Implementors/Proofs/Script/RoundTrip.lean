import Implementors.Fragment
import Implementors.Proofs.Descriptor.Written
import Implementors.Proofs.Json.OneLine
import Implementors.Proofs.Script.Spelled
import Implementors.Proofs.Text.Lines

/-! A rendered script reads back as the registry that it was rendered from. -/
namespace Implementors.Script

open Json Registry

/-- An entry as it is written. -/
def written (e : LibraryEntry) : Spelling where
  name := quote e.1
  list := writeList .compact 0 e.2
  entry := e
  reads_name := (Reader.takes_quote e.1).readAll
  reads_list := (takes_writeList Layout.plain_compact 0 e.2).readAll

theorem entryLine_eq (e : LibraryEntry) : entryLine e = spelledLine (written e) ++ ['\n'] := by
  simp [entryLine, spelledLine, spelledTail, written]

theorem getLast?_written (e : LibraryEntry) : (spelledLine (written e)).getLast? = some ';' := by
  obtain ⟨s, hs⟩ := spelledLine_ends (written e)
  rw [hs, ← List.cons_append, List.getLast?_concat]

theorem no_feed_written (e : LibraryEntry) : '\n' ∉ spelledLine (written e) := by
  have hs : '\n' ∉ entryStart.toList := by decide
  simp [spelledLine, spelledTail, written, hs, no_feed_quote, no_feed_writeList]

/-- The lines of written entries, each with its line feed, and of whatever follows. -/
theorem lines_entries (entries : List LibraryEntry) (rest : List Char) :
    Text.lines (entries.flatMap entryLine ++ rest) =
      (entries.map written).map spelledLine ++ Text.lines rest := by
  induction entries with
  | nil => rfl
  | cons e entries ih =>
    have hr : (spelledLine (written e)).getLast? ≠ some '\r' := by
      rw [getLast?_written]
      decide
    rw [List.flatMap_cons, entryLine_eq, List.append_assoc, List.append_assoc,
      List.singleton_append, Text.lines_append _ _ (no_feed_written e) hr, ih]
    rfl

theorem map_entry_written (entries : List LibraryEntry) :
    (entries.map written).map (·.entry) = entries := by
  rw [List.map_map]
  exact List.map_id entries

theorem isScript_render (r : Registry) : IsScript (r.entries.map written) (render r) := by
  obtain ⟨hfeed, hlast, -⟩ := opening_line
  obtain ⟨hne, hclosing, -⟩ := closing_line
  right
  rw [render, String.toList_ofList, List.append_assoc, List.cons_append,
    Text.lines_append _ _ hfeed hlast, lines_entries, Text.lines_of_no_feed hne hclosing]

theorem parse_render (r : Registry) : parse (render r) = .ok r := by
  rw [parse_of_isScript (isScript_render r), map_entry_written]
  exact congrArg Except.ok (setAll_entries r)

/-- Reading the script of a fragment gives the fragment back, whatever its names and texts are. -/
theorem ofScript_toScript (p : TraitPath) (r : Registry) :
    Fragment.ofScript p (Fragment.toScript ⟨p, r⟩) = .ok ⟨p, r⟩ := by
  rw [Fragment.ofScript, Fragment.toScript, parse_render]

end Implementors.Script
