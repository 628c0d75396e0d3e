import Implementors.Script
import Implementors.Proofs.Registry.Spelled
import Implementors.Proofs.Text.Affix
import Implementors.Proofs.Text.Trim

/-! Scripts of entries in whatever spelling: a line for each entry sets them one after the other. -/
namespace Implementors.Script

open Json Registry

/-- The line of a spelled entry behind its start. -/
def spelledTail (x : Spelling) : List Char :=
  x.name ++ ([']', ' ', '=', ' '] ++ (x.list ++ [';']))

def spelledLine (x : Spelling) : List Char := entryStart.toList ++ spelledTail x

/-- Neither end of a line is a blank. -/
theorem spelledLine_ends (x : Spelling) : ∃ s, spelledLine x = 'i' :: (s ++ [';']) := by
  refine ⟨entryStart.toList.tail ++ (x.name ++ ([']', ' ', '=', ' '] ++ x.list)), ?_⟩
  have hs : entryStart.toList = 'i' :: entryStart.toList.tail := by decide
  rw [spelledLine, hs]
  simp [spelledTail]

theorem entryText?_spelledLine (x : Spelling) :
    entryText? (spelledLine x) = some (spelledTail x) := by
  have htrim : Text.trim (spelledLine x) = spelledLine x := by
    obtain ⟨s, hs⟩ := spelledLine_ends x
    rw [hs]
    exact Text.trim_of_ends (by decide) (by decide) s
  rw [entryText?, htrim]
  exact Text.isPrefixOf?_eq_some_iff.mpr rfl

theorem afterChar_trimStart {blanks : List Char} (hb : blanks.all Text.isBlank = true) {c : Char}
    (hc : Text.isBlank c = false) (s : List Char) :
    afterChar c (Text.trimStart (blanks ++ c :: s)) = some s := by
  rw [Text.trimStart_append hb, Text.trimStart_cons hc]
  exact if_pos rfl

/-- Behind the equals sign, whatever blanks stand around the punctuation before. -/
theorem listText_punctuation {u v : List Char} (hu : u.all Text.isBlank = true)
    (hv : v.all Text.isBlank = true) (s : List Char) :
    listText (u ++ ']' :: (v ++ '=' :: s)) = [';'].isSuffixOf? (Text.trim s) := by
  rw [listText, afterChar_trimStart hu (by decide), Option.bind_some,
    afterChar_trimStart hv (by decide), Option.bind_some]

/-- The blanks of JSON are blanks of a line as well. -/
theorem text_blanks {s : List Char} (h : Blanks s) : s.all Text.isBlank = true := by
  refine List.all_eq_true.mpr fun c hc => ?_
  have hjson := List.all_eq_true.mp h c hc
  simp only [Json.isBlank, Bool.or_eq_true, beq_iff_eq] at hjson
  rcases hjson with ((rfl | rfl) | rfl) | rfl <;> rfl

/-- The blanks before a list are trimmed away; those behind it are left before the semicolon. -/
theorem listText_spelled {middle blanks : List Char} (hm : Blanks middle) (hb : Blanks blanks)
    (text : List Char) :
    listText (middle ++ ([']', ' ', '=', ' '] ++ (blanks ++ '[' :: text ++ [';']))) =
      some ('[' :: text) := by
  have hspace : Blanks (' ' :: blanks) := hb
  have hp := listText_punctuation (text_blanks hm) (v := [' ']) rfl
    (' ' :: blanks ++ ('[' :: (text ++ [';'])))
  rw [Text.trim_append (text_blanks hspace), Text.trim_of_ends (by decide) (by decide)] at hp
  simpa using hp.trans (Text.isSuffixOf?_eq_some_iff.mpr rfl)

theorem readEntry_spelledTail (x : Spelling) : readEntry (spelledTail x) = .ok x.entry := by
  obtain ⟨before, quoted, middle, hb, hm, hq, hname⟩ := x.name_eq
  obtain ⟨blanks, text, after, hblanks, ha, ht, hlist⟩ := x.list_eq
  have htail : spelledTail x = before ++ ('"' :: quoted ++
      (middle ++ ([']', ' ', '=', ' '] ++ (x.list ++ [';'])))) := by
    simp [spelledTail, hname]
  have hfirst : skipBlanks (spelledTail x) ≠ [] := by
    rw [htail, List.cons_append, skipBlanks_token hb (by decide)]
    simp
  have hrun := (Reader.takes_string hq).run before
    (middle ++ ([']', ' ', '=', ' '] ++ (x.list ++ [';']))) hb
  have hlisted := listText_spelled hm hblanks (text ++ after)
  have hread : listReader.readAll ('[' :: (text ++ after)) = .ok x.entry.2 :=
    Reader.readAll_eq_ok_iff.mpr ⟨after, ha, ht.run [] after blanks_nil⟩
  rw [← htail] at hrun
  rw [← hlist] at hlisted
  unfold readEntry
  split
  · contradiction
  · simp only [hrun, hlisted, hread]

theorem readLines_spelled (n : Nat) (r : Registry) (xs : List Spelling)
    (lines : List (List Char)) :
    readLines n r (xs.map spelledLine ++ lines) =
      readLines (n + xs.length) (r.setAll (xs.map (·.entry))) lines := by
  induction xs generalizing n r with
  | nil => rfl
  | cons x xs ih =>
    simp only [List.map_cons, List.cons_append, readLines, entryText?_spelledLine,
      readEntry_spelledTail]
    rw [ih, List.length_cons, Nat.add_right_comm, Nat.add_assoc]
    rfl

/-- A script with a line for each entry, with the fixed lines around them or without. -/
def IsScript (xs : List Spelling) (source : String) : Prop :=
  Text.lines source.toList = xs.map spelledLine ∨
    Text.lines source.toList = opening.toList :: (xs.map spelledLine ++ [closing.toList])

theorem opening_line : '\n' ∉ opening.toList ∧ opening.toList.getLast? ≠ some '\r' ∧
    entryText? opening.toList = none := by decide +kernel

theorem closing_line : closing.toList ≠ [] ∧ '\n' ∉ closing.toList ∧
    entryText? closing.toList = none := by decide +kernel

theorem parse_of_isScript {xs : List Spelling} {source : String} (h : IsScript xs source) :
    parse source = .ok (ofList (xs.map (·.entry))) := by
  rcases h with h | h
  · rw [parse, h, ← List.append_nil (xs.map spelledLine), readLines_spelled]
    rfl
  · simp only [parse, h, readLines, opening_line.2.2, readLines_spelled, closing_line.2.2]
    rfl

end Implementors.Script
