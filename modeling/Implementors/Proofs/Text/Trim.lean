import Implementors.Text.Blank
import Implementors.Text.Lines

/-! Trimming takes blanks off both ends, and stops at the first character that is none. -/
namespace Implementors.Text

theorem trimStart_append {blanks : List Char} (h : blanks.all isBlank = true) (s : List Char) :
    trimStart (blanks ++ s) = trimStart s :=
  List.dropWhile_append_of_pos (List.all_eq_true.mp h)

theorem trimStart_cons {c : Char} (h : isBlank c = false) (s : List Char) :
    trimStart (c :: s) = c :: s :=
  List.dropWhile_cons_of_neg (by simp [h])

theorem trimEnd_append {c : Char} (h : isBlank c = false) (s : List Char) :
    trimEnd (s ++ [c]) = s ++ [c] := by
  rw [trimEnd, List.reverse_append, List.reverse_singleton, List.singleton_append,
    List.dropWhile_cons_of_neg (by simp [h]), List.reverse_cons, List.reverse_reverse]

theorem trim_of_ends {c d : Char} (hc : isBlank c = false) (hd : isBlank d = false)
    (s : List Char) : trim (c :: (s ++ [d])) = c :: (s ++ [d]) := by
  rw [trim, trimStart_cons hc]
  exact trimEnd_append hd (c :: s)

theorem trim_append {blanks : List Char} (h : blanks.all isBlank = true) (s : List Char) :
    trim (blanks ++ s) = trim s := by
  rw [trim, trimStart_append h, trim]

theorem trimEnd_blanks {blanks : List Char} (h : blanks.all isBlank = true) (s : List Char) :
    trimEnd (s ++ blanks) = trimEnd s := by
  have hr : ∀ c ∈ blanks.reverse, isBlank c = true := fun c hc =>
    List.all_eq_true.mp h c (List.mem_reverse.mp hc)
  rw [trimEnd, List.reverse_append, List.dropWhile_append_of_pos hr, trimEnd]

theorem trim_blanks {blanks : List Char} (h : blanks.all isBlank = true) (s : List Char) :
    trim (s ++ blanks) = trim s := by
  rw [trim, trim, trimStart, trimStart, List.dropWhile_append]
  split
  · next hs =>
    have hb : blanks.dropWhile isBlank = [] := by
      simpa [trimStart] using trimStart_append h []
    rw [hb, List.isEmpty_iff.mp hs]
  · exact trimEnd_blanks h _

/-- A carriage return that belongs to the line end does not show in the trimmed line. -/
theorem trim_dropReturn (s : List Char) : trim (dropReturn s.reverse).reverse = trim s := by
  unfold dropReturn
  split
  · next r hr =>
    have hs : s = r.reverse ++ ['\r'] := by
      rw [← List.reverse_reverse s, hr, List.reverse_cons]
    rw [hs, trim_blanks rfl]
  · rw [List.reverse_reverse]

/-- No blank stands at the end. -/
def EndsTight (s : List Char) : Prop := ∀ c ∈ s.getLast?, isBlank c = false

theorem EndsTight.of_append {s t : List Char} (h : EndsTight (s ++ t)) : EndsTight t := by
  intro c hc
  obtain ⟨t, rfl⟩ := List.getLast?_eq_some_iff.mp (Option.mem_def.mp hc)
  exact h c (by rw [← List.append_assoc]; exact List.getLast?_concat)

theorem EndsTight.trimEnd {s : List Char} (h : EndsTight s) : trimEnd s = s := by
  cases hs : s.getLast? with
  | none =>
    obtain rfl := List.getLast?_eq_none_iff.mp hs
    rfl
  | some c =>
    obtain ⟨t, rfl⟩ := List.getLast?_eq_some_iff.mp hs
    exact trimEnd_append (h c hs) t

theorem endsTight_trim (s : List Char) : EndsTight (trim s) := by
  intro c hc
  rw [trim, Text.trimEnd, List.getLast?_reverse] at hc
  have hstop := List.head?_dropWhile_not isBlank (trimStart s).reverse
  rwa [Option.mem_def.mp hc] at hstop

theorem exists_trimStart (s : List Char) :
    ∃ blanks, blanks.all isBlank = true ∧ s = blanks ++ trimStart s :=
  ⟨s.takeWhile isBlank, List.all_takeWhile, List.takeWhile_append_dropWhile.symm⟩

theorem trimStart_concat {c : Char} (hc : isBlank c = false) (s : List Char) :
    trimStart (s ++ [c]) = trimStart s ++ [c] := by
  rw [trimStart, trimStart, List.dropWhile_append]
  split
  · next hs =>
    rw [List.isEmpty_iff.mp hs]
    exact trimStart_cons hc []
  · rfl

theorem trim_concat {c : Char} (hc : isBlank c = false) (s : List Char) :
    trim (s ++ [c]) = trimStart s ++ [c] := by
  rw [trim, trimStart_concat hc, trimEnd_append hc]

theorem trim_subset (s : List Char) : trim s ⊆ s := fun _ hc =>
  (List.dropWhile_sublist isBlank).subset <| List.mem_reverse.mp <|
    (List.dropWhile_sublist isBlank).subset <| List.mem_reverse.mp hc

end Implementors.Text
