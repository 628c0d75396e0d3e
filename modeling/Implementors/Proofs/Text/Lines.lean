import Implementors.Text.Lines

/-! Lines hold no line feed, and a line that stands alone is the only line of its text. -/
namespace Implementors.Text

private theorem dropReturn_subset (held : List Char) : dropReturn held ⊆ held := by
  unfold dropReturn
  split
  · exact List.subset_cons_self _ _
  · exact List.Subset.refl _

private theorem no_feed_of_mem_linesFrom {held s line : List Char} (hh : '\n' ∉ held)
    (h : line ∈ linesFrom held s) : '\n' ∉ line := by
  induction s generalizing held with
  | nil =>
    cases held with
    | nil => simp [linesFrom] at h
    | cons c held =>
      obtain rfl : line = (c :: held).reverse := by simpa [linesFrom] using h
      exact fun hm => hh (List.mem_reverse.mp hm)
  | cons c s ih =>
    rw [linesFrom] at h
    split at h
    · rcases List.mem_cons.mp h with rfl | h
      · exact fun hm => hh (dropReturn_subset held (List.mem_reverse.mp hm))
      · exact ih List.not_mem_nil h
    · next hc =>
      refine ih (fun hm => ?_) h
      rcases List.mem_cons.mp hm with he | hm
      · exact hc he.symm
      · exact hh hm

theorem no_feed_of_mem_lines {s line : List Char} (h : line ∈ lines s) : '\n' ∉ line :=
  no_feed_of_mem_linesFrom List.not_mem_nil h

private theorem linesFrom_of_no_feed {held s : List Char} (hne : held ++ s ≠ []) (h : '\n' ∉ s) :
    linesFrom held s = [held.reverse ++ s] := by
  induction s generalizing held with
  | nil =>
    have hh : held.isEmpty = false := by simpa using hne
    simp [linesFrom, hh]
  | cons c s ih =>
    obtain ⟨hc, hs⟩ := not_or.mp (mt List.mem_cons.mpr h)
    rw [linesFrom, if_neg (Ne.symm hc), ih (by simp) hs]
    simp

theorem lines_of_no_feed {s : List Char} (hne : s ≠ []) (h : '\n' ∉ s) : lines s = [s] :=
  @linesFrom_of_no_feed [] s hne h

end Implementors.Text
