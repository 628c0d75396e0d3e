import Mathlib.Data.List.Basic

/-! Taking a known text off the front or the end of another. -/
namespace Implementors.Text

theorem isPrefixOf?_eq_some_iff {start s r : List Char} :
    start.isPrefixOf? s = some r ↔ s = start ++ r := by
  induction start generalizing s with
  | nil => simp [List.isPrefixOf?, eq_comm]
  | cons c start ih =>
    cases s with
    | nil => simp [List.isPrefixOf?]
    | cons d s =>
      by_cases h : c = d
      · simp [List.isPrefixOf?, h, ih]
      · simp [List.isPrefixOf?, h, Ne.symm h]

theorem isSuffixOf?_eq_some_iff {ending s r : List Char} :
    ending.isSuffixOf? s = some r ↔ s = r ++ ending := by
  rw [List.isSuffixOf?, Option.map_eq_some_iff]
  constructor
  · rintro ⟨t, ht, rfl⟩
    have hs := congrArg List.reverse (isPrefixOf?_eq_some_iff.mp ht)
    simpa using hs
  · rintro rfl
    exact ⟨r.reverse, isPrefixOf?_eq_some_iff.mpr (by simp), by simp⟩

end Implementors.Text
