import Implementors.Proofs.Path.Components

/-! Texts as paths. Main statements: `exists_components_encode`, a text is cut between its
characters, so that its components are texts again, and `exists_push`, a text pushed on a path puts
its components behind those of the path. -/
namespace Implementors.Path

open Text

theorem exists_segments_encode (s : List Char) :
    ∃ names : List String, segments (s.flatMap String.utf8EncodeChar) = names.map encode := by
  induction s with
  | nil => exact ⟨[""], rfl⟩
  | cons c s ih =>
    obtain ⟨names, hs⟩ := ih
    rw [List.flatMap_cons]
    by_cases hc : c = '/'
    · have hslash : String.utf8EncodeChar '/' = [slash] := by decide
      rw [hc, hslash, List.singleton_append, segments, if_pos rfl, hs]
      exact ⟨"" :: names, rfl⟩
    · cases names with
      | nil => exact absurd hs (segments_ne_nil _)
      | cons name names =>
        -- The octets of another character hold no slash, so they join the first segment.
        have hslash : slash ∉ String.utf8EncodeChar c := by
          rw [mem_utf8EncodeChar_iff (by decide)]
          exact fun h => hc (Char.toNat_inj.mp h)
        rw [segments_append hslash hs]
        refine ⟨String.ofList (c :: name.toList) :: names, ?_⟩
        rw [List.map_cons, encode_eq_flatMap (String.ofList _), String.toList_ofList,
          List.flatMap_cons, ← encode_eq_flatMap]

theorem exists_components_encode (s : String) :
    ∀ c ∈ components (encode s), ∃ name, c = encode name := by
  intro c hc
  obtain ⟨names, hs⟩ := exists_segments_encode s.toList
  have hmem := (List.mem_filter.mp hc).1
  rw [encode_eq_flatMap, hs] at hmem
  obtain ⟨name, -, rfl⟩ := List.mem_map.mp hmem
  exact ⟨name, rfl⟩

theorem exists_of_endsWithSlash {path : String} (h : endsWithSlash path = true) :
    ∃ start, path = start ++ "/" := by
  obtain ⟨start, hs⟩ := List.getLast?_eq_some_iff.mp (beq_iff_eq.mp h)
  refine ⟨String.ofList start, String.toList_inj.mp ?_⟩
  rw [hs, String.toList_append, String.toList_ofList]
  rfl

theorem components_encode_slash (path : String) (rest : Octets) :
    components (encode (path ++ "/") ++ rest) = components (encode path) ++ components rest := by
  have hbar : encode "/" = [slash] := by decide
  rw [encode_append, hbar, List.append_assoc, List.singleton_append, components_append_slash]

/-- Pushing joins two texts, with a slash between them if one is needed. -/
theorem exists_push (path : String) {name : String} (h : startsWithSlash name = false) :
    ∃ before, push path name = before ++ name ∧
      ∀ rest, components (encode before ++ rest) = components (encode path) ++ components rest := by
  by_cases hempty : path = ""
  · subst hempty
    exact ⟨"", by simp [push, h], fun rest => rfl⟩
  · by_cases hend : endsWithSlash path = true
    · refine ⟨path, by simp [push, h, hend], fun rest => ?_⟩
      obtain ⟨start, rfl⟩ := exists_of_endsWithSlash hend
      have hstart := components_encode_slash start []
      rw [List.append_nil] at hstart
      have hnil : components [] = [] := rfl
      rw [components_encode_slash, hstart, hnil, List.append_nil]
    · refine ⟨path ++ "/", by simp [push, h, hempty, hend], fun rest => ?_⟩
      exact components_encode_slash path rest

end Implementors.Path
