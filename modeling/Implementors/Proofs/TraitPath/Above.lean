import Implementors.Proofs.TraitPath.RoundTrip

/-! Directories above the last root. They leave no trace in the trait that a path is read as, but
each must be UTF-8 nevertheless: with one that is not, no trait is read from the path. -/
namespace Implementors.TraitPath

open Text

/-- All directories on a way are UTF-8, up to parent marks. -/
def IsReadable (way : Octets) : Prop :=
  ∀ d ∈ Path.components way, d ≠ Path.dotDot → (decode? d).isSome = true

theorem exists_map_encode_iff {octets : List Octets} :
    (∃ names : List String, octets = names.map encode) ↔ ∀ o ∈ octets, (decode? o).isSome = true := by
  constructor
  · rintro ⟨names, rfl⟩ o ho
    obtain ⟨s, -, rfl⟩ := List.mem_map.mp ho
    rw [decode?_encode]
    rfl
  · intro h
    induction octets with
    | nil => exact ⟨[], rfl⟩
    | cons o octets ih =>
      obtain ⟨hfirst, hrest⟩ := List.forall_mem_cons.mp h
      obtain ⟨s, hs⟩ := Option.isSome_iff_exists.mp hfirst
      obtain ⟨names, rfl⟩ := ih hrest
      exact ⟨s :: names, by rw [List.map_cons, decode?_eq_some_iff.mp hs]⟩

theorem isReadable_iff {way : Octets} :
    IsReadable way ↔
      ∃ names : List String, (Path.components way).filter (· != Path.dotDot) = names.map encode := by
  rw [exists_map_encode_iff, IsReadable]
  simp only [List.mem_filter, bne_iff_ne, and_imp]

theorem root_ne_fileName (name : String) : root ≠ fileName name := by
  intro h
  have hl := congrArg String.toList h
  rw [toList_fileName] at hl
  simp [root, fileStart] at hl

/-- The file and the directories below the root decide the trait. -/
theorem ofScriptPath?_eq_some_iff_of_root {path above below : Octets} {p : TraitPath}
    (hpath : Path.components path =
      Path.components above ++ encode root :: Path.components below) :
    ofScriptPath? path = some p ↔ IsReadable above ∧
      ∃ directories names, Path.components below = directories ++ [encode (fileName p.name)] ∧
        p.name ≠ "" ∧ directories.filter (· != Path.dotDot) = names.map encode ∧
        p.module = belowRoot names := by
  have hroot : (encode root != Path.dotDot) = true := by decide
  rw [ofScriptPath?_eq_some_iff, hpath, isReadable_iff]
  constructor
  · rintro ⟨directories, names, hc, hne, hd, hm⟩
    rcases List.eq_nil_or_concat (Path.components below) with hb | ⟨inner, last, hb⟩
    · rw [hb] at hc
      have hfile := (List.append_inj' hc rfl).2
      exact absurd (encode_inj.mp (List.cons.inj hfile).1) (root_ne_fileName p.name)
    · rw [List.concat_eq_append] at hb
      rw [hb, ← List.cons_append, ← List.append_assoc] at hc
      obtain ⟨rfl, hlast⟩ := List.append_inj' hc rfl
      rw [List.filter_append, List.filter_cons, if_pos hroot] at hd
      obtain ⟨outer, rest, rfl, ho, hr⟩ := List.append_eq_map_iff.mp hd
      obtain ⟨r, names, rfl, hencode, hn⟩ := List.map_eq_cons_iff.mp hr
      obtain rfl : r = root := encode_inj.mp hencode
      rw [belowRoot_append_root] at hm
      exact ⟨⟨outer, ho.symm⟩, inner, names, by rw [hb, hlast], hne, hn.symm, hm⟩
  · rintro ⟨⟨outer, ho⟩, directories, names, hc, hne, hd, hm⟩
    refine ⟨Path.components above ++ encode root :: directories, outer ++ root :: names, ?_, hne,
      ?_, ?_⟩
    · rw [hc, List.append_assoc, List.cons_append]
    · rw [List.filter_append, List.filter_cons, if_pos hroot, ho, hd, List.map_append,
        List.map_cons]
    · rw [hm, belowRoot_append_root]

theorem components_root_slash (below : Octets) :
    Path.components (encode "implementors/" ++ below) = encode root :: Path.components below := by
  have hslash : encode "implementors/" = encode root ++ [Path.slash] := by decide
  have hroot : Path.components (encode root) = [encode root] :=
    Path.components_of_isComponent (Path.isComponent_encode_iff.mpr (by decide))
  rw [hslash, List.append_assoc, List.singleton_append, Path.components_append_slash, hroot]
  rfl

theorem components_above_root (above below : Octets) :
    Path.components (above ++ encode "/implementors/" ++ below) =
      Path.components above ++ encode root :: Path.components below := by
  have hslash : encode "/implementors/" = Path.slash :: encode "implementors/" := by decide
  rw [hslash, List.append_assoc, List.cons_append, Path.components_append_slash,
    components_root_slash]

/-- A path with directories above a root is read as the path that starts at this root, if all of
the directories above are UTF-8, and otherwise it is not read as a trait at all. -/
theorem above_root_must_be_readable (above below : Octets) :
    let path := above ++ encode "/implementors/" ++ below
    (∀ p, ofScriptPath path = .ok p ↔
      IsReadable above ∧ ofScriptPath (encode "implementors/" ++ below) = .ok p) ∧
      (¬ IsReadable above → ofScriptPath path = .error (.invalidScriptPath path)) := by
  intro path
  have habove : ∀ p, ofScriptPath path = .ok p ↔
      IsReadable above ∧ ofScriptPath (encode "implementors/" ++ below) = .ok p := by
    intro p
    have hstart : Path.components (encode "implementors/" ++ below) =
        Path.components [] ++ encode root :: Path.components below := components_root_slash below
    have hnone : IsReadable [] := fun d hd => absurd hd List.not_mem_nil
    rw [ofScriptPath_eq_ok_iff, ofScriptPath_eq_ok_iff,
      ofScriptPath?_eq_some_iff_of_root (components_above_root above below),
      ofScriptPath?_eq_some_iff_of_root hstart, and_iff_right hnone]
  refine ⟨habove, fun h => ?_⟩
  cases ho : ofScriptPath? path with
  | none => rw [ofScriptPath, ho]
  | some p => exact absurd ((habove p).mp (ofScriptPath_eq_ok_iff.mpr ho)).1 h

/-- Directories above the last root are not ignored: one that is not UTF-8 makes the path invalid. -/
theorem above_root_not_ignored :
    ofScriptPath (encode "implementors/" ++ encode "a/trait.X.js") = .ok ⟨["a"], "X"⟩ ∧
      let path := [0xFF] ++ encode "/implementors/" ++ encode "a/trait.X.js"
      ofScriptPath path = .error (.invalidScriptPath path) := by
  decide +kernel

end Implementors.TraitPath
