import Implementors.Proofs.TraitPath.Location

/-! Trait paths that the place of their script tells. Writing the place and reading it are inverse
on them, and no place at all is read as another trait path. -/
namespace Implementors.TraitPath

open Text

/-- What a directory of a script's place can be read as: a segment of a module path. -/
structure IsSegment (s : String) : Prop where
  ne_empty : s ≠ ""
  no_slash : '/' ∉ s.toList
  ne_dot : s ≠ "."
  ne_dotDot : s ≠ ".."
  ne_root : s ≠ root

structure IsWellFormed (p : TraitPath) : Prop where
  name_ne_empty : p.name ≠ ""
  name_no_slash : '/' ∉ p.name.toList
  segments : ∀ s ∈ p.module, IsSegment s

theorem isComponent_encode_fileName_iff {name : String} :
    Path.IsComponent (encode (fileName name)) ↔ '/' ∉ name.toList := by
  have hstart : '/' ∉ fileStart.toList := by decide
  have hend : '/' ∉ fileEnd.toList := by decide
  have hslash : '/' ∈ (fileName name).toList ↔ '/' ∈ name.toList := by
    simp [toList_fileName, hstart, hend]
  rw [Path.isComponent_encode_iff, hslash]
  refine ⟨fun h => h.2.2, fun h => ⟨?_, ?_, h⟩⟩
  · intro he
    have hl := congrArg String.toList he
    simp [toList_fileName, fileStart] at hl
  · intro he
    have hl := congrArg String.toList he
    simp [toList_fileName, fileStart] at hl

/-- The names below a documentation tree that lead to a script. -/
theorem scriptPath_eq_foldl (p : TraitPath) :
    p.scriptPath = (p.module ++ [fileName p.name]).foldl Path.push root := by
  rw [List.foldl_append]
  rfl

theorem IsWellFormed.isComponent {p : TraitPath} (h : p.IsWellFormed) :
    ∀ n ∈ p.module ++ [fileName p.name], Path.IsComponent (encode n) := by
  intro n hn
  rcases List.mem_append.mp hn with hn | hn
  · have hs := h.segments n hn
    exact Path.isComponent_encode_iff.mpr ⟨hs.ne_empty, hs.ne_dot, hs.no_slash⟩
  · exact List.mem_singleton.mp hn ▸ isComponent_encode_fileName_iff.mpr h.name_no_slash

theorem encode_scriptPath {p : TraitPath} (h : p.IsWellFormed) :
    encode p.scriptPath =
      Path.join (encode root) ((p.module ++ [fileName p.name]).map encode) := by
  have hroot_ne : root ≠ "" := by decide
  rw [scriptPath_eq_foldl]
  exact Path.encode_foldl_push hroot_ne (by decide) fun n hn =>
    have hc := Path.isComponent_encode_iff.mp (h.isComponent n hn)
    ⟨hc.1, hc.2.2⟩

theorem components_scriptPath {p : TraitPath} (h : p.IsWellFormed) :
    Path.components (encode p.scriptPath) =
      (root :: p.module).map encode ++ [encode (fileName p.name)] := by
  have hroot : Path.components (encode root) = [encode root] :=
    Path.components_of_isComponent (Path.isComponent_encode_iff.mpr (by decide))
  rw [encode_scriptPath h, Path.components_join, hroot]
  · simp
  · intro o ho
    obtain ⟨n, hn, rfl⟩ := List.mem_map.mp ho
    exact h.isComponent n hn

theorem ofScriptPath?_scriptPath {p : TraitPath} (h : p.IsWellFormed) :
    ofScriptPath? (encode p.scriptPath) = some p := by
  have hkept : ((root :: p.module).map encode).filter (· != Path.dotDot) =
      (root :: p.module).map encode := by
    refine List.filter_eq_self.mpr fun o ho => ?_
    obtain ⟨s, hs, rfl⟩ := List.mem_map.mp ho
    have hne : s ≠ ".." := by
      rcases List.mem_cons.mp hs with rfl | hs
      · decide
      · exact (h.segments s hs).ne_dotDot
    exact bne_iff_ne.mpr fun he => hne (encode_inj.mp he)
  have hmodule : p.module = belowRoot (root :: p.module) := by
    have hmem : root ∉ p.module := fun hr => (h.segments root hr).ne_root rfl
    rw [← List.nil_append (root :: p.module), belowRoot_append_root, belowRoot_of_not_mem hmem]
  exact ofScriptPath?_eq_some_iff.mpr
    ⟨_, _, components_scriptPath h, h.name_ne_empty, hkept, hmodule⟩

theorem isWellFormed_of_ofScriptPath? {path : Octets} {p : TraitPath}
    (h : ofScriptPath? path = some p) : p.IsWellFormed := by
  obtain ⟨directories, names, hc, hne, hd, hm⟩ := ofScriptPath?_eq_some_iff.mp h
  have hcomponent : ∀ o ∈ directories ++ [encode (fileName p.name)], Path.IsComponent o :=
    fun o ho => Path.isComponent_of_mem (hc ▸ ho)
  refine ⟨hne, ?_, fun s hs => ?_⟩
  · exact isComponent_encode_fileName_iff.mp
      (hcomponent _ (List.mem_append_right _ List.mem_cons_self))
  · rw [hm] at hs
    have ho : encode s ∈ directories.filter (· != Path.dotDot) :=
      hd ▸ List.mem_map_of_mem (belowRoot_subset names hs)
    obtain ⟨hdir, hdots⟩ := List.mem_filter.mp ho
    obtain ⟨hempty, hdot, hslash⟩ :=
      Path.isComponent_encode_iff.mp (hcomponent _ (List.mem_append_left _ hdir))
    refine ⟨hempty, hslash, hdot, fun he => ?_, fun he => ?_⟩
    · exact bne_iff_ne.mp hdots (congrArg encode he)
    · exact root_not_mem_belowRoot names (he ▸ hs)

theorem ofScriptPath_eq_ok_iff {path : Octets} {p : TraitPath} :
    ofScriptPath path = .ok p ↔ ofScriptPath? path = some p := by
  rw [ofScriptPath]
  cases ofScriptPath? path <;> simp

/-- The place of a script is read as the trait that it was written for exactly when this is well
formed. Whatever path is read as a trait, the trait is well formed, and the place of its script is
another path that is read as it. -/
theorem ofScriptPath_scriptPath_iff (p : TraitPath) :
    (ofScriptPath (encode p.scriptPath) = .ok p ↔ p.IsWellFormed) ∧
    ∀ path, ofScriptPath path = .ok p →
      p.IsWellFormed ∧ ofScriptPath (encode p.scriptPath) = .ok p := by
  simp only [ofScriptPath_eq_ok_iff]
  refine ⟨⟨isWellFormed_of_ofScriptPath?, ofScriptPath?_scriptPath⟩, fun path h => ?_⟩
  have hp := isWellFormed_of_ofScriptPath? h
  exact ⟨hp, ofScriptPath?_scriptPath hp⟩

theorem ofScriptPath_scriptPath_iff_spelled :
    ofScriptPath (encode "/doc/implementors//./core/../ops/trait.Fn.js/") =
      .ok ⟨["core", "ops"], "Fn"⟩ ∧
    IsWellFormed ⟨["core", "ops"], "Fn"⟩ ∧
    ofScriptPath (encode (scriptPath ⟨["core", "ops"], "Fn"⟩)) = .ok ⟨["core", "ops"], "Fn"⟩ := by
  have h : ofScriptPath (encode "/doc/implementors//./core/../ops/trait.Fn.js/") =
      .ok ⟨["core", "ops"], "Fn"⟩ := by decide +kernel
  exact ⟨h, (ofScriptPath_scriptPath_iff ⟨["core", "ops"], "Fn"⟩).2 _ h⟩

end Implementors.TraitPath
