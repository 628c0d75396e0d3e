import Implementors.Proofs.Path.Texts
import Implementors.Proofs.Script.RoundTrip
import Implementors.Proofs.TraitPath.Above
import Implementors.Proofs.Tree.Standing

/-! Scripts in a documentation tree. Main statement: `read_stored`, the script of a fragment that
stands at its place below any directory is read as this fragment. -/
namespace Implementors

open Text

namespace TraitPath

theorem isReadable_encode (way : String) : IsReadable (encode way) := by
  intro d hd _
  obtain ⟨name, rfl⟩ := Path.exists_components_encode way d hd
  rw [decode?_encode]
  rfl

theorem startsWithSlash_scriptPath {p : TraitPath} (h : p.IsWellFormed) :
    Path.startsWithSlash p.scriptPath = false := by
  refine Bool.eq_false_iff.mpr fun hs => ?_
  obtain ⟨rest, hrest⟩ := List.head?_eq_some_iff.mp (beq_iff_eq.mp hs)
  have hslash : String.utf8EncodeChar '/' = [Path.slash] := by decide
  have hroot : (encode root).head? = some 0x69 := by decide
  have hfirst : (encode p.scriptPath).head? = some Path.slash := by
    rw [encode_eq_flatMap, hrest, List.flatMap_cons, hslash]
    rfl
  rw [encode_scriptPath h, Path.join, List.head?_append, hroot, Option.some_or] at hfirst
  exact absurd (Option.some.inj hfirst) (by decide)

/-- Whatever the directories above are called, the written place is found behind them. -/
theorem ofScriptPath?_push {p : TraitPath} (hp : ofScriptPath? (encode p.scriptPath) = some p)
    (above : String) : ofScriptPath? (encode (Path.push above p.scriptPath)) = some p := by
  have hw := isWellFormed_of_ofScriptPath? hp
  obtain ⟨before, hpush, hbefore⟩ := Path.exists_push above (startsWithSlash_scriptPath hw)
  let names := p.module.map encode ++ [encode (fileName p.name)]
  have hscript : Path.components (encode p.scriptPath) = encode root :: names :=
    components_scriptPath hw
  have hbelow : Path.components (Path.join [] names) = names :=
    Path.components_join [] fun n hn =>
      Path.isComponent_of_mem (hscript ▸ List.mem_cons_of_mem _ hn)
  have hstart : Path.components (encode p.scriptPath) =
      Path.components [] ++ encode root :: Path.components (Path.join [] names) := by
    rw [hscript, hbelow]
    rfl
  have hpath : Path.components (encode (Path.push above p.scriptPath)) =
      Path.components (encode above) ++
        encode root :: Path.components (Path.join [] names) := by
    rw [hpush, encode_append, hbefore, hscript, hbelow]
  rw [ofScriptPath?_eq_some_iff_of_root hstart] at hp
  exact (ofScriptPath?_eq_some_iff_of_root hpath).mpr ⟨isReadable_encode above, hp.2⟩

end TraitPath

namespace Fragment

theorem getLast?_steps_push {p : TraitPath} (h : p.IsWellFormed) (above : String) :
    (Tree.steps (encode (Path.push above p.scriptPath))).getLast? =
      some (encode (TraitPath.fileName p.name)) := by
  obtain ⟨before, hpush, -⟩ := Path.exists_push above (TraitPath.startsWithSlash_scriptPath h)
  have hpath : encode (Path.push above p.scriptPath) =
      (encode before ++ Path.join (encode TraitPath.root) (p.module.map encode)) ++
        Path.slash :: encode (TraitPath.fileName p.name) := by
    rw [hpush, encode_append, TraitPath.encode_scriptPath h, List.map_append]
    simp [Path.join]
  rw [hpath]
  exact Tree.getLast?_steps (TraitPath.isComponent_encode_fileName_iff.mpr h.name_no_slash)

/-- A script that is written to the place of its fragment, below any directory of any name and in
any tree, is read back from there as the same fragment. -/
theorem read_stored {p : TraitPath} (hp : TraitPath.ofScriptPath (encode p.scriptPath) = .ok p)
    (r : Registry) (above : String) {t : Tree}
    (h : t.HasFile (encode (Path.push above p.scriptPath)) (encode (toScript ⟨p, r⟩))) :
    read t (encode (Path.push above p.scriptPath)) = .ok ⟨p, r⟩ := by
  have hscript := TraitPath.ofScriptPath_eq_ok_iff.mp hp
  have hw := TraitPath.isWellFormed_of_ofScriptPath? hscript
  have htrait : TraitPath.ofScriptPath (encode (Path.push above p.scriptPath)) = .ok p :=
    TraitPath.ofScriptPath_eq_ok_iff.mpr (TraitPath.ofScriptPath?_push hscript above)
  have hlast : (Tree.steps (encode (Path.push above p.scriptPath))).getLast? ≠ some Path.dot := by
    rw [getLast?_steps_push hw above]
    intro he
    exact (TraitPath.isComponent_encode_fileName_iff.mpr hw.name_no_slash).ne_dot
      (Option.some.inj he)
  have htext : t.readText (encode (Path.push above p.scriptPath)) = .ok (toScript ⟨p, r⟩) := by
    rw [Tree.readText, Tree.readOctets_of_hasFile h hlast]
    simp only [decode?_encode]
  rw [read, htrait]
  simp only [htext]
  rw [ofScript, toScript, Script.parse_render]

theorem read_stored_below_roots :
    let p : TraitPath := ⟨["ops"], "Fn"⟩
    let r := Registry.ofList [("lib", [⟨"impl Fn for \"A\"", false, ["A"]⟩])]
    let above := "../implementors/."
    let path := encode (Path.push above p.scriptPath)
    let place := ["..", "implementors", "implementors", "ops", "trait.Fn.js"].map encode
    let t := (Tree.addDirectory {} (encode "../implementors/implementors/ops")).put place
      (.file (encode (toScript ⟨p, r⟩)))
    TraitPath.ofScriptPath (encode p.scriptPath) = .ok p ∧
    t.HasFile path (encode (toScript ⟨p, r⟩)) ∧ read t path = .ok ⟨p, r⟩ := by
  intro p r above path place t
  have hp : TraitPath.ofScriptPath (encode p.scriptPath) = .ok p := by decide +kernel
  have hcomponents : Path.components path = place := by decide +kernel
  have hplace : Tree.parent (Tree.start path) ++ [encode "implementors"] ++
      [encode "implementors"] ++ [encode "ops"] ++ [encode "trait.Fn.js"] = place := by
    decide +kernel
  have hleads : t.Leads (Tree.start path) (Path.components path) place := by
    rw [hcomponents]
    apply Tree.Leads.up (by decide +kernel)
    apply Tree.Leads.down (by decide +kernel) (by decide)
    apply Tree.Leads.down (by decide +kernel) (by decide)
    apply Tree.Leads.down (by decide +kernel) (by decide)
    apply Tree.Leads.down (by decide +kernel) (by decide)
    rw [hplace]
    exact .here
  have h : t.HasFile path (encode (toScript ⟨p, r⟩)) :=
    ⟨by decide +kernel, by decide +kernel, by decide +kernel, place, hleads,
      Tree.node?_put_self (by decide) _⟩
  exact ⟨hp, h, read_stored hp r above h⟩

end Fragment
end Implementors
