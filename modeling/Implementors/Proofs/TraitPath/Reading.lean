import Implementors.Proofs.Path.Spelling
import Implementors.Proofs.TraitPath.RoundTrip

/-! Which paths are read as a trait, and as which. Main statement: `ofScriptPath_exact`, the names
on a path decide, however the path is spelled. -/
namespace Implementors.TraitPath

open Text

/-- The module that directories stand for: those behind the last root, or all of them if none is
a root. -/
def IsBehindLastRoot (directories module : List String) : Prop :=
  root ∉ module ∧ (directories = module ∨ ∃ above, directories = above ++ root :: module)

theorem exists_isBehindLastRoot (directories : List String) :
    ∃ module, IsBehindLastRoot directories module := by
  induction directories with
  | nil => exact ⟨[], List.not_mem_nil, .inl rfl⟩
  | cons d directories ih =>
    obtain ⟨module, hm, rfl | ⟨above, rfl⟩⟩ := ih
    · by_cases hd : d = root
      · exact ⟨directories, hm, .inr ⟨[], by rw [hd, List.nil_append]⟩⟩
      · exact ⟨d :: directories, List.not_mem_cons_of_ne_of_not_mem (Ne.symm hd) hm, .inl rfl⟩
    · exact ⟨module, hm, .inr ⟨d :: above, rfl⟩⟩

theorem IsBehindLastRoot.belowRoot_eq {directories module : List String}
    (h : IsBehindLastRoot directories module) : belowRoot directories = module := by
  obtain ⟨hm, rfl | ⟨above, rfl⟩⟩ := h
  · exact belowRoot_of_not_mem hm
  · rw [belowRoot_append_root, belowRoot_of_not_mem hm]

theorem belowRoot_eq_iff {directories module : List String} :
    belowRoot directories = module ↔ IsBehindLastRoot directories module := by
  refine ⟨fun h => ?_, fun h => h.belowRoot_eq⟩
  obtain ⟨module', h'⟩ := exists_isBehindLastRoot directories
  rwa [← h, h'.belowRoot_eq]

/-- A path leads to the script of a trait through directories. Parent marks on the way are none of
them. -/
structure LeadsTo (path : Octets) (directories : List String) (name : String) : Prop where
  name_ne_empty : name ≠ ""
  spells : ∃ way, Path.Spells path (way ++ [encode (fileName name)]) ∧
    way.filter (· != Path.dotDot) = directories.map encode

/-- Two paths go the same way: they differ in spelling and in parent marks before the last name. -/
def SameWay (path other : Octets) : Prop :=
  ∃ way way' last, Path.Spells path (way ++ [last]) ∧ Path.Spells other (way' ++ [last]) ∧
    way.filter (· != Path.dotDot) = way'.filter (· != Path.dotDot)

theorem ofScriptPath_eq_ok_iff_leadsTo {path : Octets} {p : TraitPath} :
    ofScriptPath path = .ok p ↔
      ∃ directories, LeadsTo path directories p.name ∧ IsBehindLastRoot directories p.module := by
  rw [ofScriptPath_eq_ok_iff, ofScriptPath?_eq_some_iff]
  constructor
  · rintro ⟨way, names, hc, hne, hd, hm⟩
    exact ⟨names, ⟨hne, way, Path.spells_iff.mpr hc, hd⟩, belowRoot_eq_iff.mp hm.symm⟩
  · rintro ⟨names, ⟨hne, way, hs, hd⟩, hm⟩
    exact ⟨way, names, Path.spells_iff.mp hs, hne, hd, (belowRoot_eq_iff.mpr hm).symm⟩

theorem LeadsTo.of_sameWay {path other : Octets} {directories : List String} {name : String}
    (h : LeadsTo path directories name) (hw : SameWay path other) :
    LeadsTo other directories name := by
  obtain ⟨way, way', last, hs, hs', hf⟩ := hw
  obtain ⟨inner, hi, hd⟩ := h.spells
  have hc : inner ++ [encode (fileName name)] = way ++ [last] :=
    (Path.spells_iff.mp hi).symm.trans (Path.spells_iff.mp hs)
  obtain ⟨rfl, hlast⟩ := List.append_inj' hc rfl
  obtain rfl := List.singleton_inj.mp hlast
  exact ⟨h.name_ne_empty, way', hs', hf ▸ hd⟩

theorem SameWay.symm {path other : Octets} (h : SameWay path other) : SameWay other path := by
  obtain ⟨way, way', last, hs, hs', hf⟩ := h
  exact ⟨way', way, last, hs', hs, hf.symm⟩

/-- A path is read as a trait exactly when it leads to a script. The file names the trait, and the
directories behind the last root are its module. Any other path is invalid, and paths that go the
same way are read alike. -/
theorem ofScriptPath_exact (path : Octets) :
    ((∃ p, ofScriptPath path = .ok p) ↔ ∃ directories name, LeadsTo path directories name) ∧
    (∀ p, ofScriptPath path = .ok p ↔
      ∃ directories, LeadsTo path directories p.name ∧ IsBehindLastRoot directories p.module) ∧
    ((¬ ∃ directories name, LeadsTo path directories name) →
      ofScriptPath path = .error (.invalidScriptPath path)) ∧
    ∀ other, SameWay path other → ∀ p, ofScriptPath path = .ok p ↔ ofScriptPath other = .ok p := by
  have hreads : (∃ p, ofScriptPath path = .ok p) ↔
      ∃ directories name, LeadsTo path directories name := by
    constructor
    · rintro ⟨p, hp⟩
      obtain ⟨directories, h, -⟩ := ofScriptPath_eq_ok_iff_leadsTo.mp hp
      exact ⟨directories, p.name, h⟩
    · rintro ⟨directories, name, h⟩
      obtain ⟨module, hm⟩ := exists_isBehindLastRoot directories
      exact ⟨⟨module, name⟩, ofScriptPath_eq_ok_iff_leadsTo.mpr ⟨directories, h, hm⟩⟩
  refine ⟨hreads, fun p => ofScriptPath_eq_ok_iff_leadsTo, fun h => ?_, fun other hw p => ?_⟩
  · have hnone : ∀ p, ofScriptPath? path ≠ some p := fun p hp =>
      h (hreads.mp ⟨p, ofScriptPath_eq_ok_iff.mpr hp⟩)
    rw [ofScriptPath, Option.eq_none_iff_forall_ne_some.mpr hnone]
  · rw [ofScriptPath_eq_ok_iff_leadsTo, ofScriptPath_eq_ok_iff_leadsTo]
    constructor
    · rintro ⟨directories, h, hm⟩
      exact ⟨directories, h.of_sameWay hw, hm⟩
    · rintro ⟨directories, h, hm⟩
      exact ⟨directories, h.of_sameWay hw.symm, hm⟩

theorem ofScriptPath_exact_spelled :
    let path := encode "/doc/implementors//./core/../ops/trait.Fn.js/"
    let other := encode "doc/implementors/core/ops/trait.Fn.js"
    let broken := encode "doc/trait.Fn.js/.."
    LeadsTo path ["doc", "implementors", "core", "ops"] "Fn" ∧
    IsBehindLastRoot ["doc", "implementors", "core", "ops"] ["core", "ops"] ∧
    ofScriptPath path = .ok ⟨["core", "ops"], "Fn"⟩ ∧
    SameWay path other ∧ ofScriptPath other = .ok ⟨["core", "ops"], "Fn"⟩ ∧
    (¬ ∃ directories name, LeadsTo broken directories name) ∧
    ofScriptPath broken = .error (.invalidScriptPath broken) := by
  intro path other broken
  have hl : LeadsTo path ["doc", "implementors", "core", "ops"] "Fn" :=
    ⟨by decide, ["doc", "implementors", "core", "..", "ops"].map encode,
      Path.spells_iff.mpr (by decide +kernel), by decide +kernel⟩
  have hm : IsBehindLastRoot ["doc", "implementors", "core", "ops"] ["core", "ops"] :=
    ⟨by decide, .inr ⟨["doc"], rfl⟩⟩
  have hw : SameWay path other :=
    ⟨["doc", "implementors", "core", "..", "ops"].map encode,
      ["doc", "implementors", "core", "ops"].map encode, encode (fileName "Fn"),
      Path.spells_iff.mpr (by decide +kernel), Path.spells_iff.mpr (by decide +kernel),
      by decide +kernel⟩
  have hbroken : ¬ ∃ directories name, LeadsTo broken directories name := by
    rintro ⟨directories, name, h⟩
    obtain ⟨way, hs, -⟩ := h.spells
    have hc : ["doc", "trait.Fn.js", ".."].map encode = way ++ [encode (fileName name)] :=
      (show Path.components broken = _ by decide +kernel).symm.trans (Path.spells_iff.mp hs)
    have hlast := congrArg List.getLast? hc
    rw [List.getLast?_concat] at hlast
    exact encode_fileName_ne_dotDot name (Option.some.inj hlast).symm
  obtain ⟨-, hok, -, hsame⟩ := ofScriptPath_exact path
  have hpath := (hok ⟨["core", "ops"], "Fn"⟩).mpr ⟨_, hl, hm⟩
  exact ⟨hl, hm, hpath, hw, (hsame other hw _).mp hpath, hbroken,
    (ofScriptPath_exact broken).2.2.1 hbroken⟩

end Implementors.TraitPath
