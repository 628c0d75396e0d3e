import Implementors.TraitPath
import Implementors.Proofs.Path.Components
import Implementors.Proofs.Text.Affix
import Mathlib.Data.List.TakeWhile

/-! What the place of a script says about its trait. Main statement: `ofScriptPath?_eq_some_iff`,
the last component names the trait, and the directories behind the last root are its module. -/
namespace Implementors.TraitPath

open Text

/-- The file that holds the script of a trait with the given name. -/
def fileName (name : String) : String := fileStart ++ name ++ fileEnd

theorem toList_fileName (name : String) :
    (fileName name).toList = fileStart.toList ++ (name.toList ++ fileEnd.toList) := by
  rw [fileName, String.toList_append, String.toList_append, List.append_assoc]

theorem nameOfFile?_eq_some_iff {file name : String} :
    nameOfFile? file = some name ↔ file = fileName name ∧ name ≠ "" := by
  constructor
  · intro h
    unfold nameOfFile? at h
    split at h
    · simp at h
    · next rest hstart =>
      split at h
      · simp at h
      · simp at h
      · next chars hne hend =>
        obtain rfl := Option.some.inj h
        have hfile := isPrefixOf?_eq_some_iff.mp hstart
        rw [isSuffixOf?_eq_some_iff.mp hend] at hfile
        refine ⟨String.toList_inj.mp ?_, ?_⟩
        · rw [hfile, toList_fileName, String.toList_ofList]
        · simpa using hne
  · rintro ⟨rfl, hne⟩
    have hstart := isPrefixOf?_eq_some_iff.mpr (toList_fileName name)
    have hend : fileEnd.toList.isSuffixOf? (name.toList ++ fileEnd.toList) = some name.toList :=
      isSuffixOf?_eq_some_iff.mpr rfl
    cases hn : name.toList with
    | nil => exact absurd (String.toList_inj.mp hn) hne
    | cons c chars =>
      rw [hn] at hend
      simp only [nameOfFile?, hstart, hn, hend]
      rw [← hn, String.ofList_toList]

theorem mapM_decode?_eq_some_iff {octets : List Octets} {names : List String} :
    octets.mapM decode? = some names ↔ octets = names.map encode := by
  induction octets generalizing names with
  | nil => cases names <;> simp
  | cons o octets ih =>
    simp only [List.mapM_cons, Option.bind_eq_bind, Option.bind_eq_some_iff,
      decode?_eq_some_iff, ih]
    cases names with
    | nil => simp
    | cons name names => simp

theorem takeWhile_append_cons {α : Type} {p : α → Bool} {a : α} (ha : p a = false) (l r : List α) :
    (l ++ a :: r).takeWhile p = l.takeWhile p := by
  induction l with
  | nil => simp [ha]
  | cons b l ih => simp [List.takeWhile_cons, ih]

theorem belowRoot_append_root (above below : List String) :
    belowRoot (above ++ root :: below) = belowRoot below := by
  rw [belowRoot, List.reverse_append, List.reverse_cons, List.append_assoc, List.singleton_append,
    takeWhile_append_cons (by simp)]
  rfl

theorem belowRoot_of_not_mem {directories : List String} (h : root ∉ directories) :
    belowRoot directories = directories := by
  have ht : directories.reverse.takeWhile (· != root) = directories.reverse := by
    refine List.takeWhile_eq_self_iff.mpr fun d hd => ?_
    exact bne_iff_ne.mpr fun he => h (he ▸ List.mem_reverse.mp hd)
  rw [belowRoot, ht, List.reverse_reverse]

theorem root_not_mem_belowRoot (directories : List String) : root ∉ belowRoot directories := by
  intro h
  rw [belowRoot, List.mem_reverse] at h
  have hne := List.mem_takeWhile_imp h
  exact bne_iff_ne.mp hne rfl

theorem belowRoot_subset (directories : List String) : belowRoot directories ⊆ directories := by
  intro d hd
  exact List.mem_reverse.mp (List.takeWhile_subset _ (List.mem_reverse.mp hd))

theorem encode_fileName_ne_dotDot (name : String) : encode (fileName name) ≠ Path.dotDot := by
  intro h
  have hd : fileName name = ".." := encode_inj.mp h
  have hl := congrArg String.toList hd
  rw [toList_fileName] at hl
  simp [fileStart] at hl

theorem ofScriptPath?_eq_some_iff {path : Octets} {p : TraitPath} :
    ofScriptPath? path = some p ↔
      ∃ directories names, Path.components path = directories ++ [encode (fileName p.name)] ∧
        p.name ≠ "" ∧ directories.filter (· != Path.dotDot) = names.map encode ∧
        p.module = belowRoot names := by
  constructor
  · intro h
    simp only [ofScriptPath?] at h
    split at h
    · simp at h
    · next last hlast =>
      split at h
      · simp at h
      · split at h
        · simp at h
        · next name hname =>
          split at h
          · simp at h
          · next names hnames =>
            obtain rfl := Option.some.inj h
            obtain ⟨file, hfile, hn⟩ := Option.bind_eq_some_iff.mp hname
            obtain ⟨rfl, hne⟩ := nameOfFile?_eq_some_iff.mp hn
            obtain rfl := decode?_eq_some_iff.mp hfile
            refine ⟨(Path.components path).dropLast, names, ?_, hne,
              mapM_decode?_eq_some_iff.mp hnames, rfl⟩
            exact (List.dropLast_append_getLast? _ hlast).symm
  · rintro ⟨directories, names, hc, hne, hd, hm⟩
    have hname : (decode? (encode (fileName p.name))).bind nameOfFile? = some p.name := by
      rw [decode?_encode, Option.bind_some]
      exact nameOfFile?_eq_some_iff.mpr ⟨rfl, hne⟩
    simp only [ofScriptPath?, hc, List.getLast?_concat, if_neg (encode_fileName_ne_dotDot p.name),
      hname, List.dropLast_concat, mapM_decode?_eq_some_iff.mpr hd, ← hm]

end Implementors.TraitPath
