import Implementors.Proofs.Json.OneLine
import Implementors.Proofs.Script.EntryGrammar
import Implementors.Proofs.Script.EntryLines

/-! What a script means: the lists that its entry lines assign last, or else the fault of the
first line that is no entry, told as that line alone would tell it. -/
namespace Implementors.Script

open Json Registry

theorem afterChar_subset {c : Char} {s r : List Char} (h : afterChar c s = some r) : r ⊆ s := by
  cases s with
  | nil => simp [afterChar] at h
  | cons d s =>
    rw [afterChar] at h
    split at h
    · exact Option.some.inj h ▸ List.subset_cons_self d s
    · simp at h

theorem listText_subset {s listed : List Char} (h : listText s = some listed) : listed ⊆ s := by
  obtain ⟨t, ht, hl⟩ := Option.bind_eq_some_iff.mp h
  obtain ⟨u, hu, ht⟩ := Option.bind_eq_some_iff.mp ht
  have hs : Text.trimStart s ⊆ s := (List.dropWhile_sublist Text.isBlank).subset
  have hv : Text.trimStart u ⊆ u := (List.dropWhile_sublist Text.isBlank).subset
  have hw : listed ⊆ Text.trim t := by
    rw [Text.isSuffixOf?_eq_some_iff.mp hl]
    exact List.subset_append_left _ _
  intro c hc
  exact hs (afterChar_subset hu (hv (afterChar_subset ht (Text.trim_subset t (hw hc)))))

theorem readEntry_json_line {text : List Char} {error : Json.Error} (hn : '\n' ∉ text)
    (h : readEntry text = .error (.json error)) : error.line = 1 := by
  unfold readEntry at h
  split at h
  · simp at h
  · split at h
    · next fault _ =>
      simp only [Except.error.injEq, EntryFault.json.injEq] at h
      exact h ▸ Fault.within_line hn fault
    · next hs =>
      split at h
      · simp at h
      · next hl =>
        split at h
        · next hr =>
          simp only [Except.error.injEq, EntryFault.json.injEq] at h
          refine h ▸ Reader.readAll_line (fun hm => hn ?_) hr
          exact (Reader.isExact_string.exact hs).suffix.subset (listText_subset hl hm)
        · simp at h

theorem ofScript_eq (p : TraitPath) (source : String) :
    Fragment.ofScript p source = (assign .empty (entryLines source)).map fun r => ⟨p, r⟩ := by
  rw [Fragment.ofScript, parse_eq_assign]
  cases assign .empty (entryLines source) <;> rfl

/-- The fragment of a script whose entry lines are all well formed. -/
theorem ofScript_of_wellFormed (p : TraitPath) {source : String}
    (h : ∀ l ∈ entryLines source, l.IsWellFormed) :
    Fragment.ofScript p source = .ok ⟨p, Registry.empty.setAll (assigned source)⟩ := by
  rw [ofScript_eq, assign_of_wellFormed .empty h]
  rfl

/-- A faulty line behind well-formed ones gives the error, and gives it alone as well. -/
theorem ofScript_of_fault (p : TraitPath) {source : String} {before after : List EntryLine}
    {l : EntryLine} {fault : EntryFault} (hs : entryLines source = before ++ l :: after)
    (hb : ∀ m ∈ before, m.IsWellFormed) (hl : readEntry l.text = .error fault) :
    Fragment.ofScript p source = .error (fault.onLine l.number) ∧
      Fragment.ofScript p (String.ofList l.line) = .error (fault.onLine 1) := by
  have hm : l ∈ entryLines source := hs ▸ List.mem_append_right _ List.mem_cons_self
  constructor
  · rw [ofScript_eq, hs, assign_of_fault .empty hb hl]
    rfl
  · rw [ofScript_eq, entryLines_alone hm]
    simp only [assign, hl]
    rfl

theorem readEntry_eq_ok_iff_of_mem {source : String} {l : EntryLine} (h : l ∈ entryLines source)
    {e : LibraryEntry} :
    readEntry l.text = .ok e ↔ ∃ x : EntryParts, x.Reads e ∧ x.text = l.text := by
  obtain ⟨-, -, htrim⟩ := mem_entryLines.mp h
  exact readEntry_eq_ok_iff (entryText?_eq_some_iff.mpr htrim)

/-- An entry line is well formed when it has the parts of an entry, and a script is read exactly
when all its entry lines are. Each library then has the list of the last line that names it, in
whatever way the name is escaped. Otherwise the error is that of the first faulty line, under
its number among all lines, and is the error of this line as a script of its own. -/
theorem ofScript_meaning (p : TraitPath) (source : String) :
    (∀ l ∈ entryLines source, ∀ e,
      readEntry l.text = .ok e ↔ ∃ x : EntryParts, x.Reads e ∧ x.text = l.text) ∧
    ((∃ f, Fragment.ofScript p source = .ok f) ↔ ∀ l ∈ entryLines source, l.IsWellFormed) ∧
    (∀ f, Fragment.ofScript p source = .ok f → f.traitPath = p ∧
      (∀ name, f.implementors.library? name = lastList name (assigned source)) ∧
      ∀ e ∈ f.implementors.entries, e ∈ assigned source) ∧
    (∀ error, Fragment.ofScript p source = .error error →
      ∃ before l after fault, entryLines source = before ++ l :: after ∧
        (∀ m ∈ before, m.IsWellFormed) ∧ readEntry l.text = .error fault ∧
        error = fault.onLine l.number ∧
        Fragment.ofScript p (String.ofList l.line) = .error (fault.onLine 1) ∧
        ∀ inner, fault = .json inner → inner.line = 1) := by
  refine ⟨fun l hl e => readEntry_eq_ok_iff_of_mem hl, ?_⟩
  by_cases h : ∀ l ∈ entryLines source, l.IsWellFormed
  · have hok := ofScript_of_wellFormed p h
    refine ⟨⟨fun _ => h, fun _ => ⟨_, hok⟩⟩, fun f hf => ?_, fun error he => ?_⟩
    · obtain rfl : _ = f := Except.ok.inj (hok.symm.trans hf)
      refine ⟨rfl, fun name => ?_, fun e he => ?_⟩
      · rw [library?_setAll, library?_empty, Option.or_none]
      · exact (mem_entries_setAll he).resolve_right List.not_mem_nil
    · exact absurd (hok.symm.trans he) (by simp)
  · obtain ⟨before, l, after, fault, hs, hb, hl⟩ := exists_first_fault h
    obtain ⟨herr, halone⟩ := ofScript_of_fault p hs hb hl
    refine ⟨⟨fun ⟨f, hf⟩ => ?_, fun hw => absurd hw h⟩, fun f hf => ?_, fun error he => ?_⟩
    · exact absurd (hf.symm.trans herr) (by simp)
    · exact absurd (hf.symm.trans herr) (by simp)
    · have hm : l ∈ entryLines source := hs ▸ List.mem_append_right _ List.mem_cons_self
      have hn : '\n' ∉ l.text := fun hc =>
        no_feed_of_mem_entryLines hm (text_subset_of_mem_entryLines hm hc)
      refine ⟨before, l, after, fault, hs, hb, hl, ?_, halone, fun inner hi => ?_⟩
      · exact Except.error.inj (he.symm.trans herr)
      · exact readEntry_json_line hn (hi ▸ hl)

/-- One name in two escapings, with a list each; and a faulty line before another one. -/
theorem ofScript_meaning_third_line :
    let twice := "implementors[\"a\\u0062\"] = [\x7b\"text\":\"old\"\x7d];\n// b\n" ++
      "implementors[\"ab\"] = [\x7b\"text\":\"new\"\x7d];\nimplementors[\"c\"] = [];"
    let faulty := "// a\r\nimplementors[\"a\"] = [];\n implementors[\"b\"] [];\nimplementors[c"
    let read : Fragment := ⟨⟨[], "T"⟩, .ofList [("ab", [⟨"new", false, []⟩]), ("c", [])]⟩
    Fragment.ofScript ⟨[], "T"⟩ twice = .ok read ∧
    assigned twice =
      [("ab", [⟨"old", false, []⟩]), ("ab", [⟨"new", false, []⟩]), ("c", [])] ∧
    (∀ l ∈ entryLines twice, ∃ (e : LibraryEntry) (x : EntryParts), x.Reads e ∧ x.text = l.text) ∧
    read.implementors.library? "ab" = some [⟨"new", false, []⟩] ∧
    read.implementors.library? "a" = none ∧
    Fragment.ofScript ⟨[], "T"⟩ faulty = .error (.malformedEntry 3) ∧
    ∃ before l after fault, entryLines faulty = before ++ l :: after ∧
      (∀ m ∈ before, m.IsWellFormed) ∧ readEntry l.text = .error fault ∧
      Error.malformedEntry 3 = fault.onLine l.number ∧
      Fragment.ofScript ⟨[], "T"⟩ (String.ofList l.line) = .error (fault.onLine 1) ∧
      ∀ inner, fault = .json inner → inner.line = 1 := by
  intro twice faulty read
  have hread : Fragment.ofScript ⟨[], "T"⟩ twice = .ok read := by decide +kernel
  have hassigned : assigned twice =
      [("ab", [⟨"old", false, []⟩]), ("ab", [⟨"new", false, []⟩]), ("c", [])] := by decide +kernel
  have hfault : Fragment.ofScript ⟨[], "T"⟩ faulty = .error (.malformedEntry 3) := by
    decide +kernel
  obtain ⟨hparts, hiff, hlists, -⟩ := ofScript_meaning ⟨[], "T"⟩ twice
  obtain ⟨-, hlast, -⟩ := hlists read hread
  rw [hassigned] at hlast
  obtain ⟨-, -, -, hfirst⟩ := ofScript_meaning ⟨[], "T"⟩ faulty
  refine ⟨hread, hassigned, fun l hl => ?_, hlast "ab", hlast "a", hfault, hfirst _ hfault⟩
  obtain ⟨e, he⟩ := hiff.mp ⟨read, hread⟩ l hl
  exact ⟨e, (hparts l hl e).mp he⟩

end Implementors.Script
