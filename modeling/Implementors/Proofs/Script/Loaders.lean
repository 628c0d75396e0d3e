import Implementors.Proofs.Registry.Content
import Implementors.Proofs.Script.RoundTrip

/-! The ways to build a registry from entries agree, and a later list for a library replaces an
earlier one in all of them. -/
namespace Implementors.Script

open Json Registry

theorem isScript_entries (entries : List LibraryEntry) :
    IsScript (entries.map written) (String.ofList (entries.flatMap entryLine)) := by
  have hlines := lines_entries entries []
  rw [List.append_nil, Text.lines_nil, List.append_nil] at hlines
  left
  rw [String.toList_ofList, hlines]

/-- Each library gets the list that comes last under its name, whether entries are set one after
the other, stand in a script with a line for each, or in a JSON object with a member for each. The
spelling of names and lists does not matter, and every list of entries has such a script. -/
theorem loaders_agree (p : TraitPath) (ps : List LibraryEntry) :
    (∀ name, (ofList ps).library? name = lastList name ps) ∧
    ps.foldl (fun r e => (r.insert e.1 e.2).2) empty = ofList ps ∧
    (∃ xs source, xs.map Spelling.entry = ps ∧ IsScript xs source) ∧
    (∀ xs source, xs.map Spelling.entry = ps → IsScript xs source →
      Fragment.ofScript p source = .ok ⟨p, ofList ps⟩) ∧
    ∀ xs before blanks after, xs.map Spelling.entry = ps → Blanks before → Blanks blanks →
      Blanks after → Registry.ofJson (String.ofList (before ++ (objectText blanks xs ++ after))) =
        .ok (ofList ps) := by
  refine ⟨library?_ofList ps, rfl, ?_, ?_, ?_⟩
  · exact ⟨ps.map written, _, map_entry_written ps, isScript_entries ps⟩
  · rintro xs source rfl hs
    rw [Fragment.ofScript, parse_of_isScript hs]
  · rintro xs before blanks after rfl hb hblanks ha
    have hread := (takes_objectText hblanks xs).run before after hb
    rw [Registry.ofJson, String.toList_ofList]
    exact Reader.readAll_eq_ok_iff.mpr ⟨after, ha, hread⟩

theorem loaders_agree_repeated :
    ∃ xs : List Spelling,
      xs.map Spelling.entry = [("a", [⟨"A", false, []⟩]), ("b", []), ("a", [])] ∧
      IsScript xs ("implementors[ \"a\"] = [\x7b\"text\":\"A\"\x7d];\r\n" ++
        "implementors[\"b\"\t] = [ ];\nimplementors[\"\\u0061\"] = [];") ∧
      Fragment.ofScript ⟨[], "T"⟩ ("implementors[ \"a\"] = [\x7b\"text\":\"A\"\x7d];\r\n" ++
          "implementors[\"b\"\t] = [ ];\nimplementors[\"\\u0061\"] = [];") =
        .ok ⟨⟨[], "T"⟩, ofList [("a", [⟨"A", false, []⟩]), ("b", []), ("a", [])]⟩ ∧
      Blanks ['\n'] ∧ Blanks [] ∧
      objectText [] xs =
        "\x7b \"a\":[\x7b\"text\":\"A\"\x7d],\"b\"\t:[ ],\"\\u0061\":[]\x7d".toList ∧
      Registry.ofJson (String.ofList (['\n'] ++ (objectText [] xs ++ []))) =
        .ok (ofList [("a", [⟨"A", false, []⟩]), ("b", []), ("a", [])]) := by
  obtain ⟨xs, hentries, hscript, hobject⟩ : ∃ xs : List Spelling,
      xs.map Spelling.entry = [("a", [⟨"A", false, []⟩]), ("b", []), ("a", [])] ∧
      IsScript xs ("implementors[ \"a\"] = [\x7b\"text\":\"A\"\x7d];\r\n" ++
        "implementors[\"b\"\t] = [ ];\nimplementors[\"\\u0061\"] = [];") ∧
      objectText [] xs =
        "\x7b \"a\":[\x7b\"text\":\"A\"\x7d],\"b\"\t:[ ],\"\\u0061\":[]\x7d".toList := by
    refine ⟨[⟨" \"a\"".toList, "[\x7b\"text\":\"A\"\x7d]".toList,
        ("a", [⟨"A", false, []⟩]), ?_, ?_⟩,
      ⟨"\"b\"\t".toList, "[ ]".toList, ("b", []), ?_, ?_⟩,
      ⟨"\"\\u0061\"".toList, "[]".toList, ("a", []), ?_, ?_⟩], rfl, .inl ?_, ?_⟩
    all_goals decide +kernel
  obtain ⟨-, -, -, hs, ho⟩ :=
    loaders_agree ⟨[], "T"⟩ [("a", [⟨"A", false, []⟩]), ("b", []), ("a", [])]
  exact ⟨xs, hentries, hscript, hs xs _ hentries hscript, rfl, rfl, hobject,
    ho xs _ _ _ hentries rfl rfl rfl⟩

end Implementors.Script
