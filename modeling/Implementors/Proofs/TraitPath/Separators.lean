import Implementors.TraitPath
import Mathlib.Data.List.Infix
import Mathlib.Logic.Function.Basic

/-! Trait paths as texts. Main statement: `parse_eq_iff`, a text is read as a trait path exactly
when it is the display of that path and shows no separator other than those put there. -/
namespace Implementors.TraitPath

/-- No separator begins in a segment, also none that ends with a colon right behind it. -/
def IsClosed (s : List Char) : Prop := ¬ [':', ':'] <:+: s ++ [':']

/-- A text is cut at its separators, from the left. -/
inductive Splits : List Char → List (List Char) → Prop
  | last {s} : ¬ [':', ':'] <:+: s → Splits s [s]
  | next {s rest ss} : IsClosed s → Splits rest ss → Splits (s ++ ':' :: ':' :: rest) (s :: ss)

theorem Splits.ne_nil {text : List Char} {ss : List (List Char)} (h : Splits text ss) :
    ss ≠ [] := by
  cases h with
  | last _ => exact List.cons_ne_nil _ _
  | next _ _ => exact List.cons_ne_nil _ _

theorem isClosed_iff {s : List Char} : IsClosed s ↔ ¬ [':', ':'] <:+: s ∧ ¬ [':'] <:+ s := by
  have hend : [':', ':'] <:+ s ++ [':'] ↔ [':'] <:+ s := by
    show [':'] ++ [':'] <:+ s ++ [':'] ↔ [':'] <:+ s
    exact List.suffix_append_self_iff
  rw [IsClosed, List.infix_concat_iff, not_or, hend, and_comm]

theorem segments_cons {c : Char} {rest : List Char} (h : ¬ [':', ':'] <+: c :: rest)
    {s : List Char} {ss : List (List Char)} (hs : segments rest = s :: ss) :
    segments (c :: rest) = (c :: s) :: ss := by
  rw [segments, hs]
  rintro r rfl rfl
  exact h ⟨r, rfl⟩

theorem segments_of_no_separator {s : List Char} (h : ¬ [':', ':'] <:+: s) : segments s = [s] := by
  induction s with
  | nil => rfl
  | cons c s ih =>
    obtain ⟨hstart, hs⟩ := not_or.mp (mt List.infix_cons_iff.mpr h)
    exact segments_cons hstart (ih hs)

theorem segments_append_separator {s : List Char} (h : IsClosed s) (rest : List Char) :
    segments (s ++ ':' :: ':' :: rest) = s :: segments rest := by
  induction s with
  | nil => rfl
  | cons c s ih =>
    obtain ⟨hstart, hs⟩ := not_or.mp (mt List.infix_cons_iff.mpr h)
    refine segments_cons (fun hp => hstart ?_) (ih hs)
    -- The separator at the front is over before the one behind the segment is.
    have hlong : (c :: (s ++ [':'])) <+: c :: (s ++ ':' :: ':' :: rest) := ⟨':' :: rest, by simp⟩
    exact List.prefix_of_prefix_length_le hp hlong (by simp)

theorem segments_of_splits {text : List Char} {ss : List (List Char)} (h : Splits text ss) :
    segments text = ss := by
  induction h with
  | last hs => exact segments_of_no_separator hs
  | next hs _ ih => rw [segments_append_separator hs, ih]

theorem splits_cons {c : Char} {rest s : List Char} {ss : List (List Char)}
    (hstart : ¬ [':', ':'] <+: c :: rest) (h : Splits rest (s :: ss)) :
    Splits (c :: rest) ((c :: s) :: ss) := by
  cases h with
  | last hs => exact .last fun hi => (List.infix_cons_iff.mp hi).elim hstart hs
  | @next _ more _ hs hr =>
    have hc : IsClosed (c :: s) := by
      intro hi
      rcases List.infix_cons_iff.mp hi with hp | hi
      · exact hstart (hp.trans ⟨':' :: more, by simp⟩)
      · exact hs hi
    exact .next hc hr

theorem splits_last_iff {text s : List Char} :
    Splits text [s] ↔ text = s ∧ ¬ [':', ':'] <:+: s := by
  constructor
  · rintro (h | ⟨-, h⟩)
    · exact ⟨rfl, h⟩
    · cases h
  · rintro ⟨rfl, h⟩
    exact .last h

theorem splits_next_iff {text s : List Char} {ss : List (List Char)} (hss : ss ≠ []) :
    Splits text (s :: ss) ↔ ∃ rest, text = s ++ ':' :: ':' :: rest ∧ IsClosed s ∧ Splits rest ss := by
  constructor
  · rintro (h | ⟨hs, hr⟩)
    · exact absurd rfl hss
    · exact ⟨_, rfl, hs, hr⟩
  · rintro ⟨rest, rfl, hs, hr⟩
    exact .next hs hr

theorem splits_segments (text : List Char) : Splits text (segments text) := by
  fun_induction segments text with
  | case1 => exact .last (by decide)
  | case2 rest ih =>
    have hnil : IsClosed [] := by
      show ¬ [':', ':'] <:+: [':']
      decide
    exact .next hnil ih
  | case3 c rest _ hs ih => exact absurd hs ih.ne_nil
  | case4 c rest hc s ss hs ih =>
    rw [hs] at ih
    refine splits_cons ?_ ih
    rintro ⟨r, hr⟩
    obtain ⟨hcolon, hrest⟩ := List.cons.inj hr
    exact hc r hcolon.symm hrest.symm

theorem segments_eq_iff {text : List Char} {ss : List (List Char)} :
    segments text = ss ↔ Splits text ss :=
  ⟨fun h => h ▸ splits_segments text, segments_of_splits⟩

/-- The display of a trait path, cut where its separators were put. -/
def parts (p : TraitPath) : List (List Char) := (p.module ++ [p.name]).map String.toList

/-- Separators are found in the display of a trait path only where they were put. -/
structure IsUnambiguous (p : TraitPath) : Prop where
  no_separator : ∀ s ∈ p.module ++ [p.name], ¬ separator.toList <:+: s.toList
  no_colon_end : ∀ s ∈ p.module, ¬ [':'] <:+ s.toList

theorem isUnambiguous_nil {name : String} :
    IsUnambiguous ⟨[], name⟩ ↔ ¬ [':', ':'] <:+: name.toList := by
  refine ⟨fun h => h.no_separator name (List.mem_singleton.mpr rfl), fun h => ⟨?_, ?_⟩⟩
  · intro s hs
    obtain rfl := List.mem_singleton.mp hs
    exact h
  · exact fun s hs => absurd hs List.not_mem_nil

theorem isUnambiguous_cons {s name : String} {module : List String} :
    IsUnambiguous ⟨s :: module, name⟩ ↔ IsClosed s.toList ∧ IsUnambiguous ⟨module, name⟩ := by
  rw [isClosed_iff]
  constructor
  · rintro ⟨hsep, hend⟩
    obtain ⟨hs, hsep⟩ := List.forall_mem_cons.mp hsep
    obtain ⟨he, hend⟩ := List.forall_mem_cons.mp hend
    exact ⟨⟨hs, he⟩, hsep, hend⟩
  · rintro ⟨⟨hs, he⟩, hsep, hend⟩
    exact ⟨List.forall_mem_cons.mpr ⟨hs, hsep⟩, List.forall_mem_cons.mpr ⟨he, hend⟩⟩

theorem toString_cons (s name : String) (module : List String) :
    (toString ⟨s :: module, name⟩).toList =
      s.toList ++ ':' :: ':' :: (toString ⟨module, name⟩).toList := by
  show (s ++ separator ++ toString ⟨module, name⟩).toList = _
  rw [String.toList_append, String.toList_append, List.append_assoc]
  rfl

theorem splits_parts_iff {p : TraitPath} {text : List Char} :
    Splits text p.parts ↔ text = p.toString.toList ∧ p.IsUnambiguous := by
  obtain ⟨module, name⟩ := p
  induction module generalizing text with
  | nil =>
    rw [isUnambiguous_nil]
    exact splits_last_iff
  | cons s module ih =>
    have hne : parts ⟨module, name⟩ ≠ [] := by
      simp [parts]
    have hparts : parts ⟨s :: module, name⟩ = s.toList :: parts ⟨module, name⟩ := rfl
    rw [hparts, splits_next_iff hne, isUnambiguous_cons, toString_cons]
    constructor
    · rintro ⟨rest, rfl, hs, hr⟩
      obtain ⟨rfl, hu⟩ := ih.mp hr
      exact ⟨rfl, hs, hu⟩
    · rintro ⟨rfl, hs, hu⟩
      exact ⟨_, rfl, hs, ih.mpr ⟨rfl, hu⟩⟩

theorem map_ofList_parts (p : TraitPath) : p.parts.map String.ofList = p.module ++ [p.name] := by
  rw [parts, List.map_map]
  have hid : String.ofList ∘ String.toList = id := funext fun s => String.ofList_toList
  rw [hid, List.map_id]

theorem parts_parse (text : String) : (parse text).parts = segments text.toList := by
  have hne : (segments text.toList).map String.ofList ≠ [] :=
    mt List.map_eq_nil_iff.mp (splits_segments text.toList).ne_nil
  have hlast : (parse text).module ++ [(parse text).name] =
      (segments text.toList).map String.ofList := by
    rw [parse, List.getLast?_eq_some_getLast hne, Option.getD_some,
      List.dropLast_append_getLast hne]
  have hid : String.toList ∘ String.ofList = id := funext fun s => String.toList_ofList
  rw [parts, hlast, List.map_map, hid, List.map_id]

theorem parse_eq_iff_segments {text : String} {p : TraitPath} :
    parse text = p ↔ segments text.toList = p.parts := by
  constructor
  · rintro rfl
    exact (parts_parse text).symm
  · intro h
    rw [parse, h, map_ofList_parts, List.dropLast_concat, List.getLast?_concat]
    rfl

theorem parse_eq_iff {text : String} {p : TraitPath} :
    parse text = p ↔ text = p.toString ∧ p.IsUnambiguous := by
  rw [parse_eq_iff_segments, segments_eq_iff, splits_parts_iff, String.toList_inj]

theorem toString_parse (text : String) : (parse text).toString = text :=
  (parse_eq_iff.mp rfl).1.symm

/-- Every text is the display of the trait path that it is read as, so different texts are read as
different trait paths. A trait path is read back from its display exactly when no segment holds a
separator and no segment of the module ends in a colon. -/
theorem text_round_trip :
    (∀ text, (parse text).toString = text) ∧ Function.Injective parse ∧
    ∀ p, parse p.toString = p ↔
      (∀ s ∈ p.module ++ [p.name], ¬ separator.toList <:+: s.toList) ∧
        ∀ s ∈ p.module, ¬ [':'] <:+ s.toList := by
  refine ⟨toString_parse, Function.LeftInverse.injective toString_parse, fun p => ?_⟩
  rw [parse_eq_iff, and_iff_right rfl]
  exact ⟨fun h => ⟨h.no_separator, h.no_colon_end⟩, fun ⟨hs, he⟩ => ⟨hs, he⟩⟩

/-- A colon in front of a segment is kept, but one behind it goes to the next. -/
theorem text_round_trip_three_colons :
    parse (toString ⟨["a"], ":b"⟩) = ⟨["a"], ":b"⟩ ∧
    parse (toString ⟨["a:"], "b"⟩) ≠ ⟨["a:"], "b"⟩ ∧
    (parse "a:::b").toString = "a:::b" := by
  obtain ⟨hdisplay, -, hiff⟩ := text_round_trip
  refine ⟨(hiff ⟨["a"], ":b"⟩).mpr (by decide), ?_, hdisplay "a:::b"⟩
  intro h
  have hend := ((hiff ⟨["a:"], "b"⟩).mp h).2
  exact hend "a:" List.mem_cons_self (by decide)

end Implementors.TraitPath
