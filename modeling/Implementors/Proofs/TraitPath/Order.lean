import Implementors.Proofs.TraitPath.Separators

/-! The order of trait paths. Main statement: `sortTexts_grouped`, sorting forgets in which order
the paths came, and keeps what belongs to a module together. -/
namespace Implementors.TraitPath

theorem le_iff {p q : TraitPath} :
    le p q = true ↔ p.module < q.module ∨ p.module = q.module ∧ p.name ≤ q.name := by
  simp [le]

theorem le_total (p q : TraitPath) : le p q = true ∨ le q p = true := by
  rw [le_iff, le_iff]
  rcases Std.lt_trichotomy p.module q.module with h | h | h
  · exact .inl (.inl h)
  · rcases String.le_total p.name q.name with hn | hn
    · exact .inl (.inr ⟨h, hn⟩)
    · exact .inr (.inr ⟨h.symm, hn⟩)
  · exact .inr (.inl h)

theorem le_antisymm {p q : TraitPath} (hpq : le p q = true) (hqp : le q p = true) : p = q := by
  obtain ⟨module, name⟩ := p
  obtain ⟨module', name'⟩ := q
  rcases le_iff.mp hpq with h | ⟨h, hn⟩ <;> rcases le_iff.mp hqp with h' | ⟨h', hn'⟩
  · exact absurd h' (List.lt_asymm h)
  · exact absurd h (h' ▸ List.lt_irrefl module')
  · exact absurd h' (h ▸ List.lt_irrefl module)
  · obtain rfl : module = module' := h
    obtain rfl := String.le_antisymm hn hn'
    rfl

theorem le_trans {p q r : TraitPath} (hpq : le p q = true) (hqr : le q r = true) :
    le p r = true := by
  rw [le_iff] at *
  rcases hpq with h | ⟨h, hn⟩ <;> rcases hqr with h' | ⟨h', hn'⟩
  · exact .inl (List.lt_trans h h')
  · exact .inl (h' ▸ h)
  · exact .inl (h ▸ h')
  · exact .inr ⟨h.trans h', String.le_trans hn hn'⟩

theorem module_not_lt_of_le {p q : TraitPath} (h : le p q = true) : ¬ q.module < p.module := by
  rcases le_iff.mp h with h | ⟨h, -⟩
  · exact List.lt_asymm h
  · exact h ▸ List.lt_irrefl p.module

theorem sort_perm (paths : List TraitPath) : (sort paths).Perm paths := List.mergeSort_perm paths le

theorem sort_pairwise (paths : List TraitPath) :
    (sort paths).Pairwise fun p q => le p q = true := by
  have htotal (p q : TraitPath) : (le p q || le q p) = true := by
    rw [Bool.or_eq_true]
    exact le_total p q
  exact List.pairwise_mergeSort (fun p q r (hpq : le p q = true) hqr => le_trans hpq hqr) htotal
    paths

theorem sort_congr {paths others : List TraitPath} (h : paths.Perm others) :
    sort paths = sort others := by
  have hperm := (sort_perm paths).trans (h.trans (sort_perm others).symm)
  exact hperm.eq_of_pairwise (fun _ _ _ _ => le_antisymm) (sort_pairwise paths)
    (sort_pairwise others)

/-- What does not come behind a list that starts with `m` comes before `m` or starts with it. -/
theorem lt_or_prefix_of_not_lt {m a b : List String} (hab : ¬ b < a) (hb : m <+: b) :
    a < m ∨ m <+: a := by
  induction m generalizing a b with
  | nil => exact .inr List.nil_prefix
  | cons s m ih =>
    obtain ⟨rest, rfl⟩ := hb
    cases a with
    | nil => exact .inl (List.nil_lt_cons s m)
    | cons t a =>
      rw [List.cons_append, List.cons_lt_cons_iff, not_or] at hab
      rw [List.cons_lt_cons_iff, List.cons_prefix_cons]
      rcases Std.lt_trichotomy t s with h | rfl | h
      · exact .inl (.inl h)
      · have hrest : ¬ m ++ rest < a := fun h => hab.2 ⟨rfl, h⟩
        rcases ih hrest (List.prefix_append m rest) with h | h
        · exact .inl (.inr ⟨rfl, h⟩)
        · exact .inr ⟨rfl, h⟩
      · exact absurd h hab.1

/-- A list is cut where a predicate ends that no element has behind one without it. -/
theorem exists_cut {α : Type} (q : α → Prop) [DecidablePred q] {l : List α}
    (h : l.Pairwise fun a b => q b → q a) :
    ∃ front back, l = front ++ back ∧ (∀ a ∈ front, q a) ∧ ∀ a ∈ back, ¬ q a := by
  induction l with
  | nil => exact ⟨[], [], rfl, List.forall_mem_nil q, List.forall_mem_nil _⟩
  | cons a l ih =>
    obtain ⟨ha, hl⟩ := List.pairwise_cons.mp h
    by_cases hq : q a
    · obtain ⟨front, back, rfl, hf, hb⟩ := ih hl
      exact ⟨a :: front, back, rfl, List.forall_mem_cons.mpr ⟨hq, hf⟩, hb⟩
    · exact ⟨[], a :: l, rfl, List.forall_mem_nil q,
        List.forall_mem_cons.mpr ⟨hq, fun b hb => mt (ha b hb) hq⟩⟩

/-- Four parts of a list by where the paths stand to a module: before it, directly in it, in its
submodules, and behind all of these. -/
structure IsGrouped (m : List String) (before direct deeper after : List TraitPath) : Prop where
  outside : ∀ p ∈ before ++ after, ¬ m <+: p.module
  direct : ∀ p ∈ direct, p.module = m
  deeper : ∀ p ∈ deeper, m <+: p.module ∧ p.module ≠ m

/-- Three cuts, from the last to the first: behind what starts with the module, behind the module
itself and in front of it. -/
theorem exists_isGrouped {paths : List TraitPath}
    (h : paths.Pairwise fun p q => le p q = true) (m : List String) :
    ∃ before direct deeper after, paths = before ++ (direct ++ deeper) ++ after ∧
      IsGrouped m before direct deeper after := by
  have hmodule : paths.Pairwise fun p q => ¬ q.module < p.module := h.imp module_not_lt_of_le
  have hlt {a b : List String} (hab : ¬ b < a) (hb : b < m) : a < m :=
    List.lt_of_le_of_lt (List.not_lt.mp hab) hb
  have hnot {a b : List String} (hab : ¬ b < a) (hb : ¬ m < b) : ¬ m < a :=
    List.not_lt.mpr (List.le_trans (List.not_lt.mp hab) (List.not_lt.mp hb))
  obtain ⟨inner, after, rfl, hinner, hafter⟩ :=
    exists_cut (fun p : TraitPath => p.module < m ∨ m <+: p.module) <| hmodule.imp fun hpq hq => by
      rcases hq with hq | hq
      · exact .inl (hlt hpq hq)
      · exact lt_or_prefix_of_not_lt hpq hq
  have hmodule := (List.pairwise_append.mp hmodule).1
  obtain ⟨low, deeper, rfl, hlow, hdeeper⟩ :=
    exists_cut (fun p : TraitPath => ¬ m < p.module) <| hmodule.imp hnot
  have hmodule := (List.pairwise_append.mp hmodule).1
  obtain ⟨before, direct, rfl, hbefore, hdirect⟩ :=
    exists_cut (fun p : TraitPath => p.module < m) <| hmodule.imp hlt
  refine ⟨before, direct, deeper, after, by simp only [List.append_assoc], ?_, ?_, ?_⟩
  · intro p hp
    rcases List.mem_append.mp hp with hp | hp
    · exact fun hm => hm.le (hbefore p hp)
    · exact fun hm => hafter p hp (.inr hm)
  · intro p hp
    have hnot_gt := hlow p (List.mem_append_right before hp)
    exact List.le_antisymm (List.not_lt.mp hnot_gt) (List.not_lt.mp (hdirect p hp))
  · intro p hp
    have hgt : m < p.module := Decidable.not_not.mp (hdeeper p hp)
    have hne : p.module ≠ m := fun he => List.lt_irrefl m (he ▸ hgt)
    rcases hinner p (List.mem_append_right _ hp) with hless | hm
    · exact absurd hless (List.lt_asymm hgt)
    · exact ⟨hm, hne⟩

/-- The displays of paths that are given as texts, sorted. -/
def sortTexts (texts : List String) : List String := (sort (texts.map parse)).map toString

theorem sortTexts_perm (texts : List String) : (sortTexts texts).Perm texts := by
  have h := (sort_perm (texts.map parse)).map toString
  have hid : toString ∘ parse = id := funext toString_parse
  rwa [List.map_map, hid, List.map_id] at h

theorem parse_toString_of_mem_sort {texts : List String} {p : TraitPath}
    (h : p ∈ sort (texts.map parse)) : parse p.toString = p := by
  obtain ⟨text, -, rfl⟩ := List.mem_map.mp ((sort_perm _).mem_iff.mp h)
  rw [toString_parse]

theorem sortTexts_pairwise (texts : List String) :
    (sortTexts texts).Pairwise fun s t => le (parse s) (parse t) = true := by
  refine List.pairwise_map.mpr ((sort_pairwise _).imp_of_mem fun hp hq h => ?_)
  rwa [parse_toString_of_mem_sort hp, parse_toString_of_mem_sort hq]

theorem forall_display {paths : List TraitPath} {P : TraitPath → Prop}
    (hread : ∀ p ∈ paths, parse p.toString = p) (h : ∀ p ∈ paths, P p) :
    ∀ text ∈ paths.map toString, P (parse text) := by
  intro text ht
  obtain ⟨p, hp, rfl⟩ := List.mem_map.mp ht
  rw [hread p hp]
  exact h p hp

/-- Trait paths are totally ordered, and only equal ones are below each other. Texts sorted as trait
paths are the same texts, in an order that does not depend on the one they came in. What starts
with a module stands together there, first what is directly in the module, then its submodules. -/
theorem sortTexts_grouped :
    (∀ p q, le p q = true ∨ le q p = true) ∧
    (∀ p q, le p q = true → le q p = true → p = q) ∧
    (∀ p q r, le p q = true → le q r = true → le p r = true) ∧
    (∀ texts others : List String, texts.Perm others → sortTexts texts = sortTexts others) ∧
    (∀ texts, (sortTexts texts).Perm texts) ∧
    (∀ texts, (sortTexts texts).Pairwise fun s t => le (parse s) (parse t) = true) ∧
    ∀ texts m, ∃ before direct deeper after : List String,
      sortTexts texts = before ++ (direct ++ deeper) ++ after ∧
      (∀ text ∈ before ++ after, ¬ m <+: (parse text).module) ∧
      (∀ text ∈ direct, (parse text).module = m) ∧
      ∀ text ∈ deeper, m <+: (parse text).module ∧ (parse text).module ≠ m := by
  refine ⟨le_total, fun _ _ => le_antisymm, fun _ _ _ => le_trans, fun texts others h => ?_,
    sortTexts_perm, sortTexts_pairwise, fun texts m => ?_⟩
  · rw [sortTexts, sortTexts, sort_congr (h.map parse)]
  · obtain ⟨before, direct, deeper, after, hsort, hg⟩ :=
      exists_isGrouped (sort_pairwise (texts.map parse)) m
    have hread : ∀ p ∈ before ++ (direct ++ deeper) ++ after, parse p.toString = p :=
      fun p hp => parse_toString_of_mem_sort (hsort ▸ hp)
    have houtside := forall_display (fun p hp => hread p (by grind)) hg.outside
    refine ⟨before.map toString, direct.map toString, deeper.map toString, after.map toString,
      ?_, ?_, forall_display (fun p hp => hread p (by grind)) hg.direct,
      forall_display (fun p hp => hread p (by grind)) hg.deeper⟩
    · rw [sortTexts, hsort, List.map_append, List.map_append, List.map_append]
    · rwa [List.map_append] at houtside

/-- A path directly in a module comes before one in a submodule, though its text comes after. -/
theorem sortTexts_grouped_submodule :
    let texts := ["core::Send", "a::b::x", "std::Any", "a::c", "Any", "a::Z"]
    let sorted := ["Any", "a::Z", "a::c", "a::b::x", "core::Send", "std::Any"]
    texts.Perm sorted ∧ sortTexts texts = sorted ∧ "a::b::x" < "a::c" ∧
    le ⟨["a"], "c"⟩ ⟨["a", "b"], "x"⟩ = true ∧
    le ⟨["a", "b"], "x"⟩ ⟨["core"], "Send"⟩ = true ∧
    le ⟨["a"], "c"⟩ ⟨["core"], "Send"⟩ = true := by
  intro texts sorted
  obtain ⟨-, -, htrans, hperm, -⟩ := sortTexts_grouped
  have h : texts.Perm sorted := by decide
  have hsort : sortTexts sorted = sorted := by
    have hself : sort (sorted.map parse) = sorted.map parse :=
      List.mergeSort_of_pairwise (by decide)
    rw [sortTexts, hself]
    decide
  have htext : "a::b::x" < "a::c" := by decide
  have hfirst : le ⟨["a"], "c"⟩ ⟨["a", "b"], "x"⟩ = true := by decide
  have hsecond : le ⟨["a", "b"], "x"⟩ ⟨["core"], "Send"⟩ = true := by decide
  exact ⟨h, (hperm texts sorted h).trans hsort, htext, hfirst, hsecond,
    htrans _ _ _ hfirst hsecond⟩

end Implementors.TraitPath
