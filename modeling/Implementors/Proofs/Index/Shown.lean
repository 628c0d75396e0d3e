import Implementors.Proofs.Index.Places

/-! The synthetic implementors that an index shows, against all that it received in the order of
their places: what is shown has no type twice, what is left out has a type that speaks against it,
and whether one is shown depends on which types were checked before it, not on which were
mentioned. -/
namespace Implementors.Index

/-- An implementor none of whose types is shown inline or mentioned before. -/
def IsUnmentioned (inlined : List String) (before : List Listed) (x : Listed) : Prop :=
  ∀ t ∈ x.descriptor.types, t ∉ inlined ∧ ∀ y ∈ before, t ∉ y.descriptor.types

/-- What there is to say against an implementor: a type that is shown inline, one that is mentioned
before, or one that it has twice. -/
def IsExcused (inlined : List String) (before : List Listed) (x : Listed) : Prop :=
  ∃ t ∈ x.descriptor.types, t ∈ inlined ∨ (∃ y ∈ before, t ∈ y.descriptor.types) ∨
    2 ≤ x.descriptor.types.count t

theorem seen_of_isNew {inlined : List String} {before : List Listed} {x : Listed}
    (h : IsNew inlined before x) {t : String} (ht : t ∈ x.descriptor.types) :
    Seen inlined (x :: before) t := by
  obtain ⟨hdiff, hnew⟩ := h
  obtain ⟨checked, rest, heq⟩ := List.append_of_mem ht
  rw [heq] at hdiff hnew
  exact .inr ⟨checked, rest, heq, hdiff.of_append_left,
    fun u hu => hnew u (List.mem_append_left _ hu)⟩

theorem mentioned_of_seen {inlined : List String} {before : List Listed} {t : String}
    (h : Seen inlined before t) : t ∈ inlined ∨ ∃ y ∈ before, t ∈ y.descriptor.types := by
  induction before with
  | nil => exact .inl h
  | cons x before ih =>
    rcases h with h | ⟨checked, rest, heq, -, -⟩
    · rcases ih h with h | ⟨y, hy, ht⟩
      · exact .inl h
      · exact .inr ⟨y, List.mem_cons_of_mem x hy, ht⟩
    · refine .inr ⟨x, List.mem_cons_self, ?_⟩
      rw [heq]
      exact List.mem_append_right _ List.mem_cons_self

theorem isExcused_of_not_isNew {inlined : List String} {before : List Listed} {x : Listed}
    (h : ¬ IsNew inlined before x) : IsExcused inlined before x := by
  by_cases hdiff : x.descriptor.types.Nodup
  · have hseen : ∃ t ∈ x.descriptor.types, Seen inlined before t := by
      by_contra hno
      apply h
      exact ⟨hdiff, fun t ht hs => hno ⟨t, ht, hs⟩⟩
    obtain ⟨t, ht, hs⟩ := hseen
    rcases mentioned_of_seen hs with hi | hy
    · exact ⟨t, ht, .inl hi⟩
    · exact ⟨t, ht, .inr (.inl hy)⟩
  · have htwice : ∃ t, 1 < x.descriptor.types.count t := by
      simpa only [List.nodup_iff_count_le_one, not_forall, Nat.not_le] using hdiff
    obtain ⟨t, ht⟩ := htwice
    exact ⟨t, List.count_pos_iff.mp (Nat.zero_lt_of_lt ht), .inr (.inr ht)⟩

/-- Types of what is picked are new behind each other as well. -/
theorem types_of_picks {inlined : List String} {Leaves : List Listed → Listed → Prop}
    {before xs ys : List Listed} (h : Picks (IsNew inlined) Leaves before xs ys) :
    (ys.flatMap (·.descriptor.types)).Nodup ∧
      ∀ t ∈ ys.flatMap (·.descriptor.types), ¬ Seen inlined before t := by
  induction h with
  | nil before => exact ⟨List.nodup_nil, fun t ht => absurd ht List.not_mem_nil⟩
  | leave _ _ ih =>
    obtain ⟨hdiff, hnew⟩ := ih
    exact ⟨hdiff, fun t ht hs => hnew t ht (.inl hs)⟩
  | @take before x xs ys h _ ih =>
    obtain ⟨hdiff, hnew⟩ := ih
    obtain ⟨hown, hfresh⟩ := h
    rw [List.flatMap_cons]
    constructor
    · rw [List.nodup_append]
      refine ⟨hown, hdiff, fun t ht u hu => ?_⟩
      rintro rfl
      exact hnew t hu (seen_of_isNew ⟨hown, hfresh⟩ ht)
    · intro t ht
      rcases List.mem_append.mp ht with ht | ht
      · exact hfresh t ht
      · exact fun hs => hnew t ht (.inl hs)

/-- What an index shows is picked from all synthetic descriptors that it received. -/
theorem picks_of_enumerates {i : Index} {all : List Listed}
    (h : i.Enumerates (fun d => d.synthetic) all) :
    Picks (IsNew i.inlined) (fun before x => ¬ IsNew i.inlined before x) [] all
      i.lists.synthetic := by
  rw [enumerates_iff.mp h]
  exact i.picks_synthetics

/-- The synthetic implementors that an index shows have no type twice and none that the page shows
inline. All synthetic descriptors that it received outside the page's own library stand in one
order, that of their places. Whatever is left out of them has a type that is shown inline or
mentioned before, or it has a type twice; so those without types are all there. -/
theorem synthetic_types_once (i : Index) :
    (i.lists.synthetic.flatMap (·.descriptor.types)).Nodup ∧
      (∀ t ∈ i.lists.synthetic.flatMap (·.descriptor.types), t ∉ i.inlined) ∧
      (∃ all, i.Enumerates (fun d => d.synthetic) all) ∧
      ∀ all, i.Enumerates (fun d => d.synthetic) all →
        Picks (IsNew i.inlined)
          (fun before x => ¬ IsNew i.inlined before x ∧ IsExcused i.inlined before x)
          [] all i.lists.synthetic ∧
        i.lists.synthetic.filter (·.descriptor.types.isEmpty) =
          all.filter (·.descriptor.types.isEmpty) := by
  obtain ⟨hdiff, hnew⟩ := types_of_picks i.picks_synthetics
  refine ⟨hdiff, hnew, ⟨_, i.enumerates_candidates fun d => d.synthetic⟩, fun all hall => ?_⟩
  have hpicks := picks_of_enumerates hall
  constructor
  · apply hpicks.mono
    · intro before x h
      exact h
    · intro before x h
      exact ⟨h, isExcused_of_not_isNew h⟩
  · apply hpicks.filter_eq
    intro before x h
    obtain ⟨t, ht, -⟩ := isExcused_of_not_isNew h
    rw [List.isEmpty_eq_false_iff]
    exact List.ne_nil_of_mem ht

/-- Two registries and the page's own library: one implementor is left out for a type that is shown
inline, one for a type that the former had before that one, and one for a type that it has twice. -/
theorem synthetic_types_once_two_registries :
    let early : Descriptor := ⟨"early", true, ["B"]⟩
    let hit : Descriptor := ⟨"hit", true, ["A", "I"]⟩
    let bare : Descriptor := ⟨"bare", true, []⟩
    let again : Descriptor := ⟨"again", true, ["A"]⟩
    let double : Descriptor := ⟨"double", true, ["C", "C"]⟩
    let late : Descriptor := ⟨"late", true, ["D", "X"]⟩
    let i : Index := ⟨some "own", ["I"],
      [.ofList [("own", [⟨"own", true, ["X"]⟩]), ("b", [hit, bare]), ("a", [early])],
        .ofList [("a", [again, double, ⟨"explicit", false, ["A"]⟩, late])]]⟩
    let all : List Listed := [⟨"a", early⟩, ⟨"b", hit⟩, ⟨"b", bare⟩, ⟨"a", again⟩, ⟨"a", double⟩,
      ⟨"a", late⟩]
    i.Enumerates (fun d => d.synthetic) all ∧
      i.lists.synthetic = [⟨"a", early⟩, ⟨"b", bare⟩, ⟨"a", late⟩] ∧
      Picks (IsNew i.inlined)
        (fun before x => ¬ IsNew i.inlined before x ∧ IsExcused i.inlined before x)
        [] all i.lists.synthetic ∧
      i.lists.synthetic.filter (·.descriptor.types.isEmpty) =
        all.filter (·.descriptor.types.isEmpty) := by
  intro early hit bare again double late i all
  have hall : i.Enumerates (fun d => d.synthetic) all := enumerates_iff.mpr (by decide +kernel)
  have hshown : i.lists.synthetic = [⟨"a", early⟩, ⟨"b", bare⟩, ⟨"a", late⟩] := by decide +kernel
  obtain ⟨-, -, -, honce⟩ := synthetic_types_once i
  exact ⟨hall, hshown, honce all hall⟩

/-- If no implementor before has more than one type, mentioned types are exactly those checked. -/
theorem seen_iff_mentioned {inlined : List String} {before : List Listed}
    (h : ∀ y ∈ before, y.descriptor.types.length ≤ 1) {t : String} :
    Seen inlined before t ↔ t ∈ inlined ∨ ∃ y ∈ before, t ∈ y.descriptor.types := by
  refine ⟨mentioned_of_seen, ?_⟩
  induction before with
  | nil =>
    rintro (hi | ⟨y, hy, -⟩)
    · exact hi
    · exact absurd hy List.not_mem_nil
  | cons x before ih =>
    obtain ⟨hx, hrest⟩ := List.forall_mem_cons.mp h
    rintro (hi | ⟨y, hy, ht⟩)
    · exact .inl (ih hrest (.inl hi))
    · rcases List.mem_cons.mp hy with rfl | hy
      · have hlength := Nat.le_antisymm hx (List.length_pos_of_mem ht)
        obtain ⟨u, hu⟩ := List.length_eq_one_iff.mp hlength
        rw [hu] at ht
        obtain rfl := List.mem_singleton.mp ht
        exact .inr ⟨[], [], hu, List.nodup_nil, nofun⟩
      · exact .inl (ih hrest (.inr ⟨y, hy, ht⟩))

theorem isNew_iff_isUnmentioned {inlined : List String} {before : List Listed} {x : Listed}
    (h : ∀ y ∈ x :: before, y.descriptor.types.length ≤ 1) :
    IsNew inlined before x ↔ IsUnmentioned inlined before x := by
  obtain ⟨hx, hb⟩ := List.forall_mem_cons.mp h
  have hdiff : x.descriptor.types.Nodup := by
    rw [List.nodup_iff_count_le_one]
    exact fun t => List.count_le_length.trans hx
  simp only [IsNew, IsUnmentioned, hdiff, true_and, seen_iff_mentioned hb, not_or, not_exists,
    not_and]

/-- A synthetic implementor is shown exactly if its types are all different and none of them has
been seen: shown inline, or checked in an earlier one, be that one shown or not. Where no synthetic
implementor has more than one type, this comes to the same as looking for mentions. -/
theorem synthetic_shown_iff_new (i : Index) :
    (∃ all, i.Enumerates (fun d => d.synthetic) all) ∧
      ∀ all, i.Enumerates (fun d => d.synthetic) all →
        Picks (IsNew i.inlined) (fun before x => ¬ IsNew i.inlined before x) [] all
          i.lists.synthetic ∧
        ((∀ x ∈ all, x.descriptor.types.length ≤ 1) →
          Picks (IsUnmentioned i.inlined) (fun before x => ¬ IsUnmentioned i.inlined before x) []
            all i.lists.synthetic) := by
  refine ⟨⟨_, i.enumerates_candidates fun d => d.synthetic⟩, fun all hall => ?_⟩
  have hpicks := picks_of_enumerates hall
  refine ⟨hpicks, fun hone => ?_⟩
  apply hpicks.mono_of_forall (P := fun x => x.descriptor.types.length ≤ 1) _ _ nofun hone
  · intro before x h hnew
    exact (isNew_iff_isUnmentioned h).mp hnew
  · intro before x h hnew
    exact fun hun => hnew ((isNew_iff_isUnmentioned h).mpr hun)

/-- The list of the second registry has an implementor whose type was mentioned, but not checked. In
the other index each has one type. -/
theorem synthetic_shown_iff_new_two_registries :
    let hit : Descriptor := ⟨"hit", true, ["B", "A"]⟩
    let behind : Descriptor := ⟨"behind", true, ["A"]⟩
    let again : Descriptor := ⟨"again", true, ["A"]⟩
    let i : Index := ⟨some "own", ["B"],
      [.ofList [("own", [again]), ("dep", [hit])], .ofList [("dep", [behind, again])]]⟩
    let all : List Listed := [⟨"dep", hit⟩, ⟨"dep", behind⟩, ⟨"dep", again⟩]
    let j : Index := ⟨none, ["B"], [.ofList [("dep", [behind])], .ofList [("base", [again])]]⟩
    let ones : List Listed := [⟨"dep", behind⟩, ⟨"base", again⟩]
    i.Enumerates (fun d => d.synthetic) all ∧ i.lists.synthetic = [⟨"dep", behind⟩] ∧
      Picks (IsNew i.inlined) (fun before x => ¬ IsNew i.inlined before x) [] all
        i.lists.synthetic ∧
      j.Enumerates (fun d => d.synthetic) ones ∧ j.lists.synthetic = [⟨"dep", behind⟩] ∧
      Picks (IsUnmentioned j.inlined) (fun before x => ¬ IsUnmentioned j.inlined before x) [] ones
        j.lists.synthetic := by
  intro hit behind again i all j ones
  have hall : i.Enumerates (fun d => d.synthetic) all := enumerates_iff.mpr (by decide +kernel)
  have hones : j.Enumerates (fun d => d.synthetic) ones := enumerates_iff.mpr (by decide +kernel)
  have hshown : i.lists.synthetic = [⟨"dep", behind⟩] := by decide +kernel
  have hfirst : j.lists.synthetic = [⟨"dep", behind⟩] := by decide +kernel
  have hone : ∀ x ∈ ones, x.descriptor.types.length ≤ 1 := by decide
  obtain ⟨-, hnew⟩ := synthetic_shown_iff_new i
  obtain ⟨-, hmention⟩ := synthetic_shown_iff_new j
  exact ⟨hall, hshown, (hnew all hall).1, hones, hfirst, (hmention ones hones).2 hone⟩

/-- It is not enough to look for mentions. A type behind one that was seen is not checked, so it may
come again; and an implementor that has a type twice is not shown, though nothing mentions it. -/
theorem mentions_do_not_decide :
    let first : Descriptor := ⟨"first", true, ["B", "A"]⟩
    let second : Descriptor := ⟨"second", true, ["A"]⟩
    let double : Descriptor := ⟨"double", true, ["A", "A"]⟩
    let behind : Index := ⟨none, ["B"], [.ofList [("dep", [first, second])]]⟩
    let alone : Index := ⟨none, [], [.ofList [("dep", [double])]]⟩
    behind.lists.synthetic = [⟨"dep", second⟩] ∧ alone.lists.synthetic = [] ∧
      ∀ i ∈ [behind, alone], ∃ all, i.Enumerates (fun d => d.synthetic) all ∧
        ¬ Picks (IsUnmentioned i.inlined) (fun before x => ¬ IsUnmentioned i.inlined before x) []
          all i.lists.synthetic := by
  intro first second double behind alone
  have hbehind : behind.Enumerates (fun d => d.synthetic) [⟨"dep", first⟩, ⟨"dep", second⟩] :=
    behind.enumerates_candidates fun d => d.synthetic
  have halone : alone.Enumerates (fun d => d.synthetic) [⟨"dep", double⟩] :=
    alone.enumerates_candidates fun d => d.synthetic
  have hsecond : behind.lists.synthetic = [⟨"dep", second⟩] := rfl
  have hnone : alone.lists.synthetic = [] := rfl
  refine ⟨hsecond, hnone, List.forall_mem_cons.mpr ⟨⟨_, hbehind, ?_⟩,
    List.forall_mem_singleton.mpr ⟨_, halone, ?_⟩⟩⟩
  · rw [hsecond]
    intro h
    rcases h.of_cons with ⟨-, zs, heq, -⟩ | ⟨-, hrest⟩
    · exact absurd (List.cons.inj heq).1 (by decide)
    · rcases hrest.of_cons with ⟨hnew, -⟩ | ⟨-, hend⟩
      · have hmention := (hnew "A" List.mem_cons_self).2 ⟨"dep", first⟩ List.mem_cons_self
        exact hmention (List.mem_cons_of_mem _ List.mem_cons_self)
      · cases hend
  · rw [hnone]
    intro h
    rcases h.of_cons with ⟨-, zs, heq, -⟩ | ⟨hleft, -⟩
    · exact absurd heq (List.cons_ne_nil _ _).symm
    · apply hleft
      intro t _
      exact ⟨List.not_mem_nil, fun y hy => absurd hy List.not_mem_nil⟩

end Implementors.Index
