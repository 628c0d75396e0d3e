import Implementors.Proofs.Index.Assembly
import Mathlib.Data.List.Nodup

/-! Which synthetic implementors an index shows. Their types are checked one by one, up to the first
that has been seen, and an implementor is shown if none of its types has. What stands behind a type
that has been seen is not checked, so it does not count as seen later on. -/
namespace Implementors

/-- How members are picked from a list: one after the other is taken or left, each for a reason that
lies in it and in those before it, the nearest first. -/
inductive Picks {α : Type} (Takes Leaves : List α → α → Prop) : List α → List α → List α → Prop
  | nil (before : List α) : Picks Takes Leaves before [] []
  | take {before : List α} {x : α} {xs ys : List α} (h : Takes before x)
      (rest : Picks Takes Leaves (x :: before) xs ys) :
      Picks Takes Leaves before (x :: xs) (x :: ys)
  | leave {before : List α} {x : α} {xs ys : List α} (h : Leaves before x)
      (rest : Picks Takes Leaves (x :: before) xs ys) :
      Picks Takes Leaves before (x :: xs) ys

namespace Picks

variable {α : Type} {Takes Leaves : List α → α → Prop} {before xs ys : List α}

/-- Reasons may be exchanged for weaker ones, which may use what all members have in common. -/
theorem mono_of_forall {P : α → Prop} {Takes' Leaves' : List α → α → Prop}
    (ht : ∀ before x, (∀ y ∈ x :: before, P y) → Takes before x → Takes' before x)
    (hl : ∀ before x, (∀ y ∈ x :: before, P y) → Leaves before x → Leaves' before x)
    (hb : ∀ y ∈ before, P y) (hxs : ∀ y ∈ xs, P y) (h : Picks Takes Leaves before xs ys) :
    Picks Takes' Leaves' before xs ys := by
  induction h with
  | nil before => exact .nil before
  | take h _ ih =>
    obtain ⟨hx, hrest⟩ := List.forall_mem_cons.mp hxs
    have hnext := List.forall_mem_cons.mpr ⟨hx, hb⟩
    exact .take (ht _ _ hnext h) (ih hnext hrest)
  | leave h _ ih =>
    obtain ⟨hx, hrest⟩ := List.forall_mem_cons.mp hxs
    have hnext := List.forall_mem_cons.mpr ⟨hx, hb⟩
    exact .leave (hl _ _ hnext h) (ih hnext hrest)

theorem mono {Takes' Leaves' : List α → α → Prop}
    (ht : ∀ before x, Takes before x → Takes' before x)
    (hl : ∀ before x, Leaves before x → Leaves' before x) (h : Picks Takes Leaves before xs ys) :
    Picks Takes' Leaves' before xs ys :=
  h.mono_of_forall (P := fun _ => True) (fun before x _ => ht before x)
    (fun before x _ => hl before x) (fun _ _ => trivial) fun _ _ => trivial

/-- What became of the first member. -/
theorem of_cons {x : α} (h : Picks Takes Leaves before (x :: xs) ys) :
    (Takes before x ∧ ∃ zs, ys = x :: zs ∧ Picks Takes Leaves (x :: before) xs zs) ∨
      (Leaves before x ∧ Picks Takes Leaves (x :: before) xs ys) := by
  cases h with
  | take h rest => exact .inl ⟨h, _, rfl, rest⟩
  | leave h rest => exact .inr ⟨h, rest⟩

/-- All members of a kind are picked if none of this kind is ever left. -/
theorem filter_eq {p : α → Bool} (hp : ∀ before x, Leaves before x → p x = false)
    (h : Picks Takes Leaves before xs ys) : ys.filter p = xs.filter p := by
  induction h with
  | nil before => rfl
  | take _ _ ih => rw [List.filter_cons, List.filter_cons, ih]
  | leave h _ ih =>
    rw [List.filter_cons_of_neg, ih]
    rw [hp _ _ h]
    exact Bool.false_ne_true

theorem sublist (h : Picks Takes Leaves before xs ys) : ys.Sublist xs := by
  induction h with
  | nil before => exact List.Sublist.refl []
  | take _ _ ih => exact ih.cons_cons _
  | leave _ _ ih => exact ih.cons _

end Picks

namespace Index

/-- The synthetic implementors that an index received, without those of the page's own library:
by registry, then by library, then as they stand in its list. -/
def synthetics (i : Index) : List Listed := i.candidates.filter (·.descriptor.synthetic)

/-- The types that have been seen behind some synthetic implementors, the nearest first: the page
shows them inline, or they were checked in one of these. The types of an implementor are checked
until one comes that was seen before or stands there for the second time. -/
def Seen (inlined : List String) : List Listed → String → Prop
  | [], t => t ∈ inlined
  | x :: before, t => Seen inlined before t ∨
      ∃ checked rest, x.descriptor.types = checked ++ t :: rest ∧ checked.Nodup ∧
        ∀ u ∈ checked, ¬ Seen inlined before u

/-- An implementor whose types are all different and have not been seen. -/
def IsNew (inlined : List String) (before : List Listed) (x : Listed) : Prop :=
  x.descriptor.types.Nodup ∧ ∀ t ∈ x.descriptor.types, ¬ Seen inlined before t

theorem new_to_cons_iff {t : String} {noted types : List String} :
    (∀ u ∈ types, u ∉ t :: noted) ↔ t ∉ types ∧ ∀ u ∈ types, u ∉ noted :=
  List.disjoint_cons_right

theorem note_fst_iff (noted types : List String) :
    (note noted types).1 = true ↔ types.Nodup ∧ ∀ t ∈ types, t ∉ noted := by
  induction types generalizing noted with
  | nil => simp [note]
  | cons t ts ih =>
    rw [note]
    by_cases ht : noted.contains t = true
    · have hm : t ∈ noted := List.contains_iff_mem.mp ht
      rw [if_pos ht]
      constructor
      · intro h
        exact absurd h Bool.false_ne_true
      · rintro ⟨-, hnew⟩
        exact absurd hm (hnew t List.mem_cons_self)
    · have hm : t ∉ noted := fun h => ht (List.contains_iff_mem.mpr h)
      rw [if_neg ht, ih, new_to_cons_iff, List.nodup_cons, List.forall_mem_cons]
      constructor
      · rintro ⟨hts, htts, hnew⟩
        exact ⟨⟨htts, hts⟩, hm, hnew⟩
      · rintro ⟨⟨htts, hts⟩, -, hnew⟩
        exact ⟨hts, htts, hnew⟩

/-- What is noted is what was, and each type in front of which all are different and new. -/
theorem mem_note_iff (noted types : List String) (t : String) :
    t ∈ (note noted types).2 ↔ t ∈ noted ∨
      ∃ checked rest, types = checked ++ t :: rest ∧ checked.Nodup ∧ ∀ u ∈ checked, u ∉ noted := by
  induction types generalizing noted with
  | nil => simp [note]
  | cons v vs ih =>
    rw [note]
    by_cases hv : noted.contains v = true
    -- nothing behind a noted type is looked at, and this one is noted anyway
    · have hm : v ∈ noted := List.contains_iff_mem.mp hv
      rw [if_pos hv]
      constructor
      · exact .inl
      · rintro (h | ⟨checked, rest, heq, -, hnew⟩)
        · exact h
        · rcases List.cons_eq_append_iff.mp heq with ⟨-, htail⟩ | ⟨more, rfl, -⟩
          · obtain ⟨rfl, -⟩ := List.cons.inj htail
            exact hm
          · exact absurd hm (hnew v List.mem_cons_self)
    · have hm : v ∉ noted := fun h => hv (List.contains_iff_mem.mpr h)
      rw [if_neg hv, ih]
      constructor
      · rintro (h | ⟨checked, rest, rfl, hdiff, hnew⟩)
        · rcases List.mem_cons.mp h with rfl | h
          · exact .inr ⟨[], vs, rfl, List.nodup_nil, fun u hu => absurd hu List.not_mem_nil⟩
          · exact .inl h
        · obtain ⟨hvc, hnew⟩ := new_to_cons_iff.mp hnew
          refine .inr ⟨v :: checked, rest, rfl, List.nodup_cons.mpr ⟨hvc, hdiff⟩, ?_⟩
          exact List.forall_mem_cons.mpr ⟨hm, hnew⟩
      · rintro (h | ⟨checked, rest, heq, hdiff, hnew⟩)
        · exact .inl (List.mem_cons_of_mem v h)
        · rcases List.cons_eq_append_iff.mp heq with ⟨-, htail⟩ | ⟨more, rfl, rfl⟩
          · obtain ⟨rfl, -⟩ := List.cons.inj htail
            exact .inl List.mem_cons_self
          · obtain ⟨hvm, hmore⟩ := List.nodup_cons.mp hdiff
            obtain ⟨-, hnew⟩ := List.forall_mem_cons.mp hnew
            exact .inr ⟨more, rest, rfl, hmore, new_to_cons_iff.mpr ⟨hvm, hnew⟩⟩

/-- Of the noted types it matters only which there are. -/
theorem assemble_congr {noted other : List String} (h : ∀ t, t ∈ noted ↔ t ∈ other)
    (xs : List Listed) : assemble noted xs = assemble other xs := by
  induction xs generalizing noted other with
  | nil => rfl
  | cons x xs ih =>
    have hnext : ∀ t, t ∈ noteOf noted x ↔ t ∈ noteOf other x := by
      intro t
      rw [noteOf, noteOf]
      split
      · simp only [mem_note_iff, h]
      · exact h t
    have hnew : (note noted x.descriptor.types).1 = (note other x.descriptor.types).1 := by
      rw [Bool.eq_iff_iff, note_fst_iff, note_fst_iff]
      simp only [h]
    rw [assemble_cons, assemble_cons other, ih hnext]
    simp only [assemble, hnew]

/-- The lists show exactly the synthetic implementors that are new where they stand. The invariant
is that the noted types are those that have been seen; those of other implementors are never
noted. -/
theorem picks_assemble {inlined noted : List String} {before : List Listed}
    (hn : ∀ t, t ∈ noted ↔ Seen inlined before t) (xs : List Listed) :
    Picks (IsNew inlined) (fun before x => ¬ IsNew inlined before x) before
      (xs.filter (·.descriptor.synthetic)) (assemble noted xs).synthetic := by
  induction xs generalizing noted before with
  | nil => exact .nil before
  | cons x xs ih =>
    rw [assemble_cons]
    by_cases hx : x.descriptor.synthetic = true
    · have hnext : ∀ t, t ∈ noteOf noted x ↔ Seen inlined (x :: before) t := by
        intro t
        rw [noteOf, if_pos hx, mem_note_iff]
        simp only [hn, Seen]
      have hnew : (note noted x.descriptor.types).1 = true ↔ IsNew inlined before x := by
        rw [note_fst_iff]
        simp only [hn, IsNew]
      have hone : (assemble noted [x]).synthetic =
          if (note noted x.descriptor.types).1 then [x] else [] := by
        simp only [assemble, if_pos hx]
        cases (note noted x.descriptor.types).1 <;> rfl
      rw [List.filter_cons, if_pos hx, Lists.synthetic_append, hone]
      by_cases h : (note noted x.descriptor.types).1 = true
      · rw [if_pos h]
        exact .take (hnew.mp h) (ih hnext)
      · rw [if_neg h]
        exact .leave (fun hi => h (hnew.mpr hi)) (ih hnext)
    · have hsame : noteOf noted x = noted := if_neg hx
      have hone : (assemble noted [x]).synthetic = [] := by
        simp only [assemble, if_neg hx]
      rw [List.filter_cons, if_neg hx, Lists.synthetic_append, hone, hsame]
      exact ih hn

theorem picks_synthetics (i : Index) :
    Picks (IsNew i.inlined) (fun before x => ¬ IsNew i.inlined before x) [] i.synthetics
      i.lists.synthetic := picks_assemble (fun _ => Iff.rfl) i.candidates

theorem lists_synthetic_sublist (i : Index) : i.lists.synthetic.Sublist i.synthetics :=
  i.picks_synthetics.sublist

theorem mem_candidates_of_listed {i : Index} {x : Listed}
    (h : x ∈ i.lists.implementors ++ i.lists.synthetic) : x ∈ i.candidates := by
  rcases List.mem_append.mp h with h | h
  · rw [lists_implementors] at h
    exact (List.mem_filter.mp h).1
  · exact (List.mem_filter.mp (i.lists_synthetic_sublist.subset h)).1

end Index
end Implementors
