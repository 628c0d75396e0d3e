import Implementors.Index

/-! How the lists of an index come together. A candidate depends on those before it only by the
types that they noted, so what more candidates add stands behind what was there. -/
namespace Implementors

namespace Lists

def append (l m : Lists) : Lists :=
  ⟨l.implementors ++ m.implementors, l.synthetic ++ m.synthetic⟩

instance : Append Lists := ⟨append⟩

@[simp] theorem implementors_append (l m : Lists) :
    (l ++ m).implementors = l.implementors ++ m.implementors := rfl

@[simp] theorem synthetic_append (l m : Lists) :
    (l ++ m).synthetic = l.synthetic ++ m.synthetic := rfl

theorem append_assoc (l m n : Lists) : l ++ m ++ n = l ++ (m ++ n) := by
  show append (append l m) n = append l (append m n)
  simp only [append, List.append_assoc]

/-- Nothing of the earlier lists is changed or moved, there is only more behind it. -/
structure Extends (later earlier : Lists) : Prop where
  implementors : earlier.implementors <+: later.implementors
  synthetic : earlier.synthetic <+: later.synthetic

theorem append_extends (l m : Lists) : (l ++ m).Extends l :=
  ⟨List.prefix_append _ _, List.prefix_append _ _⟩

end Lists

namespace Index

/-- The types that are noted once a candidate is passed. -/
def noteOf (noted : List String) (x : Listed) : List String :=
  if x.descriptor.synthetic then (note noted x.descriptor.types).2 else noted

def notedAfter (noted : List String) (xs : List Listed) : List String := xs.foldl noteOf noted

theorem assemble_cons (noted : List String) (x : Listed) (xs : List Listed) :
    assemble noted (x :: xs) = assemble noted [x] ++ assemble (noteOf noted x) xs := by
  by_cases hx : x.descriptor.synthetic = true
  · simp only [assemble, noteOf, if_pos hx]
    cases (note noted x.descriptor.types).1 <;> rfl
  · simp only [assemble, noteOf, if_neg hx]
    rfl

theorem assemble_append (noted : List String) (xs ys : List Listed) :
    assemble noted (xs ++ ys) = assemble noted xs ++ assemble (notedAfter noted xs) ys := by
  induction xs generalizing noted with
  | nil => rfl
  | cons x xs ih =>
    rw [List.cons_append, assemble_cons, assemble_cons noted x xs, ih, Lists.append_assoc]
    rfl

theorem assemble_implementors (noted : List String) (xs : List Listed) :
    (assemble noted xs).implementors = xs.filter fun x => !x.descriptor.synthetic := by
  induction xs generalizing noted with
  | nil => rfl
  | cons x xs ih =>
    rw [assemble_cons, Lists.implementors_append, ih, List.filter_cons]
    by_cases hx : x.descriptor.synthetic = true
    · simp only [assemble, hx]
      cases (note noted x.descriptor.types).1 <;> rfl
    · simp only [assemble, hx]
      rfl

theorem lists_implementors (i : Index) :
    i.lists.implementors = i.candidates.filter fun x => !x.descriptor.synthetic :=
  assemble_implementors i.inlined i.candidates

theorem foldl_receive (i : Index) (rs : List Registry) :
    rs.foldl receive i = { i with received := i.received ++ rs } := by
  induction rs generalizing i with
  | nil =>
    rw [List.append_nil]
    rfl
  | cons r rs ih =>
    rw [List.foldl_cons, ih, receive, List.append_assoc]
    rfl

/-- What further registries add depends on the earlier ones by the noted types alone. -/
theorem lists_foldl_receive (i : Index) (rs : List Registry) :
    (rs.foldl receive i).lists =
      i.lists ++
        assemble (notedAfter i.inlined i.candidates) (rs.flatMap (candidatesIn i.ownLibrary)) := by
  rw [foldl_receive, lists, candidates, List.flatMap_append, assemble_append]
  rfl

theorem lists_foldl_receive_extends (i : Index) (rs : List Registry) :
    (rs.foldl receive i).lists.Extends i.lists := by
  rw [lists_foldl_receive]
  exact Lists.append_extends _ _

end Index
end Implementors
