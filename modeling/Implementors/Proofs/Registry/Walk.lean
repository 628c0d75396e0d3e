import Implementors.Registry

/-! Walks over registries. A walk ends, and at every point of it the number of libraries still to
come is known. -/
namespace Implementors.Registry.Walk

/-- The libraries that a walk gives from here on, one step after the other, until there is none. -/
inductive Yields : Walk → List LibraryEntry → Prop
  | done {w : Walk} (h : w.next? = none) : Yields w []
  | next {w rest : Walk} {e : LibraryEntry} {es : List LibraryEntry}
      (h : w.next? = some (e, rest)) (hrest : Yields rest es) : Yields w (e :: es)

theorem yields_toCome (es : List LibraryEntry) : Yields ⟨es⟩ es := by
  induction es with
  | nil => exact .done rfl
  | cons e es ih => exact .next rfl ih

theorem next?_eq_none_iff {w : Walk} : w.next? = none ↔ w.toCome = [] := by
  obtain ⟨es⟩ := w
  cases es <;> simp [next?]

theorem next?_eq_some_iff {w rest : Walk} {e : LibraryEntry} :
    w.next? = some (e, rest) ↔ w.toCome = e :: rest.toCome := by
  obtain ⟨es⟩ := w
  obtain ⟨fs⟩ := rest
  cases es <;> simp [next?]

namespace Yields

variable {w : Walk} {es : List LibraryEntry}

theorem sizeBounds_eq (h : w.Yields es) : w.sizeBounds = (es.length, es.length) := by
  have hsize : w.size = es.length := by
    induction h with
    | done h => rw [size, next?_eq_none_iff.mp h]
    | next h _ ih => rw [size, next?_eq_some_iff.mp h, List.length_cons, List.length_cons, ← ih, size]
  rw [sizeBounds, hsize]

/-- Libraries that are taken stand at the front; the walk goes on with the others. -/
theorem take (h : w.Yields es) (n : Nat) :
    (w.take n).1 = es.take n ∧ (w.take n).2.Yields (es.drop n) := by
  induction n generalizing w es with
  | zero => exact ⟨rfl, h⟩
  | succ n ih =>
    cases h with
    | done hnone =>
      simp only [Walk.take, hnone]
      exact ⟨rfl, .done hnone⟩
    | next hnext hrest =>
      obtain ⟨htaken, hleft⟩ := ih hrest
      simp only [Walk.take, hnext, htaken]
      exact ⟨rfl, hleft⟩

end Yields
end Implementors.Registry.Walk
