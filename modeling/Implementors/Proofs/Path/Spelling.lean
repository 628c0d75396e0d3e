import Implementors.Proofs.Path.Components

/-! How paths are written. Names stand between slashes; a slash more, in front, behind or next to
another, and a single dot between slashes change nothing. Main statement: `spells_iff`, the
components of a path are the names that it is a spelling of. -/
namespace Implementors.Path

/-- What can follow a name: the end, or a slash and more. -/
def IsTail (rest : Octets) : Prop := rest = [] ∨ ∃ more, rest = slash :: more

/-- A path is a spelling of names. -/
inductive Spells : Octets → List Octets → Prop
  | done : Spells [] []
  | slash {path names} : Spells path names → Spells (slash :: path) names
  | dot {rest names} : IsTail rest → Spells rest names → Spells (dot ++ rest) names
  | name {name rest names} :
      IsComponent name → IsTail rest → Spells rest names → Spells (name ++ rest) (name :: names)

theorem components_slash (path : Octets) : components (slash :: path) = components path :=
  components_append_slash [] path

theorem components_append_tail {rest : Octets} (h : IsTail rest) (segment : Octets) :
    components (segment ++ rest) = components segment ++ components rest := by
  rcases h with rfl | ⟨more, rfl⟩
  · have hnil : components [] = [] := rfl
    rw [hnil, List.append_nil, List.append_nil]
  · rw [components_append_slash, components_slash]

theorem components_of_spells {path : Octets} {names : List Octets} (h : Spells path names) :
    components path = names := by
  induction h with
  | done => rfl
  | slash _ ih => rw [components_slash, ih]
  | dot ht _ ih =>
    have hdot : components dot = [] := rfl
    rw [components_append_tail ht, hdot, ih, List.nil_append]
  | name hn ht _ ih =>
    rw [components_append_tail ht, components_of_isComponent hn, ih, List.singleton_append]

/-- A segment in front of what is spelled adds its name, if it is one. -/
theorem spells_segment {segment rest : Octets} {names : List Octets} (hs : slash ∉ segment)
    (ht : IsTail rest) (h : Spells rest names) :
    Spells (segment ++ rest) (components segment ++ names) := by
  by_cases hne : segment = []
  · subst hne
    exact h
  · by_cases hdot : segment = dot
    · subst hdot
      exact .dot ht h
    · have hc : IsComponent segment := ⟨hne, hdot, hs⟩
      rw [components_of_isComponent hc]
      exact .name hc ht h

theorem spells_components (path : Octets) : Spells path (components path) := by
  by_cases hs : slash ∈ path
  · obtain ⟨segment, rest, rfl, hsegment⟩ := List.eq_append_cons_of_mem hs
    -- The rest behind the first slash is shorter.
    rw [components_append_slash]
    exact spells_segment hsegment (.inr ⟨rest, rfl⟩) (.slash (spells_components rest))
  · have h := spells_segment hs (.inl rfl) .done
    rwa [List.append_nil, List.append_nil] at h
termination_by path.length

theorem spells_iff {path : Octets} {names : List Octets} :
    Spells path names ↔ components path = names :=
  ⟨components_of_spells, fun h => h ▸ spells_components path⟩

end Implementors.Path
