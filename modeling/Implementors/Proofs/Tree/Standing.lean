import Implementors.Tree
import Implementors.Proofs.Path.Components

/-! Files that stand in a tree. Main statement: `readOctets_of_hasFile`, a file that a path leads to
is read from there. -/
namespace Implementors.Tree

variable {t : Tree}

/-- Names lead from one place to another, through directories. -/
inductive Leads (t : Tree) : Place → List Octets → Place → Prop
  | here {place} : Leads t place [] place
  | up {place names goal} : t.node? place = some .directory →
      Leads t (parent place) names goal → Leads t place (Path.dotDot :: names) goal
  | down {place name names goal} : t.node? place = some .directory → name ≠ Path.dotDot →
      Leads t (place ++ [name]) names goal → Leads t place (name :: names) goal

/-- A file with the given content stands where a path leads to, and the path keeps the limits of a
file system. -/
structure HasFile (t : Tree) (path content : Octets) : Prop where
  no_nul : 0 ∉ path
  length_le : path.length ≤ maxPath
  names_le : ∀ name ∈ Path.components path, name.length ≤ maxName
  stands : ∃ place, Leads t (start path) (Path.components path) place ∧
    t.node? place = some (.file content)

/-- Before there is a name to follow, the place is a directory. -/
theorem Leads.directory {place goal : Place} {name : Octets} {names : List Octets}
    (h : Leads t place (name :: names) goal) : t.node? place = some .directory := by
  cases h with
  | up hd _ => exact hd
  | down hd _ _ => exact hd

theorem Leads.isSome {place goal : Place} {names : List Octets} (h : Leads t place names goal)
    (hgoal : (t.node? goal).isSome = true) : (t.node? place).isSome = true := by
  cases h with
  | here => exact hgoal
  | up hd _ => rw [hd, Option.isSome_some]
  | down hd _ _ => rw [hd, Option.isSome_some]

theorem follow_dot {place : Place} (hd : t.node? place = some .directory) (names : List Octets) :
    t.follow place (Path.dot :: names) = t.follow place names := by
  simp [follow, hd, enter]

theorem follow_dotDot {place : Place} (hd : t.node? place = some .directory)
    (names : List Octets) :
    t.follow place (Path.dotDot :: names) = t.follow (parent place) names := by
  have hne : Path.dotDot ≠ Path.dot := by decide
  simp [follow, hd, enter, hne]

theorem follow_name {place : Place} {name : Octets} (hd : t.node? place = some .directory)
    (hdot : name ≠ Path.dot) (hdots : name ≠ Path.dotDot) (hlen : name.length ≤ maxName)
    (hn : (t.node? (place ++ [name])).isSome = true) (names : List Octets) :
    t.follow place (name :: names) = t.follow (place ++ [name]) names := by
  simp [follow, hd, enter, hdot, hdots, Nat.not_lt.mpr hlen, hn]

theorem filter_ne_nil_of_getLast? {steps : List Octets} (hne : steps ≠ [])
    (hlast : steps.getLast? ≠ some Path.dot) : steps.filter (· != Path.dot) ≠ [] := by
  have hl := List.getLast?_eq_some_getLast hne
  have hdot : steps.getLast hne ≠ Path.dot := fun he => hlast (he ▸ hl)
  exact List.ne_nil_of_mem (List.mem_filter.mpr ⟨List.getLast_mem hne, bne_iff_ne.mpr hdot⟩)

/-- Single dots are passed over; the last name is none, so a name is still to come and the place is
a directory. -/
theorem follow_of_leads {place goal : Place} {steps : List Octets}
    (h : Leads t place (steps.filter (· != Path.dot)) goal) (hgoal : (t.node? goal).isSome = true)
    (hlen : ∀ name ∈ steps.filter (· != Path.dot), name.length ≤ maxName)
    (hlast : steps.getLast? ≠ some Path.dot) : t.follow place steps = .ok goal := by
  induction steps generalizing place with
  | nil =>
    cases h
    rfl
  | cons name steps ih =>
    have hrest : steps.getLast? ≠ some Path.dot := by
      intro he
      apply hlast
      rw [List.getLast?_cons, he]
      rfl
    by_cases hdot : name = Path.dot
    · subst hdot
      rw [List.filter_cons_of_neg (by simp)] at h hlen
      have hne : steps ≠ [] := by
        rintro rfl
        exact hlast rfl
      obtain ⟨first, more, hf⟩ :=
        List.exists_cons_of_ne_nil (filter_ne_nil_of_getLast? hne hrest)
      rw [follow_dot (hf ▸ h).directory]
      exact ih h hlen hrest
    · have hkept : (name != Path.dot) = true := bne_iff_ne.mpr hdot
      rw [List.filter_cons, if_pos hkept] at h hlen
      obtain ⟨hname, hnames⟩ := List.forall_mem_cons.mp hlen
      cases h with
      | up hd h =>
        rw [follow_dotDot hd]
        exact ih h hnames hrest
      | down hd hdots h =>
        rw [follow_name hd hdot hdots hname (h.isSome hgoal)]
        exact ih h hnames hrest

theorem filter_steps (path : Octets) :
    (steps path).filter (· != Path.dot) = Path.components path := by
  have hnames : ((Path.segments path).filter (· != [])).filter (· != Path.dot) =
      Path.components path := by
    rw [List.filter_filter, Path.components]
    exact List.filter_congr fun s _ => Bool.and_comm _ _
  rw [steps]
  split
  · rw [List.filter_append, hnames, List.filter_cons_of_neg (by simp), List.filter_nil,
      List.append_nil]
  · exact hnames

theorem readOctets_of_hasFile {path content : Octets} (h : t.HasFile path content)
    (hlast : (steps path).getLast? ≠ some Path.dot) : t.readOctets path = .ok content := by
  obtain ⟨place, hl, hfile⟩ := h.stands
  have hnul : path.contains 0 = false := by simpa using h.no_nul
  have hsome : (t.node? place).isSome = true := by rw [hfile, Option.isSome_some]
  rw [← filter_steps] at hl
  have hfollow : t.follow (start path) (steps path) = .ok place :=
    follow_of_leads hl hsome (filter_steps path ▸ h.names_le) hlast
  rw [readOctets, hnul, if_neg Bool.false_ne_true, if_neg (Nat.not_lt.mpr h.length_le), hfollow]
  simp only [hfile]

theorem node?_put_self {place : Place} (h : isOuter place = false) (node : Node) :
    (t.put place node).node? place = some node := by
  simp [node?, put, h]

/-- A path that ends in a name does not ask for a directory. -/
theorem getLast?_steps {path name : Octets} (hname : Path.IsComponent name) :
    (steps (path ++ Path.slash :: name)).getLast? = some name := by
  have hend : (path ++ Path.slash :: name).getLast? ≠ some Path.slash := by
    rw [List.getLast?_append, List.getLast?_cons, Option.some_or]
    obtain ⟨b, hb⟩ := Option.ne_none_iff_exists'.mp (mt List.getLast?_eq_none_iff.mp hname.ne_nil)
    rw [hb, Option.getD_some]
    intro he
    exact hname.no_slash (Option.some.inj he ▸ List.mem_of_getLast? hb)
  rw [steps, if_neg hend, Path.segments_append_slash, Path.segments_of_no_slash hname.no_slash,
    List.filter_append, List.filter_cons_of_pos (by simpa using hname.ne_nil), List.filter_nil,
    List.getLast?_concat]

end Implementors.Tree
