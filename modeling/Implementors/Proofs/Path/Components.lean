import Implementors.Path
import Implementors.Proofs.Text.Octets

/-! Components of joined paths, and which octets can be one. Main statements: `components_join`,
names put behind a path, each after a slash, are its further components, and `encode_foldl_push`,
pushing names without slashes puts them there. -/
namespace Implementors.Path

theorem segments_ne_nil (path : Octets) : segments path ≠ [] := by
  cases path with
  | nil => simp [segments]
  | cons b path =>
    rw [segments]
    split
    · simp
    · split <;> simp

theorem segments_append_slash (path rest : Octets) :
    segments (path ++ slash :: rest) = segments path ++ segments rest := by
  induction path with
  | nil => simp [segments]
  | cons b path ih =>
    rw [List.cons_append, segments, segments, ih]
    split
    · rfl
    · cases hs : segments path with
      | nil => exact absurd hs (segments_ne_nil path)
      | cons s ss => rfl

theorem segments_append {start rest s : Octets} {ss : List Octets} (h : slash ∉ start)
    (hs : segments rest = s :: ss) : segments (start ++ rest) = (start ++ s) :: ss := by
  induction start with
  | nil => exact hs
  | cons b start ih =>
    obtain ⟨hb, hstart⟩ := not_or.mp (mt List.mem_cons.mpr h)
    rw [List.cons_append, segments, if_neg (Ne.symm hb), ih hstart]
    rfl

theorem segments_of_no_slash {name : Octets} (h : slash ∉ name) : segments name = [name] := by
  have hnil : segments [] = [[]] := rfl
  have hs := segments_append h hnil
  rwa [List.append_nil] at hs

theorem no_slash_of_mem_segments {path s : Octets} (h : s ∈ segments path) : slash ∉ s := by
  induction path generalizing s with
  | nil =>
    obtain rfl : s = [] := by simpa [segments] using h
    exact List.not_mem_nil
  | cons b path ih =>
    rw [segments] at h
    split at h
    · rcases List.mem_cons.mp h with rfl | h
      · exact List.not_mem_nil
      · exact ih h
    · next hb =>
      cases hs : segments path with
      | nil => exact absurd hs (segments_ne_nil path)
      | cons first ss =>
        rw [hs] at h ih
        rcases List.mem_cons.mp h with rfl | h
        · have hf := ih List.mem_cons_self
          simp [Ne.symm hb, hf]
        · exact ih (List.mem_cons_of_mem first h)

/-- What can stand between two slashes and name something. -/
structure IsComponent (name : Octets) : Prop where
  ne_nil : name ≠ []
  ne_dot : name ≠ dot
  no_slash : slash ∉ name

theorem isComponent_of_mem {path name : Octets} (h : name ∈ components path) :
    IsComponent name := by
  obtain ⟨hm, hn⟩ := List.mem_filter.mp h
  obtain ⟨hne, hdot⟩ : name ≠ [] ∧ name ≠ dot := by simpa using hn
  exact ⟨hne, hdot, no_slash_of_mem_segments hm⟩

theorem components_of_isComponent {name : Octets} (h : IsComponent name) :
    components name = [name] := by
  rw [components, segments_of_no_slash h.no_slash, List.filter_cons_of_pos]
  · rfl
  · simp [h.ne_nil, h.ne_dot]

theorem components_append_slash (path rest : Octets) :
    components (path ++ slash :: rest) = components path ++ components rest := by
  rw [components, segments_append_slash, List.filter_append]
  rfl

/-- Names behind a path, each after a slash. -/
def join (path : Octets) (names : List Octets) : Octets := path ++ names.flatMap (slash :: ·)

theorem components_join (path : Octets) {names : List Octets} (h : ∀ n ∈ names, IsComponent n) :
    components (join path names) = components path ++ names := by
  induction names generalizing path with
  | nil => simp [join]
  | cons name names ih =>
    obtain ⟨hname, hnames⟩ := List.forall_mem_cons.mp h
    have hj : join path (name :: names) = join (path ++ slash :: name) names := by simp [join]
    rw [hj, ih (path ++ slash :: name) hnames, components_append_slash,
      components_of_isComponent hname, List.append_assoc, List.singleton_append]

theorem isComponent_encode_iff {s : String} :
    IsComponent (Text.encode s) ↔ s ≠ "" ∧ s ≠ "." ∧ '/' ∉ s.toList := by
  have hempty : Text.encode s = [] ↔ s = "" := @Text.encode_inj s ""
  have hdot : Text.encode s = dot ↔ s = "." := @Text.encode_inj s "."
  have hslash : slash ∈ Text.encode s ↔ '/' ∈ s.toList := @Text.mem_encode_iff '/' (by decide) s
  constructor
  · intro h
    exact ⟨mt hempty.mpr h.ne_nil, mt hdot.mpr h.ne_dot, mt hslash.mpr h.no_slash⟩
  · rintro ⟨hne, hd, hs⟩
    exact ⟨mt hempty.mp hne, mt hdot.mp hd, mt hslash.mp hs⟩

theorem startsWithSlash_eq_false {s : String} (h : '/' ∉ s.toList) : startsWithSlash s = false := by
  refine beq_false_of_ne fun hs => h ?_
  exact List.mem_of_head? hs

theorem endsWithSlash_eq_false {s : String} (h : '/' ∉ s.toList) : endsWithSlash s = false := by
  refine beq_false_of_ne fun hs => h ?_
  exact List.mem_of_getLast? hs

theorem endsWithSlash_append {path name : String} (h : name ≠ "") :
    endsWithSlash (path ++ name) = endsWithSlash name := by
  obtain ⟨c, hc⟩ := Option.ne_none_iff_exists'.mp
    (mt List.getLast?_eq_none_iff.mp (mt String.toList_eq_nil_iff.mp h))
  rw [endsWithSlash, endsWithSlash, String.toList_append, List.getLast?_append, hc]
  rfl

theorem push_of_no_slash {path name : String} (hp : path ≠ "") (he : endsWithSlash path = false)
    (hn : '/' ∉ name.toList) : push path name = path ++ "/" ++ name := by
  have hempty : path.isEmpty = false := by simpa using hp
  simp [push, startsWithSlash_eq_false hn, hempty, he]

theorem encode_foldl_push {path : String} (hp : path ≠ "") (he : endsWithSlash path = false)
    {names : List String} (h : ∀ n ∈ names, n ≠ "" ∧ '/' ∉ n.toList) :
    Text.encode (names.foldl push path) = join (Text.encode path) (names.map Text.encode) := by
  induction names generalizing path with
  | nil => simp [join]
  | cons name names ih =>
    obtain ⟨⟨hne, hslash⟩, hnames⟩ := List.forall_mem_cons.mp h
    have hpush := push_of_no_slash hp he hslash
    have hp' : push path name ≠ "" := by
      rw [hpush]
      simp [hne]
    have he' : endsWithSlash (push path name) = false := by
      rw [hpush, endsWithSlash_append hne]
      exact endsWithSlash_eq_false hslash
    have hbar : Text.encode "/" = [slash] := by decide
    rw [List.foldl_cons, ih hp' he' hnames, hpush, Text.encode_append, Text.encode_append, hbar]
    simp [join]

end Implementors.Path
