import Implementors.Descriptor.Wire
import Implementors.Proofs.Json.Enclosed

/-! Descriptors, as objects and as lists, end at their bracket. -/
namespace Implementors.Descriptor

open Json

theorem Draft.isPeeking_member (draft : Draft) (key : String) : (draft.member key).IsPeeking := by
  unfold Draft.member
  split
  · split
    · exact Reader.isPeeking_refuse _
    · exact Reader.isExact_string.isPeeking.afterColon.map _
  split
  · split
    · exact Reader.isPeeking_refuse _
    · exact Reader.isExact_boolean.isPeeking.afterColon.map _
  split
  · split
    · exact Reader.isPeeking_refuse _
    · exact Reader.isExact_string.isPeeking.list.isPeeking.afterColon.map _
  · exact Reader.isPeeking_ignored.afterColon.map _

theorem readObject_exact {s r : List Char} {d : Descriptor} (h : readObject s = .ok (d, r)) :
    Exact readObject (d, ·) s r := by
  unfold readObject at h
  split at h
  · simp at h
  · next hm =>
    split at h
    · next hf =>
      simp only [Except.ok.injEq, Prod.mk.injEq] at h
      obtain ⟨rfl, rfl⟩ := h
      obtain ⟨text, rfl, ht⟩ := readMembers_exact Draft.isPeeking_member hm
      exact ⟨text, rfl, fun rest => by simp only [readObject, ht rest, hf]⟩
    · simp at h

theorem readListEnd_exact {s r : List Char} (h : readListEnd s = .ok r) :
    Exact readListEnd id s r := by
  have hs : skipBlanks s = ']' :: r := by
    unfold readListEnd at h
    grind
  obtain ⟨blanks, hb, -, rfl⟩ := exists_blanks hs
  refine ⟨blanks ++ [']'], by simp, fun rest => ?_⟩
  rw [List.append_assoc, readListEnd, List.singleton_append, skipBlanks_token hb (by decide)]
  rfl

section

variable {text : String} {s r : List Char} {d : Descriptor}

theorem readTypes_exact {synthetic : Bool} (h : readTypes text synthetic s = .ok (d, r)) :
    Exact (readTypes text synthetic) (d, ·) s r := by
  unfold readTypes at h
  split at h
  · simp at h
  · next hn =>
    simp only [Except.ok.injEq, Prod.mk.injEq] at h
    obtain ⟨rfl, rfl⟩ := h
    obtain ⟨ending, rfl, hending⟩ := nextElement_done_exact hn
    exact ⟨ending, rfl, fun rest => by simp only [readTypes, hending rest]⟩
  · next hn =>
    split at h
    · simp at h
    · next ht =>
      split at h
      · simp at h
      · next he =>
        simp only [Except.ok.injEq, Prod.mk.injEq] at h
        obtain ⟨rfl, rfl⟩ := h
        have hshorter := readListEnd_shorter he
        obtain ⟨before, value, rfl, hvalue⟩ :=
          nextElement_run_peeks Reader.isExact_string.isPeeking.list.isPeeking hn ht
        obtain ⟨ending, rfl, hending⟩ := readListEnd_exact he
        refine ⟨before ++ (value ++ ending), by simp, fun rest => ?_⟩
        obtain ⟨hnext, hrun⟩ := hvalue (ending ++ rest) (head?_append_of_shorter hshorter rest)
        simp only [List.append_assoc, readTypes, hnext, hrun, hending, id]

theorem readFlag_exact (h : readFlag text s = .ok (d, r)) : Exact (readFlag text) (d, ·) s r := by
  unfold readFlag at h
  split at h
  · simp at h
  · next hn =>
    simp only [Except.ok.injEq, Prod.mk.injEq] at h
    obtain ⟨rfl, rfl⟩ := h
    obtain ⟨ending, rfl, hending⟩ := nextElement_done_exact hn
    exact ⟨ending, rfl, fun rest => by simp only [readFlag, hending rest]⟩
  · next hn =>
    split at h
    · simp at h
    · next hb =>
      have hshorter := readTypes_shorter h
      obtain ⟨before, value, rfl, hvalue⟩ :=
        nextElement_run_peeks Reader.isExact_boolean.isPeeking hn hb
      obtain ⟨more, rfl, hmore⟩ := readTypes_exact h
      refine ⟨before ++ (value ++ more), by simp, fun rest => ?_⟩
      obtain ⟨hnext, hrun⟩ := hvalue (more ++ rest) (head?_append_of_shorter hshorter rest)
      simp only [List.append_assoc, readFlag, hnext, hrun, hmore]

theorem readList_exact (h : readList s = .ok (d, r)) : Exact readList (d, ·) s r := by
  unfold readList at h
  split at h
  · simp at h
  · simp at h
  · next hn =>
    split at h
    · simp at h
    · next ht =>
      have hshorter := readFlag_shorter h
      obtain ⟨before, value, rfl, hvalue⟩ :=
        nextElement_run_peeks Reader.isExact_string.isPeeking hn ht
      obtain ⟨more, rfl, hmore⟩ := readFlag_exact h
      refine ⟨before ++ (value ++ more), by simp, fun rest => ?_⟩
      obtain ⟨hnext, hrun⟩ := hvalue (more ++ rest) (head?_append_of_shorter hshorter rest)
      simp only [List.append_assoc, readList, hnext, hrun, hmore]

end

theorem isExact_reader : reader.IsExact := by
  intro s r d h
  change read s = .ok (d, r) at h
  unfold read at h
  split at h
  · next hs =>
    obtain ⟨blanks, hb, -, rfl⟩ := exists_blanks hs
    obtain ⟨text, rfl, ht⟩ := readObject_exact h
    refine ⟨blanks, '{' :: text, hb, ⟨⟨_, _, rfl, by decide, by decide⟩, ?_⟩, rfl⟩
    intro before rest hbefore
    change read _ = _
    rw [read, List.cons_append, skipBlanks_token hbefore (by decide)]
    exact ht rest
  · next hs =>
    obtain ⟨blanks, hb, -, rfl⟩ := exists_blanks hs
    obtain ⟨text, rfl, ht⟩ := readList_exact h
    refine ⟨blanks, '[' :: text, hb, ⟨⟨_, _, rfl, by decide, by decide⟩, ?_⟩, rfl⟩
    intro before rest hbefore
    change read _ = _
    rw [read, List.cons_append, skipBlanks_token hbefore (by decide)]
    exact ht rest
  · simp at h

end Implementors.Descriptor
