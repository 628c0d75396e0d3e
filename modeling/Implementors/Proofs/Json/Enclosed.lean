import Implementors.Json.Bracket
import Implementors.Proofs.Json.Skipped
import Mathlib.Data.List.TakeWhile

/-! Lists and objects end at their closing bracket. Nothing behind it is looked at, even when
elements and members look one character ahead. -/
namespace Implementors.Json

variable {α β : Type}

theorem blanks_iff {s : List Char} : Blanks s ↔ skipBlanks s = [] := by
  rw [skipBlanks, List.dropWhile_eq_nil_iff, Blanks, List.all_eq_true]

theorem head?_append_of_shorter {text r : List Char} (h : r.length < (text ++ r).length)
    (rest : List Char) : (text ++ rest).head? = (text ++ r).head? := by
  cases text with
  | nil => simp at h
  | cons c text => rfl

section

variable {isFirst : Bool} {s r : List Char}

theorem nextElement_done_inv (h : nextElement isFirst s = .ok (.done r)) :
    skipBlanks s = ']' :: r := by
  unfold nextElement at h
  grind

theorem nextElement_item_inv (h : nextElement isFirst s = .ok (.item r)) :
    ∃ c t, r = c :: t ∧ c ≠ ']' ∧ (isFirst = true ∧ skipBlanks s = r ∨
      isFirst = false ∧ ∃ u, skipBlanks s = ',' :: u ∧ skipBlanks u = r) := by
  unfold nextElement at h
  grind

theorem nextElement_done_exact (h : nextElement isFirst s = .ok (.done r)) :
    Exact (nextElement isFirst) .done s r := by
  obtain ⟨blanks, hb, -, rfl⟩ := exists_blanks (nextElement_done_inv h)
  refine ⟨blanks ++ [']'], by simp, fun rest => ?_⟩
  rw [List.append_assoc]
  exact nextElement_done hb isFirst rest

theorem nextElement_item_peeks (h : nextElement isFirst s = .ok (.item r)) :
    Peeks (nextElement isFirst) .item s r := by
  obtain ⟨c, t, rfl, hne, ⟨rfl, hs⟩ | ⟨rfl, u, hs, hu⟩⟩ := nextElement_item_inv h
  · obtain ⟨blanks, hb, hc, rfl⟩ := exists_blanks hs
    refine ⟨blanks, rfl, fun rest hr => ?_⟩
    obtain ⟨v, rfl⟩ := exists_cons_of_head? hr.symm
    rw [nextElement, skipBlanks_token hb hc]
    simp [hne]
  · obtain ⟨before, hb, -, rfl⟩ := exists_blanks hs
    obtain ⟨after, ha, hc, rfl⟩ := exists_blanks hu
    refine ⟨before ++ ',' :: after, by simp, fun rest hr => ?_⟩
    obtain ⟨v, rfl⟩ := exists_cons_of_head? hr.symm
    rw [List.append_assoc, List.cons_append, nextElement, skipBlanks_token hb (by decide)]
    simp [skipBlanks_token ha hc, hne]

theorem nextKey_done_inv (h : nextKey isFirst s = .ok (.done r)) : skipBlanks s = '}' :: r := by
  unfold nextKey at h
  grind

theorem nextKey_item_inv (h : nextKey isFirst s = .ok (.item r)) :
    isFirst = true ∧ skipBlanks s = '"' :: r ∨
      isFirst = false ∧ ∃ u, skipBlanks s = ',' :: u ∧ skipBlanks u = '"' :: r := by
  unfold nextKey at h
  grind

theorem nextKey_done_exact (h : nextKey isFirst s = .ok (.done r)) :
    Exact (nextKey isFirst) .done s r := by
  obtain ⟨blanks, hb, -, rfl⟩ := exists_blanks (nextKey_done_inv h)
  refine ⟨blanks ++ ['}'], by simp, fun rest => ?_⟩
  rw [List.append_assoc]
  exact nextKey_done hb isFirst rest

/-- What stands before an item, blanks apart. -/
def comma (isFirst : Bool) : List Char := if isFirst then [] else [',']

theorem nextKey_comma {before after : List Char} (hb : Blanks before) (ha : Blanks after)
    (isFirst : Bool) (r : List Char) :
    nextKey isFirst (before ++ (comma isFirst ++ (after ++ '"' :: r))) = .ok (.item r) := by
  cases isFirst with
  | true =>
    have h := nextKey_first (hb.append ha) r
    rwa [List.append_assoc] at h
  | false => exact nextKey_next hb ha r

theorem nextKey_item_eq (h : nextKey isFirst s = .ok (.item r)) :
    ∃ before after, Blanks before ∧ Blanks after ∧
      s = before ++ (comma isFirst ++ (after ++ '"' :: r)) := by
  rcases nextKey_item_inv h with ⟨rfl, hs⟩ | ⟨rfl, u, hs, hu⟩
  · obtain ⟨before, hb, -, rfl⟩ := exists_blanks hs
    exact ⟨before, [], hb, blanks_nil, rfl⟩
  · obtain ⟨before, hb, -, rfl⟩ := exists_blanks hs
    obtain ⟨after, ha, -, rfl⟩ := exists_blanks hu
    exact ⟨before, after, hb, ha, rfl⟩

theorem nextKey_item_exact (h : nextKey isFirst s = .ok (.item r)) :
    Exact (nextKey isFirst) .item s r := by
  obtain ⟨before, after, hb, ha, rfl⟩ := nextKey_item_eq h
  refine ⟨before ++ (comma isFirst ++ (after ++ ['"'])), by simp, fun rest => ?_⟩
  simp only [List.append_assoc, List.singleton_append]
  exact nextKey_comma hb ha isFirst rest

end

namespace Reader

/-- All that the reader reads is a text that it takes, behind blanks. -/
def IsExact (reader : Reader α) : Prop :=
  ∀ ⦃s r : List Char⦄ ⦃a : α⦄, reader.run s = .ok (a, r) →
    ∃ blanks text, Blanks blanks ∧ reader.Takes text a ∧ s = blanks ++ (text ++ r)

/-- What the reader gives for a text depends on the character right behind it at most. -/
def IsPeeking (reader : Reader α) : Prop :=
  ∀ ⦃s r : List Char⦄ ⦃a : α⦄, reader.run s = .ok (a, r) → Peeks reader.run (a, ·) s r

theorem IsExact.exact {reader : Reader α} (h : reader.IsExact) {s r : List Char} {a : α}
    (hr : reader.run s = .ok (a, r)) : Exact reader.run (a, ·) s r := by
  obtain ⟨blanks, text, hb, ht, rfl⟩ := h hr
  refine ⟨blanks ++ text, by simp, fun rest => ?_⟩
  rw [List.append_assoc, ht.run blanks rest hb]

theorem IsExact.isPeeking {reader : Reader α} (h : reader.IsExact) : reader.IsPeeking :=
  fun _ _ _ hr => (h.exact hr).peeks

theorem readAll_eq_ok_iff {reader : Reader α} {s : List Char} {a : α} :
    reader.readAll s = .ok a ↔ ∃ after, Blanks after ∧ reader.run s = .ok (a, after) := by
  constructor
  · intro hs
    unfold readAll at hs
    split at hs
    · simp at hs
    · next hr =>
      split at hs
      · next ha => exact ⟨_, blanks_iff.mpr ha, Except.ok.inj hs ▸ hr⟩
      · simp at hs
  · rintro ⟨after, ha, hr⟩
    simp only [readAll, hr, blanks_iff.mp ha]

end Reader

/-- An element is read in front of whatever starts like what stood behind it. -/
theorem nextElement_run_peeks {element : Reader α} (he : element.IsPeeking) {isFirst : Bool}
    {s u r : List Char} {a : α} (hn : nextElement isFirst s = .ok (.item u))
    (hr : element.run u = .ok (a, r)) :
    ∃ before value, s = before ++ (value ++ r) ∧ ∀ rest, rest.head? = r.head? →
      nextElement isFirst (before ++ (value ++ rest)) = .ok (.item (value ++ rest)) ∧
        element.run (value ++ rest) = .ok (a, rest) := by
  have hshorter := element.shorter hr
  obtain ⟨before, rfl, hbefore⟩ := nextElement_item_peeks hn
  obtain ⟨value, rfl, hvalue⟩ := he hr
  refine ⟨before, value, rfl, fun rest hrest => ⟨?_, hvalue rest hrest⟩⟩
  exact hbefore _ (head?_append_of_shorter hshorter rest)

theorem readElements_exact {element : Reader α} (he : element.IsPeeking) {held as : List α}
    {isFirst : Bool} {s r : List Char} (h : readElements element held isFirst s = .ok (as, r)) :
    Exact (readElements element held isFirst) (as, ·) s r := by
  fun_induction readElements element held isFirst s with
  | case1 => simp at h
  | case2 held isFirst s t hs =>
    simp only [Except.ok.injEq, Prod.mk.injEq] at h
    obtain ⟨rfl, rfl⟩ := h
    obtain ⟨text, rfl, ht⟩ := nextElement_done_exact hs
    exact ⟨text, rfl, fun rest => readElements_done (ht rest) held⟩
  | case3 => simp at h
  | case4 held isFirst s u hs a t hu ih =>
    have hshorter := readElements_shorter h
    obtain ⟨before, value, rfl, hvalue⟩ := nextElement_run_peeks he hs hu
    obtain ⟨text, rfl, ht⟩ := ih h
    refine ⟨before ++ (value ++ text), by simp, fun rest => ?_⟩
    obtain ⟨hnext, hrun⟩ := hvalue (text ++ rest) (head?_append_of_shorter hshorter rest)
    rw [List.append_assoc, List.append_assoc, readElements_item hnext hrun, ht]

theorem readMembers_exact {member : β → String → Reader β}
    (hm : ∀ b key, (member b key).IsPeeking) {b c : β} {isFirst : Bool} {s r : List Char}
    (h : readMembers member b isFirst s = .ok (c, r)) :
    Exact (readMembers member b isFirst) (c, ·) s r := by
  fun_induction readMembers member b isFirst s with
  | case1 => simp at h
  | case2 b isFirst s t hs =>
    simp only [Except.ok.injEq, Prod.mk.injEq] at h
    obtain ⟨rfl, rfl⟩ := h
    obtain ⟨text, rfl, ht⟩ := nextKey_done_exact hs
    exact ⟨text, rfl, fun rest => readMembers_done (ht rest) b⟩
  | case3 => simp at h
  | case4 => simp at h
  | case5 b isFirst s u hs key v hk d t hv ih =>
    have hshorter := readMembers_shorter h
    obtain ⟨before, rfl, hbefore⟩ := nextKey_item_exact hs
    obtain ⟨quoted, rfl, hquoted⟩ := unquote_exact hk
    obtain ⟨value, rfl, hvalue⟩ := hm b (String.ofList key) hv
    obtain ⟨text, rfl, ht⟩ := ih h
    refine ⟨before ++ (quoted ++ (value ++ text)), by simp, fun rest => ?_⟩
    simp only [List.append_assoc]
    rw [readMembers_item (hbefore _) (hquoted _)
      (hvalue _ (head?_append_of_shorter hshorter rest)), ht]

namespace Reader

/-- A string that is read stands between quotes, behind blanks. -/
theorem string_inv {s r : List Char} {t : String} (h : string.run s = .ok (t, r)) :
    ∃ blanks quoted, Blanks blanks ∧ QuotedText quoted t ∧ s = blanks ++ '"' :: (quoted ++ r) := by
  change readString s = .ok (t, r) at h
  unfold readString at h
  split at h
  · next hs =>
    split at h
    · simp at h
    · next hq =>
      simp only [Except.ok.injEq, Prod.mk.injEq] at h
      obtain ⟨rfl, rfl⟩ := h
      obtain ⟨blanks, hb, -, rfl⟩ := exists_blanks hs
      obtain ⟨quoted, rfl, ht⟩ := unquote_exact hq
      exact ⟨blanks, quoted, hb, fun rest => by rw [ht, String.toList_ofList], rfl⟩
  · simp at h

theorem isExact_string : string.IsExact := by
  intro s r t h
  obtain ⟨blanks, quoted, hb, hq, rfl⟩ := string_inv h
  exact ⟨blanks, '"' :: quoted, hb, takes_string hq, rfl⟩

theorem readWordAs_eq_ok {a b : α} {word s r : List Char} (h : readWordAs a word s = .ok (b, r)) :
    b = a ∧ s = word ++ r := by
  unfold readWordAs at h
  split at h
  · simp at h
  · next hw =>
    simp only [Except.ok.injEq, Prod.mk.injEq] at h
    obtain ⟨rfl, rfl⟩ := h
    exact ⟨rfl, readWord_eq_ok hw⟩

theorem isExact_boolean : boolean.IsExact := by
  intro s r b h
  change readBoolean s = .ok (b, r) at h
  unfold readBoolean at h
  split at h
  · next hs =>
    obtain ⟨blanks, hb, -, rfl⟩ := exists_blanks hs
    obtain ⟨rfl, rfl⟩ := readWordAs_eq_ok h
    exact ⟨blanks, _, hb, takes_true, rfl⟩
  · next hs =>
    obtain ⟨blanks, hb, -, rfl⟩ := exists_blanks hs
    obtain ⟨rfl, rfl⟩ := readWordAs_eq_ok h
    exact ⟨blanks, _, hb, takes_false, rfl⟩
  · simp at h

theorem isPeeking_ignored : ignored.IsPeeking := by
  intro s r a h
  simp only [ignored] at h
  split at h
  · simp at h
  · next hs =>
    simp only [Except.ok.injEq, Prod.mk.injEq] at h
    obtain ⟨-, rfl⟩ := h
    obtain ⟨text, rfl, ht⟩ := skipValue_peeks hs
    refine ⟨text, rfl, fun rest hr => ?_⟩
    simp only [ignored, ht rest hr, id]

theorem isPeeking_refuse (fault : List Char → Fault) : (refuse fault : Reader α).IsPeeking := by
  intro s r a h
  simp [refuse] at h

theorem IsPeeking.map {reader : Reader α} (h : reader.IsPeeking) (f : α → β) :
    (reader.map f).IsPeeking := by
  intro s r b hs
  simp only [Reader.map] at hs
  split at hs
  · simp at hs
  · next hr =>
    simp only [Except.ok.injEq, Prod.mk.injEq] at hs
    obtain ⟨rfl, rfl⟩ := hs
    obtain ⟨text, rfl, ht⟩ := h hr
    refine ⟨text, rfl, fun rest hrest => ?_⟩
    simp only [Reader.map, ht rest hrest]

theorem IsPeeking.afterColon {reader : Reader α} (h : reader.IsPeeking) :
    reader.afterColon.IsPeeking := by
  intro s r a hs
  simp only [Reader.afterColon] at hs
  split at hs
  · simp at hs
  · next hc =>
    obtain ⟨colon, rfl, hcolon⟩ := readColon_exact hc
    obtain ⟨text, rfl, ht⟩ := h hs
    refine ⟨colon ++ text, by simp, fun rest hrest => ?_⟩
    simp only [List.append_assoc, Reader.afterColon, hcolon, id, ht rest hrest]

/-- A list that is read stands between brackets, behind blanks. -/
theorem IsPeeking.list_inv {element : Reader α} (h : element.IsPeeking) {s r : List Char}
    {as : List α} (hs : (list element).run s = .ok (as, r)) :
    ∃ blanks text, Blanks blanks ∧ (list element).Takes ('[' :: text) as ∧
      s = blanks ++ '[' :: (text ++ r) := by
  change readList element s = .ok (as, r) at hs
  unfold readList at hs
  split at hs
  · next hbracket =>
    obtain ⟨blanks, hb, -, rfl⟩ := exists_blanks hbracket
    obtain ⟨text, rfl, ht⟩ := readElements_exact h hs
    refine ⟨blanks, text, hb, ⟨⟨_, _, rfl, by decide, by decide⟩, ?_⟩, rfl⟩
    intro before rest hbefore
    change readList element _ = _
    rw [readList, List.cons_append, skipBlanks_token hbefore (by decide)]
    exact ht rest
  · simp at hs

theorem IsPeeking.list {element : Reader α} (h : element.IsPeeking) :
    (Reader.list element).IsExact := by
  intro s r as hs
  obtain ⟨blanks, text, hb, ht, rfl⟩ := h.list_inv hs
  exact ⟨blanks, '[' :: text, hb, ht, rfl⟩

end Reader
end Implementors.Json
