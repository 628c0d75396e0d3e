import Implementors.Proofs.Json.Peeking

/-! Passing over a value looks at one character behind it at most. One lemma for each way on says
how a skipping reader goes from stage to stage. -/
namespace Implementors.Json

theorem skipScalar_peeks {s r : List Char} (h : skipScalar s = .ok r) :
    Peeks skipScalar id s r := by
  unfold skipScalar at h
  split at h
  · simp at h
  · obtain ⟨text, rfl, ht⟩ := readWord_exact h
    exact ⟨'n' :: text, rfl, fun rest _ => ht rest⟩
  · obtain ⟨text, rfl, ht⟩ := readWord_exact h
    exact ⟨'t' :: text, rfl, fun rest _ => ht rest⟩
  · obtain ⟨text, rfl, ht⟩ := readWord_exact h
    exact ⟨'f' :: text, rfl, fun rest _ => ht rest⟩
  · obtain ⟨text, rfl, ht⟩ := skipQuoted_exact h
    exact ⟨'"' :: text, rfl, fun rest _ => ht rest⟩
  · next c s hnull htrue hfalse hquote =>
    split at h
    · next hc =>
      split at h
      · simp at h
      · next hx =>
        obtain rfl := Except.ok.inj h
        obtain ⟨text, hs, ht⟩ := scanNumeral_peeks hx
        refine ⟨text, hs, fun rest hr => ?_⟩
        obtain ⟨u, hu⟩ := exists_cons_of_head? (hs ▸ (head?_append_congr hr text).symm)
        have hn := ht rest hr
        rw [hu] at hn ⊢
        rw [skipScalar]
        · simp only [hc, if_true, hn, id]
        · exact hnull
        · exact htrue
        · exact hfalse
        · exact hquote
    · simp at h

theorem skipKey_exact {s r : List Char} (h : skipKey s = .ok r) : Exact skipKey id s r := by
  unfold skipKey at h
  split at h
  · simp at h
  · next c s' hs =>
    split at h
    · next hc =>
      split at h
      · simp at h
      · next t hq =>
        obtain ⟨blanks, hb, -, rfl⟩ := exists_blanks hs
        obtain ⟨quoted, rfl, hquoted⟩ := skipQuoted_exact hq
        obtain ⟨colon, rfl, hcolon⟩ := readColon_exact h
        refine ⟨blanks ++ c :: (quoted ++ colon), by simp, fun rest => ?_⟩
        simp only [List.append_assoc, List.cons_append, hc]
        rw [skipKey, skipBlanks_token hb (by decide)]
        simp only [hquoted, id, if_true]
        exact hcolon rest
    · simp at h

theorem skipToValue_exact {b : Bracket} {s r : List Char} (h : skipToValue b s = .ok r) :
    Exact (skipToValue b) id s r := by
  cases b with
  | list => exact ⟨[], Except.ok.inj h, fun rest => rfl⟩
  | object => exact skipKey_exact h

section

variable {outer : List Bracket} {b : Bracket} {s r t : List Char} {c : Char}

theorem skip_list (h : skipBlanks s = '[' :: r) :
    skip .value outer s = skip (.opened .list) outer r := by
  rw [skip]
  split <;> simp_all

theorem skip_object (h : skipBlanks s = '{' :: r) :
    skip .value outer s = skip (.opened .object) outer r := by
  rw [skip]
  split <;> simp_all

theorem skip_scalar (h : skipBlanks s = c :: r) (hlist : c ≠ '[') (hobject : c ≠ '{')
    (ht : skipScalar (c :: r) = .ok t) : skip .value outer s = skip .closed outer t := by
  rw [skip]
  split
  · simp_all
  · next d u hs =>
    obtain ⟨rfl, rfl⟩ := List.cons.inj (h.symm.trans hs)
    rw [if_neg hlist, if_neg hobject]
    split <;> simp_all

theorem skip_empty (h : skipBlanks s = b.closing :: r) :
    skip (.opened b) outer s = skip .closed outer r := by
  rw [skip]
  split <;> simp_all

theorem skip_first (h : skipBlanks s = c :: r) (hc : c ≠ b.closing)
    (ht : skipToValue b (c :: r) = .ok t) :
    skip (.opened b) outer s = skip .value (b :: outer) t := by
  conv => lhs; rw [skip]
  split
  · simp_all
  · next d u hs =>
    obtain ⟨rfl, rfl⟩ := List.cons.inj (h.symm.trans hs)
    rw [if_neg hc]
    split <;> simp_all

theorem skip_next (h : skipBlanks s = ',' :: r) (ht : skipToValue b r = .ok t) :
    skip .closed (b :: outer) s = skip .value (b :: outer) t := by
  conv => lhs; rw [skip]
  split
  · simp_all
  · next d u hs =>
    obtain ⟨rfl, rfl⟩ := List.cons.inj (h.symm.trans hs)
    rw [if_pos rfl]
    split <;> simp_all

theorem skip_end (h : skipBlanks s = b.closing :: r) :
    skip .closed (b :: outer) s = skip .closed outer r := by
  have hc : b.closing ≠ ',' := by cases b <;> decide
  rw [skip]
  split <;> simp_all

end

theorem skip_peeks {stage : Stage} {outer : List Bracket} {s r : List Char}
    (h : skip stage outer s = .ok r) : Peeks (skip stage outer) id s r := by
  fun_induction skip stage outer s with
  | case1 s =>
    obtain rfl := Except.ok.inj h
    exact ⟨[], rfl, fun rest _ => by simp [skip]⟩
  | case3 outer s t hs ih =>
    obtain ⟨blanks, hb, hc, rfl⟩ := exists_blanks hs
    obtain ⟨text, rfl, ht⟩ := ih h
    refine ⟨blanks ++ '[' :: text, by simp, fun rest hr => ?_⟩
    rw [List.append_assoc, List.cons_append, skip_list (skipBlanks_token hb hc _), ht rest hr]
  | case4 outer s t hs _ ih =>
    obtain ⟨blanks, hb, hc, rfl⟩ := exists_blanks hs
    obtain ⟨text, rfl, ht⟩ := ih h
    refine ⟨blanks ++ '{' :: text, by simp, fun rest hr => ?_⟩
    rw [List.append_assoc, List.cons_append, skip_object (skipBlanks_token hb hc _), ht rest hr]
  | case6 outer s c t hs hlist hobject u hu ih =>
    obtain ⟨blanks, hb, hc, rfl⟩ := exists_blanks hs
    obtain ⟨scalar, hscalar, hread⟩ := skipScalar_peeks hu
    obtain ⟨text, rfl, ht⟩ := ih h
    refine ⟨blanks ++ (scalar ++ text), by simp [hscalar], fun rest hr => ?_⟩
    have hhead := head?_append_congr hr text
    obtain ⟨v, hv⟩ := exists_cons_of_head? (hscalar ▸ (head?_append_congr hhead scalar).symm)
    have hscan := hread (text ++ rest) hhead
    rw [List.append_assoc, List.append_assoc]
    rw [hv] at hscan ⊢
    rw [skip_scalar (skipBlanks_token hb hc v) hlist hobject hscan]
    exact ht rest hr
  | case8 b outer s t hs ih =>
    obtain ⟨blanks, hb, hc, rfl⟩ := exists_blanks hs
    obtain ⟨text, rfl, ht⟩ := ih h
    refine ⟨blanks ++ b.closing :: text, by simp, fun rest hr => ?_⟩
    rw [List.append_assoc, List.cons_append, skip_empty (skipBlanks_token hb hc _), ht rest hr]
  | case10 b outer s c t hs hclosing u hu ih =>
    obtain ⟨blanks, hb, hc, rfl⟩ := exists_blanks hs
    obtain ⟨key, hkey, hread⟩ := skipToValue_exact hu
    obtain ⟨text, rfl, ht⟩ := ih h
    refine ⟨blanks ++ (key ++ text), by simp [hkey], fun rest hr => ?_⟩
    have hhead := head?_append_congr hr text
    obtain ⟨v, hv⟩ := exists_cons_of_head? (hkey ▸ (head?_append_congr hhead key).symm)
    have hvalue := hread (text ++ rest)
    rw [List.append_assoc, List.append_assoc]
    rw [hv] at hvalue ⊢
    rw [skip_first (skipBlanks_token hb hc v) hclosing hvalue]
    exact ht rest hr
  | case13 b outer s t u hu hs ih =>
    obtain ⟨blanks, hb, hc, rfl⟩ := exists_blanks hs
    obtain ⟨key, rfl, hread⟩ := skipToValue_exact hu
    obtain ⟨text, rfl, ht⟩ := ih h
    refine ⟨blanks ++ ',' :: (key ++ text), by simp, fun rest hr => ?_⟩
    rw [List.append_assoc, List.cons_append, List.append_assoc,
      skip_next (skipBlanks_token hb hc _) (hread (text ++ rest))]
    exact ht rest hr
  | case14 b outer s t hs _ ih =>
    obtain ⟨blanks, hb, hc, rfl⟩ := exists_blanks hs
    obtain ⟨text, rfl, ht⟩ := ih h
    refine ⟨blanks ++ b.closing :: text, by simp, fun rest hr => ?_⟩
    rw [List.append_assoc, List.cons_append, skip_end (skipBlanks_token hb hc _), ht rest hr]
  | _ => simp at h

theorem skipValue_peeks {s r : List Char} (h : skipValue s = .ok r) : Peeks skipValue id s r :=
  skip_peeks h

end Implementors.Json
