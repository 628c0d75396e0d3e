import Implementors.Proofs.Json.Takes

/-! What a reader takes settles what it gives. Words, escapes and string literals end by
themselves, so nothing behind them is looked at. -/
namespace Implementors.Json

variable {β : Type}

/-- `f` takes the text that stands before `r` in `s`, and what it gives does not depend on what
stands behind that text. -/
def Exact (f : List Char → Except Fault β) (give : List Char → β) (s r : List Char) : Prop :=
  ∃ text, s = text ++ r ∧ ∀ rest, f (text ++ rest) = .ok (give rest)

theorem Exact.suffix {f : List Char → Except Fault β} {give : List Char → β} {s r : List Char}
    (h : Exact f give s r) : r <:+ s := by
  obtain ⟨text, hs, -⟩ := h
  exact ⟨text, hs.symm⟩

theorem exists_blanks {s r : List Char} {c : Char} (h : skipBlanks s = c :: r) :
    ∃ blanks, Blanks blanks ∧ isBlank c = false ∧ s = blanks ++ c :: r := by
  refine ⟨s.takeWhile isBlank, List.all_takeWhile, ?_, ?_⟩
  · have hc := List.head?_dropWhile_not isBlank s
    rwa [show s.dropWhile isBlank = c :: r from h] at hc
  · rw [← h, skipBlanks, List.takeWhile_append_dropWhile]

theorem readWord_exact {word s r : List Char} (h : readWord word s = .ok r) :
    Exact (readWord word) id s r :=
  ⟨word, readWord_eq_ok h, readWord_append word⟩

theorem readHex_exact {s r : List Char} {n : Nat} (h : readHex s = .ok (n, r)) :
    Exact readHex (n, ·) s r := by
  unfold readHex at h
  split at h
  · next a b c d r' =>
    split at h
    · next ha hb hc hd =>
      simp only [Except.ok.injEq, Prod.mk.injEq] at h
      obtain ⟨rfl, rfl⟩ := h
      refine ⟨[a, b, c, d], rfl, fun rest => ?_⟩
      simp only [List.cons_append, List.nil_append, readHex, ha, hb, hc, hd]
    · simp at h
  · simp at h

theorem readLowSurrogate_exact {high : Nat} {s r : List Char} {c : Char}
    (h : readLowSurrogate high s = .ok (c, r)) : Exact (readLowSurrogate high) (c, ·) s r := by
  unfold readLowSurrogate at h
  split at h
  · split at h
    · simp at h
    · next hx =>
      split at h
      · next hl =>
        simp only [Except.ok.injEq, Prod.mk.injEq] at h
        obtain ⟨rfl, rfl⟩ := h
        obtain ⟨text, rfl, ht⟩ := readHex_exact hx
        refine ⟨'\\' :: 'u' :: text, rfl, fun rest => ?_⟩
        simp only [List.cons_append, readLowSurrogate, ht rest, hl, if_true]
      · simp at h
  all_goals simp at h

theorem readUnicode_exact {s r : List Char} {c : Char} (h : readUnicode s = .ok (c, r)) :
    Exact readUnicode (c, ·) s r := by
  unfold readUnicode at h
  split at h
  · simp at h
  · next n r' hx =>
    obtain ⟨text, rfl, ht⟩ := readHex_exact hx
    split at h
    · simp at h
    · next hlow =>
      split at h
      · next hhigh =>
        obtain ⟨more, rfl, hm⟩ := readLowSurrogate_exact h
        refine ⟨text ++ more, (List.append_assoc ..).symm, fun rest => ?_⟩
        simp only [List.append_assoc, readUnicode, ht, hlow, hhigh, hm, if_true]
        simp
      · next hhigh =>
        simp only [Except.ok.injEq, Prod.mk.injEq] at h
        obtain ⟨rfl, rfl⟩ := h
        refine ⟨text, rfl, fun rest => ?_⟩
        simp only [readUnicode, ht, hlow, hhigh]
        simp

theorem readEscape_exact {s r : List Char} {c : Char} (h : readEscape s = .ok (c, r)) :
    Exact readEscape (c, ·) s r := by
  unfold readEscape at h
  split at h
  · simp at h
  · obtain ⟨text, rfl, ht⟩ := readUnicode_exact h
    exact ⟨'u' :: text, rfl, ht⟩
  · next d s' hu =>
    split at h
    · next e he =>
      simp only [Except.ok.injEq, Prod.mk.injEq] at h
      obtain ⟨rfl, rfl⟩ := h
      refine ⟨[d], rfl, fun rest => ?_⟩
      rw [List.singleton_append, readEscape]
      · simp only [he]
      · exact hu
    · simp at h

theorem unquote_exact {held s t r : List Char} (h : unquote held s = .ok (t, r)) :
    Exact (unquote held) (t, ·) s r := by
  fun_induction unquote held s with
  | case1 => simp at h
  | case2 held s =>
    simp only [Except.ok.injEq, Prod.mk.injEq] at h
    obtain ⟨rfl, rfl⟩ := h
    refine ⟨['"'], rfl, fun rest => ?_⟩
    rw [List.singleton_append, unquote, if_pos rfl]
  | case3 => simp at h
  | case4 held s d r' he _ ih =>
    obtain ⟨escaped, rfl, hescaped⟩ := readEscape_exact ‹readEscape s = _›
    obtain ⟨text, rfl, ht⟩ := ih h
    refine ⟨'\\' :: (escaped ++ text), by simp, fun rest => ?_⟩
    rw [List.cons_append, List.append_assoc, unquote_backslash (hescaped (text ++ rest)) held, ht]
  | case5 => simp at h
  | case6 held c s hquote hback hcontrol ih =>
    obtain ⟨text, rfl, ht⟩ := ih h
    refine ⟨c :: text, rfl, fun rest => ?_⟩
    rw [List.cons_append, unquote, if_neg hquote, if_neg hback, if_neg hcontrol, ht]

theorem skipEscape_exact {s r : List Char} (h : skipEscape s = .ok r) :
    Exact skipEscape id s r := by
  unfold skipEscape at h
  split at h
  · simp at h
  · split at h
    · simp at h
    · next hx =>
      obtain rfl := Except.ok.inj h
      obtain ⟨text, rfl, ht⟩ := readHex_exact hx
      refine ⟨'u' :: text, rfl, fun rest => ?_⟩
      simp only [List.cons_append, skipEscape, ht rest, id]
  · next c s' hu =>
    split at h
    · next he =>
      obtain rfl := Except.ok.inj h
      refine ⟨[c], rfl, fun rest => ?_⟩
      rw [List.singleton_append, skipEscape]
      · simp only [he, id]
      · exact hu
    · simp at h

theorem skipQuoted_backslash {s r : List Char} (h : skipEscape s = .ok r) :
    skipQuoted ('\\' :: s) = skipQuoted r := by
  rw [skipQuoted, if_neg (by decide), if_pos rfl]
  split <;> simp_all

theorem skipQuoted_exact {s r : List Char} (h : skipQuoted s = .ok r) :
    Exact skipQuoted id s r := by
  fun_induction skipQuoted s with
  | case1 => simp at h
  | case2 s =>
    obtain rfl := Except.ok.inj h
    refine ⟨['"'], rfl, fun rest => ?_⟩
    rw [List.singleton_append, skipQuoted, if_pos rfl]
    rfl
  | case3 => simp at h
  | case4 s r' he _ ih =>
    obtain ⟨escaped, rfl, hescaped⟩ := skipEscape_exact ‹skipEscape s = _›
    obtain ⟨text, rfl, ht⟩ := ih h
    refine ⟨'\\' :: (escaped ++ text), by simp, fun rest => ?_⟩
    rw [List.cons_append, List.append_assoc, skipQuoted_backslash (hescaped (text ++ rest))]
    exact ht rest
  | case5 => simp at h
  | case6 c s hquote hback hcontrol ih =>
    obtain ⟨text, rfl, ht⟩ := ih h
    refine ⟨c :: text, rfl, fun rest => ?_⟩
    rw [List.cons_append, skipQuoted, if_neg hquote, if_neg hback, if_neg hcontrol, ht]

theorem readColon_inv {s r : List Char} (h : readColon s = .ok r) : skipBlanks s = ':' :: r := by
  unfold readColon at h
  split at h
  · simp at h
  · next hs =>
    split at h
    · next hc => rw [hs, hc, Except.ok.inj h]
    · simp at h

theorem readColon_exact {s r : List Char} (h : readColon s = .ok r) : Exact readColon id s r := by
  obtain ⟨blanks, hb, -, rfl⟩ := exists_blanks (readColon_inv h)
  refine ⟨blanks ++ [':'], by simp, fun rest => ?_⟩
  rw [List.append_assoc]
  exact readColon_colon hb rest

end Implementors.Json
