import Implementors.Proofs.Json.Exact

/-! Numerals. One goes on as long as it can, so what is taken for it depends on the character
behind it, but on nothing further. -/
namespace Implementors.Json

variable {β : Type}

/-- `f` takes the text that stands before `r` in `s`, whenever that text is followed by what `r`
starts with. -/
def Peeks (f : List Char → Except Fault β) (give : List Char → β) (s r : List Char) : Prop :=
  ∃ text, s = text ++ r ∧ ∀ rest, rest.head? = r.head? → f (text ++ rest) = .ok (give rest)

theorem Exact.peeks {f : List Char → Except Fault β} {give : List Char → β} {s r : List Char}
    (h : Exact f give s r) : Peeks f give s r := by
  obtain ⟨text, hs, ht⟩ := h
  exact ⟨text, hs, fun rest _ => ht rest⟩

theorem head?_append_congr {r rest : List Char} (h : rest.head? = r.head?) (text : List Char) :
    (text ++ rest).head? = (text ++ r).head? := by
  rw [List.head?_append, List.head?_append, h]

theorem exists_cons_of_head? {s t : List Char} {c : Char} (h : (c :: t).head? = s.head?) :
    ∃ r, s = c :: r :=
  List.head?_eq_some_iff.mp h.symm

theorem scanDigits_append {ds rest : List Char} (hne : ds ≠ []) (hall : ∀ c ∈ ds, c.isDigit = true)
    (hstop : ∀ c ∈ rest.head?, c.isDigit = false) (ended : Cause) :
    scanDigits ended (ds ++ rest) = .ok (ds, rest) := by
  have hrest : rest.takeWhile Char.isDigit = [] ∧ rest.dropWhile Char.isDigit = rest := by
    cases rest with
    | nil => exact ⟨rfl, rfl⟩
    | cons c rest => simp [hstop c rfl]
  rw [scanDigits, List.takeWhile_append_of_pos hall, List.dropWhile_append_of_pos hall, hrest.1,
    hrest.2, List.append_nil]
  split
  · contradiction
  · rfl

theorem scanDigits_peeks {ended : Cause} {s ds r : List Char}
    (h : scanDigits ended s = .ok (ds, r)) :
    Peeks (scanDigits ended) (ds, ·) s r := by
  unfold scanDigits at h
  split at h
  · simp at h
  · next hne =>
    simp only [Except.ok.injEq, Prod.mk.injEq] at h
    obtain ⟨rfl, rfl⟩ := h
    refine ⟨s.takeWhile Char.isDigit, List.takeWhile_append_dropWhile.symm, fun rest hr => ?_⟩
    refine scanDigits_append hne (List.all_eq_true.mp List.all_takeWhile) (fun c hc => ?_) ended
    have hstop := List.head?_dropWhile_not Char.isDigit s
    rw [← hr, Option.mem_def.mp hc] at hstop
    exact hstop

theorem scanWhole_peeks {ended : Cause} {s ds r : List Char} (h : scanWhole ended s = .ok (ds, r)) :
    Peeks (scanWhole ended) (ds, ·) s r := by
  unfold scanWhole at h
  split at h
  · next d s' =>
    split at h
    · simp at h
    · next hd =>
      simp only [Except.ok.injEq, Prod.mk.injEq] at h
      obtain ⟨rfl, rfl⟩ := h
      refine ⟨['0'], rfl, fun rest hr => ?_⟩
      obtain ⟨t, rfl⟩ := exists_cons_of_head? hr.symm
      rw [List.singleton_append, scanWhole, if_neg hd]
  · next hzero =>
    have hshorter := scanDigits_shorter h
    obtain ⟨text, rfl, ht⟩ := scanDigits_peeks h
    refine ⟨text, rfl, fun rest hr => ?_⟩
    -- the second character decides; when it stands in the rest, it is the one that `r` starts with
    have hsecond : ∀ d t, text ++ rest ≠ '0' :: d :: t := by
      intro d t he
      match text with
      | [] => simp at hshorter
      | [_] =>
        obtain ⟨rfl, rfl⟩ := List.cons.inj he
        obtain ⟨u, rfl⟩ := exists_cons_of_head? hr
        exact hzero d u rfl
      | _ :: _ :: text =>
        simp only [List.cons_append, List.cons.injEq] at he
        obtain ⟨rfl, rfl, -⟩ := he
        exact hzero _ _ rfl
    rw [scanWhole]
    · exact ht rest hr
    · exact fun d t => hsecond d t

theorem scanFraction_peeks {ended : Cause} {s ds r : List Char}
    (h : scanFraction ended s = .ok (ds, r)) : Peeks (scanFraction ended) (ds, ·) s r := by
  unfold scanFraction at h
  split at h
  · obtain ⟨text, rfl, ht⟩ := scanDigits_peeks h
    exact ⟨'.' :: text, rfl, ht⟩
  · next hpoint =>
    simp only [Except.ok.injEq, Prod.mk.injEq] at h
    obtain ⟨rfl, rfl⟩ := h
    refine ⟨[], rfl, fun rest hr => ?_⟩
    rw [List.nil_append, scanFraction]
    rintro t rfl
    obtain ⟨u, rfl⟩ := exists_cons_of_head? hr
    exact hpoint u rfl

theorem scanSign_peeks (s : List Char) : ∃ text, s = text ++ (scanSign s).2 ∧
    ∀ rest, rest.head? = (scanSign s).2.head? →
      scanSign (text ++ rest) = ((scanSign s).1, rest) := by
  unfold scanSign
  split
  · exact ⟨['+'], rfl, fun rest _ => rfl⟩
  · exact ⟨['-'], rfl, fun rest _ => rfl⟩
  · next hplus hminus =>
    refine ⟨[], rfl, fun rest hr => ?_⟩
    rw [List.nil_append]
    split
    · obtain ⟨u, rfl⟩ := exists_cons_of_head? hr
      exact absurd rfl (hplus u)
    · obtain ⟨u, rfl⟩ := exists_cons_of_head? hr
      exact absurd rfl (hminus u)
    · rfl

theorem scanExponentDigits_peeks {ended : Cause} {s r : List Char} {x : Option (Bool × List Char)}
    (h : scanExponentDigits ended s = .ok (x, r)) :
    Peeks (scanExponentDigits ended) (x, ·) s r := by
  unfold scanExponentDigits at h
  split at h
  · simp at h
  · next hd =>
    simp only [Except.ok.injEq, Prod.mk.injEq] at h
    obtain ⟨rfl, rfl⟩ := h
    obtain ⟨sign, hs, hsign⟩ := scanSign_peeks s
    obtain ⟨text, hr, ht⟩ := scanDigits_peeks hd
    refine ⟨sign ++ text, by rw [List.append_assoc, ← hr, ← hs], fun rest hrest => ?_⟩
    have hhead : (text ++ rest).head? = (scanSign s).2.head? := hr ▸ head?_append_congr hrest text
    rw [List.append_assoc, scanExponentDigits, hsign (text ++ rest) hhead]
    simp only [ht rest hrest]

theorem scanExponent_peeks {ended : Cause} {s r : List Char} {x : Option (Bool × List Char)}
    (h : scanExponent ended s = .ok (x, r)) : Peeks (scanExponent ended) (x, ·) s r := by
  unfold scanExponent at h
  split at h
  · obtain ⟨text, rfl, ht⟩ := scanExponentDigits_peeks h
    exact ⟨'e' :: text, rfl, ht⟩
  · obtain ⟨text, rfl, ht⟩ := scanExponentDigits_peeks h
    exact ⟨'E' :: text, rfl, ht⟩
  · next hlower hupper =>
    simp only [Except.ok.injEq, Prod.mk.injEq] at h
    obtain ⟨rfl, rfl⟩ := h
    refine ⟨[], rfl, fun rest hr => ?_⟩
    rw [List.nil_append, scanExponent]
    · rintro t rfl
      obtain ⟨u, rfl⟩ := exists_cons_of_head? hr
      exact hlower u rfl
    · rintro t rfl
      obtain ⟨u, rfl⟩ := exists_cons_of_head? hr
      exact hupper u rfl

theorem scanUnsigned_peeks {ended : Cause} {negative : Bool} {s r : List Char} {x : Numeral}
    (h : scanUnsigned ended negative s = .ok (x, r)) :
    Peeks (scanUnsigned ended negative) (x, ·) s r := by
  unfold scanUnsigned at h
  split at h
  · simp at h
  · next hw =>
    split at h
    · simp at h
    · next hf =>
      split at h
      · simp at h
      · next he =>
        simp only [Except.ok.injEq, Prod.mk.injEq] at h
        obtain ⟨rfl, rfl⟩ := h
        obtain ⟨whole, rfl, hwhole⟩ := scanWhole_peeks hw
        obtain ⟨fraction, rfl, hfraction⟩ := scanFraction_peeks hf
        obtain ⟨exponent, rfl, hexponent⟩ := scanExponent_peeks he
        refine ⟨whole ++ (fraction ++ exponent), by simp, fun rest hr => ?_⟩
        have hbehind := head?_append_congr hr exponent
        simp only [List.append_assoc, scanUnsigned, hexponent rest hr,
          hfraction (exponent ++ rest) hbehind,
          hwhole (fraction ++ (exponent ++ rest)) (head?_append_congr hbehind fraction)]

theorem scanNumeral_peeks {ended : Cause} {s r : List Char} {x : Numeral}
    (h : scanNumeral ended s = .ok (x, r)) : Peeks (scanNumeral ended) (x, ·) s r := by
  unfold scanNumeral at h
  split at h
  · obtain ⟨text, rfl, ht⟩ := scanUnsigned_peeks h
    exact ⟨'-' :: text, rfl, ht⟩
  · next hminus =>
    obtain ⟨text, rfl, ht⟩ := scanUnsigned_peeks h
    refine ⟨text, rfl, fun rest hr => ?_⟩
    rw [scanNumeral]
    · exact ht rest hr
    · intro t he
      obtain ⟨u, hu⟩ := exists_cons_of_head? (he ▸ head?_append_congr hr text)
      exact hminus u hu

end Implementors.Json
