import Implementors.Proofs.Json.Peeking

/-! The grammar of numerals, apart from how they are scanned. A numeral is scanned to its end when
nothing behind it could go on with it. -/
namespace Implementors.Json

def IsDigits (s : List Char) : Prop := s ≠ [] ∧ s.all Char.isDigit = true

/-- The digits before the point: a zero stands alone. -/
def WholeText (s : List Char) : Prop := IsDigits s ∧ (s.head? = some '0' → s = ['0'])

inductive FractionText : List Char → Prop
  | absent : FractionText []
  | point {ds : List Char} (hd : IsDigits ds) : FractionText ('.' :: ds)

inductive ExponentText : List Char → Prop
  | absent : ExponentText []
  | marked {mark : Char} {sign ds : List Char} (hm : mark = 'e' ∨ mark = 'E')
      (hs : sign = [] ∨ sign = ['+'] ∨ sign = ['-']) (hd : IsDigits ds) :
      ExponentText (mark :: (sign ++ ds))

inductive NumeralText : List Char → Prop
  | parts {sign whole fraction exponent : List Char} (hs : sign = [] ∨ sign = ['-'])
      (hw : WholeText whole) (hf : FractionText fraction) (he : ExponentText exponent) :
      NumeralText (sign ++ (whole ++ (fraction ++ exponent)))

/-- No digits go on with this rest. -/
def StopsDigits (rest : List Char) : Prop := ∀ c ∈ rest.head?, c.isDigit = false

/-- No numeral goes on with this rest. -/
def Stops (rest : List Char) : Prop :=
  ∀ c ∈ rest.head?, c.isDigit = false ∧ c ≠ '.' ∧ c ≠ 'e' ∧ c ≠ 'E'

theorem Stops.digits {rest : List Char} (h : Stops rest) : StopsDigits rest :=
  fun c hc => (h c hc).1

theorem stops_nil : Stops [] := nofun

theorem stops_cons {c : Char} (h : c.isDigit = false ∧ c ≠ '.' ∧ c ≠ 'e' ∧ c ≠ 'E')
    (s : List Char) : Stops (c :: s) := by
  intro d hd
  obtain rfl := Option.some.inj hd
  exact h

theorem scanDigits_isDigits {ds : List Char} (h : IsDigits ds) {rest : List Char}
    (hr : StopsDigits rest) (ended : Cause) : scanDigits ended (ds ++ rest) = .ok (ds, rest) :=
  scanDigits_append h.1 (List.all_eq_true.mp h.2) hr ended

theorem ExponentText.stops {exponent rest : List Char} (h : ExponentText exponent)
    (hr : Stops rest) : ∀ c ∈ (exponent ++ rest).head?, c.isDigit = false ∧ c ≠ '.' := by
  cases h with
  | absent => exact fun c hc => ⟨(hr c hc).1, (hr c hc).2.1⟩
  | marked hm =>
    intro c hc
    obtain rfl := Option.some.inj hc
    rcases hm with rfl | rfl <;> decide

theorem FractionText.stops {fraction rest : List Char} (h : FractionText fraction)
    (hr : StopsDigits rest) : StopsDigits (fraction ++ rest) := by
  cases h with
  | absent => exact hr
  | point =>
    intro c hc
    obtain rfl := Option.some.inj hc
    decide

theorem scanWhole_wholeText {whole : List Char} (h : WholeText whole) {rest : List Char}
    (hr : StopsDigits rest) (ended : Cause) :
    scanWhole ended (whole ++ rest) = .ok (whole, rest) := by
  by_cases hzero : whole.head? = some '0'
  · obtain rfl := h.2 hzero
    cases rest with
    | nil => rfl
    | cons d rest =>
      have hd : ¬ d.isDigit = true := by simp [hr d rfl]
      rw [List.singleton_append, scanWhole, if_neg hd]
  · obtain ⟨c, whole, rfl⟩ := List.exists_cons_of_ne_nil h.1.1
    rw [scanWhole]
    · exact scanDigits_isDigits h.1 hr ended
    · rintro d s hs
      exact hzero (congrArg some (List.cons.inj hs).1)

theorem scanFraction_fractionText {fraction : List Char} (h : FractionText fraction)
    {rest : List Char} (hr : ∀ c ∈ rest.head?, c.isDigit = false ∧ c ≠ '.') (ended : Cause) :
    ∃ ds, scanFraction ended (fraction ++ rest) = .ok (ds, rest) := by
  cases h with
  | absent =>
    refine ⟨[], ?_⟩
    rw [List.nil_append, scanFraction]
    rintro s rfl
    exact (hr '.' rfl).2 rfl
  | @point ds hd => exact ⟨ds, scanDigits_isDigits hd (fun c hc => (hr c hc).1) ended⟩

theorem scanSign_digits {ds : List Char} (h : IsDigits ds) (rest : List Char) :
    scanSign (ds ++ rest) = (false, ds ++ rest) := by
  obtain ⟨c, ds, rfl⟩ := List.exists_cons_of_ne_nil h.1
  have hc : c.isDigit = true := List.all_eq_true.mp h.2 c List.mem_cons_self
  rw [List.cons_append, scanSign]
  · intro s hs
    rw [(List.cons.inj hs).1] at hc
    exact absurd hc (by decide)
  · intro s hs
    rw [(List.cons.inj hs).1] at hc
    exact absurd hc (by decide)

theorem scanExponent_exponentText {exponent : List Char} (h : ExponentText exponent)
    {rest : List Char} (hr : Stops rest) (ended : Cause) :
    ∃ x, scanExponent ended (exponent ++ rest) = .ok (x, rest) := by
  cases h with
  | absent =>
    refine ⟨none, ?_⟩
    rw [List.nil_append, scanExponent]
    · rintro s rfl
      exact (hr 'e' rfl).2.2.1 rfl
    · rintro s rfl
      exact (hr 'E' rfl).2.2.2 rfl
  | @marked mark sign ds hm hs hd =>
    have hdigits : ∃ x, scanExponentDigits ended (sign ++ ds ++ rest) = .ok (x, rest) := by
      have hscan := scanDigits_isDigits hd hr.digits ended
      rcases hs with rfl | rfl | rfl
      · refine ⟨some (false, ds), ?_⟩
        rw [List.nil_append, scanExponentDigits, scanSign_digits hd]
        simp only [hscan]
      · exact ⟨some (false, ds), by simp [scanExponentDigits, scanSign, hscan]⟩
      · exact ⟨some (true, ds), by simp [scanExponentDigits, scanSign, hscan]⟩
    rcases hm with rfl | rfl <;> exact hdigits

theorem NumeralText.scan {text : List Char} (h : NumeralText text) {rest : List Char}
    (hr : Stops rest) (ended : Cause) : ∃ x, scanNumeral ended (text ++ rest) = .ok (x, rest) := by
  obtain @⟨sign, whole, fraction, exponent, hs, hw, hf, he⟩ := h
  have hbehind := he.stops hr
  have hfollow : StopsDigits (fraction ++ (exponent ++ rest)) :=
    hf.stops fun c hc => (hbehind c hc).1
  have hwhole := scanWhole_wholeText hw hfollow ended
  obtain ⟨ds, hfraction⟩ := scanFraction_fractionText hf hbehind ended
  obtain ⟨x, hexponent⟩ := scanExponent_exponentText he hr ended
  have hunsigned (negative : Bool) :
      scanUnsigned ended negative (whole ++ (fraction ++ (exponent ++ rest))) =
        .ok (⟨negative, whole, ds, x⟩, rest) := by
    simp only [scanUnsigned, hwhole, hfraction, hexponent]
  simp only [List.append_assoc]
  rcases hs with rfl | rfl
  · refine ⟨⟨false, whole, ds, x⟩, ?_⟩
    rw [List.nil_append, scanNumeral]
    · exact hunsigned false
    · intro s hs
      obtain ⟨c, whole, rfl⟩ := List.exists_cons_of_ne_nil hw.1.1
      have hc := List.all_eq_true.mp hw.1.2 c List.mem_cons_self
      rw [(List.cons.inj hs).1] at hc
      exact absurd hc (by decide)
  · exact ⟨_, hunsigned true⟩

end Implementors.Json
