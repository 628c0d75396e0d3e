import Implementors.Proofs.Json.Literal
import Implementors.Proofs.Json.NumeralText

/-! The grammar of JSON, apart from how it is read: which texts spell a value, in any layout and
with any escapes. A value that nobody wants is passed over to its end, whatever it holds. -/
namespace Implementors.Json

/-- A value. A number is kept as its numeral; an object keeps its members in their order, with
repeated keys. -/
inductive Value
  | null
  | boolean (b : Bool)
  | number (numeral : List Char)
  | string (s : String)
  | list (vs : List Value)
  | object (members : List (String × Value))

/-- What stands before an item of a list or an object: blanks, and a comma unless it is the first. -/
inductive Separator : Bool → List Char → Prop
  | first {blanks : List Char} (hb : Blanks blanks) : Separator true blanks
  | next {before after : List Char} (hb : Blanks before) (ha : Blanks after) :
      Separator false (before ++ ',' :: after)

/-- What a text may spell: a value, or what is left of a list or an object from behind its opening
bracket or one of its items on. -/
inductive Phrase
  | value (v : Value)
  | elements (isFirst : Bool) (vs : List Value)
  | members (isFirst : Bool) (ms : List (String × Value))

inductive Spells : Phrase → List Char → Prop
  | null : Spells (.value .null) ['n', 'u', 'l', 'l']
  | yes : Spells (.value (.boolean true)) ['t', 'r', 'u', 'e']
  | no : Spells (.value (.boolean false)) ['f', 'a', 'l', 's', 'e']
  | number {text : List Char} (h : NumeralText text) : Spells (.value (.number text)) text
  | string {text : List Char} {s : String} (h : Literal text s) : Spells (.value (.string s)) text
  | list {text : List Char} {vs : List Value} (h : Spells (.elements true vs) text) :
      Spells (.value (.list vs)) ('[' :: text)
  | object {text : List Char} {ms : List (String × Value)} (h : Spells (.members true ms) text) :
      Spells (.value (.object ms)) ('{' :: text)
  | noElement {isFirst : Bool} {blanks : List Char} (hb : Blanks blanks) :
      Spells (.elements isFirst []) (blanks ++ [']'])
  | element {isFirst : Bool} {separator text tail : List Char} {v : Value} {vs : List Value}
      (hs : Separator isFirst separator) (hv : Spells (.value v) text)
      (ht : Spells (.elements false vs) tail) :
      Spells (.elements isFirst (v :: vs)) (separator ++ (text ++ tail))
  | noMember {isFirst : Bool} {blanks : List Char} (hb : Blanks blanks) :
      Spells (.members isFirst []) (blanks ++ ['}'])
  | member {isFirst : Bool} {separator literal before after text tail : List Char} {key : String}
      {v : Value} {ms : List (String × Value)} (hs : Separator isFirst separator)
      (hk : Literal literal key) (hb : Blanks before) (ha : Blanks after)
      (hv : Spells (.value v) text) (ht : Spells (.members false ms) tail) :
      Spells (.members isFirst ((key, v) :: ms))
        (separator ++ (literal ++ (before ++ ':' :: (after ++ (text ++ tail)))))

/-- A whole text for a value, with blanks around it. -/
def IsJson (v : Value) (text : List Char) : Prop :=
  ∃ before t after, Blanks before ∧ Spells (.value v) t ∧ Blanks after ∧
    text = before ++ (t ++ after)

/-- The first characters of the texts for a value. -/
def Value.StartsWith : Value → Char → Prop
  | null, c => c = 'n'
  | boolean b, c => c = if b then 't' else 'f'
  | number _, c => isNumberStart c = true
  | string _, c => c = '"'
  | list _, c => c = '['
  | object _, c => c = '{'

theorem NumeralText.starts {text : List Char} (h : NumeralText text) :
    ∃ c t, text = c :: t ∧ isNumberStart c = true := by
  obtain @⟨sign, whole, fraction, exponent, hs, hw, -, -⟩ := h
  rcases hs with rfl | rfl
  · obtain ⟨c, whole, rfl⟩ := List.exists_cons_of_ne_nil hw.1.1
    have hc : c.isDigit = true := List.all_eq_true.mp hw.1.2 c List.mem_cons_self
    exact ⟨c, _, rfl, by simp [isNumberStart, hc]⟩
  · exact ⟨'-', _, rfl, rfl⟩

theorem Spells.starts {v : Value} {text : List Char} (h : Spells (.value v) text) :
    ∃ c t, text = c :: t ∧ v.StartsWith c := by
  cases h with
  | number h => exact h.starts
  | string h =>
    obtain ⟨body, -, rfl⟩ := h
    exact ⟨_, _, rfl, rfl⟩
  | _ => exact ⟨_, _, rfl, rfl⟩

theorem isNumberStart_ascii {c : Char} (h : isNumberStart c = true) : c.toNat < 128 := by
  simp only [isNumberStart, Bool.or_eq_true, beq_iff_eq] at h
  rcases h with rfl | h
  · decide
  · simp only [Char.isDigit, ge_iff_le, Bool.and_eq_true, decide_eq_true_eq,
      UInt32.le_iff_toNat_le] at h
    have h9 : '9'.val.toNat = 57 := rfl
    have hc : c.toNat = c.val.toNat := rfl
    omega

theorem isNumberStart_token {c : Char} (h : isNumberStart c = true) :
    isBlank c = false ∧ c ∉ ['n', 't', 'f', '"', '[', '{', ']', '}'] := by
  have hall : ∀ n < 128, isNumberStart (Char.ofNat n) = true →
      isBlank (Char.ofNat n) = false ∧
        Char.ofNat n ∉ ['n', 't', 'f', '"', '[', '{', ']', '}'] := by decide
  exact forall_ascii (P := fun c => isNumberStart c = true → isBlank c = false ∧
    c ∉ ['n', 't', 'f', '"', '[', '{', ']', '}']) hall (isNumberStart_ascii h) h

/-- No value starts with a blank, or like the end of a list. -/
theorem Value.StartsWith.token {v : Value} {c : Char} (h : v.StartsWith c) :
    isBlank c = false ∧ c ≠ ']' := by
  cases v with
  | boolean b => cases b <;> exact h ▸ by decide
  | number numeral =>
    obtain ⟨hb, hc⟩ := isNumberStart_token h
    exact ⟨hb, by rintro rfl; simp at hc⟩
  | _ => exact h ▸ by decide

theorem blank_ne {c : Char} (h : isBlank c = true) :
    c.isDigit = false ∧ c ≠ '.' ∧ c ≠ 'e' ∧ c ≠ 'E' := by
  simp only [isBlank, Bool.or_eq_true, beq_iff_eq] at h
  rcases h with ((rfl | rfl) | rfl) | rfl <;> decide

theorem stops_of_blanks {blanks s : List Char} (hb : Blanks blanks) (hs : Stops s) :
    Stops (blanks ++ s) := by
  cases blanks with
  | nil => exact hs
  | cons c blanks => exact stops_cons (blank_ne (List.all_eq_true.mp hb c List.mem_cons_self)) _

theorem Separator.stops {separator : List Char} (h : Separator false separator) (s : List Char) :
    Stops (separator ++ s) := by
  cases h with
  | next hb _ =>
    rw [List.append_assoc]
    exact stops_of_blanks hb (stops_cons (by decide) _)

/-- A numeral ends before a comma and before the end of its list. -/
theorem stops_elements {tail : List Char} {vs : List Value}
    (h : Spells (.elements false vs) tail) (rest : List Char) : Stops (tail ++ rest) := by
  cases h with
  | noElement hb =>
    rw [List.append_assoc]
    exact stops_of_blanks hb (stops_cons (by decide) _)
  | element hs =>
    rw [List.append_assoc]
    exact hs.stops _

theorem stops_members {tail : List Char} {ms : List (String × Value)}
    (h : Spells (.members false ms) tail) (rest : List Char) : Stops (tail ++ rest) := by
  cases h with
  | noMember hb =>
    rw [List.append_assoc]
    exact stops_of_blanks hb (stops_cons (by decide) _)
  | member hs =>
    rw [List.append_assoc]
    exact hs.stops _

/-- Passes over what is left of a list or an object, inside further brackets. -/
def skipInside (b : Bracket) (outer : List Bracket) :
    Bool → List Char → Except Fault (List Char)
  | true => skip (.opened b) outer
  | false => skip .closed (b :: outer)

/-- What passing over a phrase comes to: it ends right behind it. -/
def Phrase.Skips : Phrase → List Char → Prop
  | value _, text => ∀ outer blanks rest, Blanks blanks → Stops rest →
      skip .value outer (blanks ++ (text ++ rest)) = skip .closed outer rest
  | elements isFirst _, text => ∀ outer rest,
      skipInside .list outer isFirst (text ++ rest) = skip .closed outer rest
  | members isFirst _, text => ∀ outer rest,
      skipInside .object outer isFirst (text ++ rest) = skip .closed outer rest

section

variable {b : Bracket} {outer : List Bracket} {isFirst : Bool}
  {blanks separator literal before : List Char}

theorem skipInside_end (hb : Blanks blanks) (rest : List Char) :
    skipInside b outer isFirst (blanks ++ b.closing :: rest) = skip .closed outer rest := by
  have hclosing : isBlank b.closing = false := by cases b <;> rfl
  have hs := skipBlanks_token hb hclosing rest
  cases isFirst with
  | true => exact skip_empty hs
  | false => exact skip_end hs

theorem skipInside_element (hs : Separator isFirst separator) {c : Char}
    (hc : isBlank c = false ∧ c ≠ ']') (s : List Char) :
    ∃ blanks, Blanks blanks ∧ skipInside .list outer isFirst (separator ++ c :: s) =
      skip .value (.list :: outer) (blanks ++ c :: s) := by
  cases hs with
  | first hb => exact ⟨[], rfl, skip_first (skipBlanks_token hb hc.1 s) hc.2 rfl⟩
  | @next before after hb ha =>
    refine ⟨after, ha, ?_⟩
    rw [List.append_assoc]
    exact skip_next (skipBlanks_token hb (by decide) _) rfl

theorem skipKey_literal {key : String} (hk : Literal literal key) (hb : Blanks blanks)
    (hbefore : Blanks before) (s : List Char) :
    skipKey (blanks ++ (literal ++ (before ++ ':' :: s))) = .ok s := by
  obtain ⟨body, hbody, rfl⟩ := hk
  rw [skipKey, List.cons_append, skipBlanks_token hb (by decide), List.append_assoc]
  simp only [if_true, List.singleton_append, skipQuoted_bodyText hbody]
  exact readColon_colon hbefore s

theorem skipInside_member {key : String} (hs : Separator isFirst separator)
    (hk : Literal literal key) (hb : Blanks before) (s : List Char) :
    skipInside .object outer isFirst (separator ++ (literal ++ (before ++ ':' :: s))) =
      skip .value (.object :: outer) s := by
  cases hs with
  | first hblanks =>
    have hkey := skipKey_literal hk blanks_nil hb s
    obtain ⟨body, -, rfl⟩ := hk
    exact skip_first (skipBlanks_token hblanks (by decide) _) (by decide) hkey
  | next hbefore hafter =>
    rw [List.append_assoc]
    exact skip_next (skipBlanks_token hbefore (by decide) _) (skipKey_literal hk hafter hb s)

end

/-- A scalar is passed over at once. -/
theorem skips_scalar {v : Value} {c : Char} {t : List Char} (hc : isBlank c = false)
    (hlist : c ≠ '[') (hobject : c ≠ '{')
    (h : ∀ rest, Stops rest → skipScalar (c :: (t ++ rest)) = .ok rest) :
    (Phrase.value v).Skips (c :: t) := by
  intro outer blanks rest hb hr
  exact skip_scalar (skipBlanks_token hb hc (t ++ rest)) hlist hobject (h rest hr)

theorem skipScalar_numeral {c : Char} {t : List Char} (h : NumeralText (c :: t))
    (hc : isNumberStart c = true) {rest : List Char} (hr : Stops rest) :
    skipScalar (c :: (t ++ rest)) = .ok rest := by
  obtain ⟨x, hscan⟩ := h.scan hr .invalidNumber
  have hne := (isNumberStart_token hc).2
  simp only [List.mem_cons, not_or] at hne
  obtain ⟨hn, ht, hf, hq, -⟩ := hne
  rw [List.cons_append] at hscan
  rw [skipScalar]
  · simp only [hc, if_true, hscan]
  all_goals assumption

/-- Whatever a text spells, passing over it ends right behind it. -/
theorem Spells.skips {p : Phrase} {text : List Char} (h : Spells p text) : p.Skips text := by
  induction h with
  | null => exact skips_scalar rfl (by decide) (by decide) fun rest _ => readWord_append _ rest
  | yes => exact skips_scalar rfl (by decide) (by decide) fun rest _ => readWord_append _ rest
  | no => exact skips_scalar rfl (by decide) (by decide) fun rest _ => readWord_append _ rest
  | @number text h =>
    obtain ⟨c, t, rfl, hc⟩ := h.starts
    obtain ⟨hblank, hne⟩ := isNumberStart_token hc
    have hlist : c ≠ '[' := by
      rintro rfl
      simp at hne
    have hobject : c ≠ '{' := by
      rintro rfl
      simp at hne
    exact skips_scalar hblank hlist hobject fun rest hr => skipScalar_numeral h hc hr
  | @string text s h =>
    obtain ⟨body, hbody, rfl⟩ := h
    refine skips_scalar rfl (by decide) (by decide) fun rest _ => ?_
    rw [List.append_assoc]
    exact skipQuoted_bodyText hbody rest
  | list _ ih =>
    intro outer blanks rest hb _
    exact (skip_list (skipBlanks_token hb rfl _)).trans (ih outer rest)
  | object _ ih =>
    intro outer blanks rest hb _
    exact (skip_object (skipBlanks_token hb rfl _)).trans (ih outer rest)
  | noElement hb =>
    intro outer rest
    rw [List.append_assoc]
    exact skipInside_end hb rest
  | @element isFirst separator text tail v vs hs hv ht ihv iht =>
    intro outer rest
    obtain ⟨c, t, rfl, hc⟩ := hv.starts
    -- nothing behind an element could go on with a numeral
    have hvalue (blanks : List Char) (hb : Blanks blanks) :=
      ihv (.list :: outer) blanks (tail ++ rest) hb (stops_elements ht rest)
    simp only [List.append_assoc, List.cons_append] at hvalue ⊢
    obtain ⟨blanks, hb, hskip⟩ :=
      @skipInside_element outer isFirst separator hs c hc.token (t ++ (tail ++ rest))
    rw [hskip, hvalue blanks hb]
    exact iht outer rest
  | noMember hb =>
    intro outer rest
    rw [List.append_assoc]
    exact skipInside_end hb rest
  | @member isFirst separator literal before after text tail key v ms hs hk hb ha hv ht ihv iht =>
    intro outer rest
    simp only [List.append_assoc, List.cons_append]
    rw [skipInside_member hs hk hb, ihv _ after _ ha (stops_members ht rest)]
    exact iht outer rest

end Implementors.Json
