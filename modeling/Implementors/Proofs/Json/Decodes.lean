import Implementors.Proofs.Json.Grammar
import Mathlib.Data.List.Forall2

/-! What readers make of values. A reader of typed values decodes by a relation: of any text for a
value it gives what the relation says, with the text taken whole, and it refuses a value to which
the relation gives nothing. -/
namespace Implementors.Json

variable {α β : Type}

/-- Only a string starts with a quote, and so on for the other kinds that a reader may want. -/
theorem Value.StartsWith.eq_string {v : Value} (h : v.StartsWith '"') : ∃ s, v = .string s := by
  cases v with
  | string s => exact ⟨s, rfl⟩
  | boolean b => cases b <;> simp [StartsWith] at h
  | _ => simp [StartsWith, isNumberStart] at h

theorem Value.StartsWith.eq_boolean {v : Value} {c : Char} (h : v.StartsWith c)
    (hc : c = 't' ∨ c = 'f') : ∃ b, v = .boolean b := by
  cases v with
  | boolean b => exact ⟨b, rfl⟩
  | _ => rcases hc with rfl | rfl <;> simp [StartsWith, isNumberStart] at h

theorem Value.StartsWith.eq_list {v : Value} (h : v.StartsWith '[') : ∃ vs, v = .list vs := by
  cases v with
  | list vs => exact ⟨vs, rfl⟩
  | boolean b => cases b <;> simp [StartsWith] at h
  | _ => simp [StartsWith, isNumberStart] at h

theorem Value.StartsWith.eq_object {v : Value} (h : v.StartsWith '{') : ∃ ms, v = .object ms := by
  cases v with
  | object ms => exact ⟨ms, rfl⟩
  | boolean b => cases b <;> simp [StartsWith] at h
  | _ => simp [StartsWith, isNumberStart] at h

namespace Reader

def Decodes (reader : Reader α) (P : Value → α → Prop) : Prop :=
  ∀ ⦃v : Value⦄ ⦃text : List Char⦄, Spells (.value v) text →
    ∀ ⦃blanks rest : List Char⦄, Blanks blanks → Stops rest → ∀ (a : α) (r : List Char),
      reader.run (blanks ++ (text ++ rest)) = .ok (a, r) ↔ P v a ∧ r = rest

theorem decodes_string : string.Decodes fun v s => v = .string s := by
  intro v text h blanks rest hb _ a r
  obtain ⟨c, t, rfl, hc⟩ := h.starts
  by_cases hquote : c = '"'
  · subst hquote
    obtain ⟨s, rfl⟩ := hc.eq_string
    cases h with
    | string hl =>
      rw [string_run_eq_ok_iff.mpr ⟨blanks, _, hb, hl, rfl⟩]
      simp [eq_comm]
  · have hrun : string.run (blanks ++ (c :: t ++ rest)) =
        .error (mismatch .string (c :: t ++ rest)) := by
      change readString _ = _
      rw [readString, List.cons_append, skipBlanks_token hb hc.token.1]
      split <;> simp_all
    rw [hrun]
    simp only [reduceCtorEq, false_iff, not_and]
    rintro rfl
    exact absurd hc hquote

theorem decodes_boolean : boolean.Decodes fun v b => v = .boolean b := by
  intro v text h blanks rest hb _ a r
  obtain ⟨c, t, rfl, hc⟩ := h.starts
  by_cases hletter : c = 't' ∨ c = 'f'
  · obtain ⟨b, rfl⟩ := hc.eq_boolean hletter
    have hrun : boolean.run (blanks ++ (c :: t ++ rest)) = .ok (b, rest) := by
      cases h with
      | yes => exact takes_true.run blanks rest hb
      | no => exact takes_false.run blanks rest hb
    rw [hrun]
    simp [eq_comm]
  · have hrun : boolean.run (blanks ++ (c :: t ++ rest)) =
        .error (mismatch .boolean (c :: t ++ rest)) := by
      change readBoolean _ = _
      rw [readBoolean, List.cons_append, skipBlanks_token hb hc.token.1]
      split <;> simp_all
    rw [hrun]
    simp only [reduceCtorEq, false_iff, not_and]
    rintro rfl
    cases a <;> simp_all [Value.StartsWith]

theorem decodes_ignored : ignored.Decodes fun _ _ => True := by
  intro v text h blanks rest hb hr a r
  have hskip : skipValue (blanks ++ (text ++ rest)) = .ok rest := by
    rw [skipValue, h.skips [] blanks rest hb hr, skip]
  simp [ignored, hskip, eq_comm]

end Reader

theorem nextElement_separator {isFirst : Bool} {separator : List Char}
    (hs : Separator isFirst separator) {c : Char} (hc : isBlank c = false ∧ c ≠ ']')
    (s : List Char) : nextElement isFirst (separator ++ c :: s) = .ok (.item (c :: s)) := by
  cases hs with
  | first hb => exact nextElement_first hb hc.1 hc.2 s
  | next hb ha =>
    rw [List.append_assoc]
    exact nextElement_next hb ha hc.1 hc.2 s

theorem nextKey_separator {isFirst : Bool} {separator : List Char}
    (hs : Separator isFirst separator) (s : List Char) :
    nextKey isFirst (separator ++ '"' :: s) = .ok (.item s) := by
  cases hs with
  | first hb => exact nextKey_first hb s
  | next hb ha =>
    rw [List.append_assoc]
    exact nextKey_next hb ha s

theorem readElements_item_iff {element : Reader α} {isFirst : Bool} {s t r : List Char}
    {held as : List α} (h : nextElement isFirst s = .ok (.item t)) :
    readElements element held isFirst s = .ok (as, r) ↔
      ∃ a u, element.run t = .ok (a, u) ∧
        readElements element (a :: held) false u = .ok (as, r) := by
  constructor
  · intro hs
    rw [readElements] at hs
    split at hs
    · simp at hs
    · simp_all
    · next t' h' =>
      obtain rfl : t = t' := by simpa using h.symm.trans h'
      split at hs
      · simp at hs
      · next a u hr => exact ⟨a, u, hr, hs⟩
  · rintro ⟨a, u, hr, hs⟩
    rw [readElements_item h hr, hs]

theorem readMembers_item_iff {member : β → String → Reader β} {isFirst : Bool}
    {s t u r key : List Char} {b c : β} (h : nextKey isFirst s = .ok (.item t))
    (hk : unquote [] t = .ok (key, u)) :
    readMembers member b isFirst s = .ok (c, r) ↔
      ∃ d v, (member b (String.ofList key)).run u = .ok (d, v) ∧
        readMembers member d false v = .ok (c, r) := by
  constructor
  · intro hs
    rw [readMembers] at hs
    split at hs
    · simp at hs
    · simp_all
    · next t' h' =>
      obtain rfl : t = t' := by simpa using h.symm.trans h'
      split at hs
      · simp at hs
      · next key' u' hk' =>
        obtain ⟨rfl, rfl⟩ : key = key' ∧ u = u' := by simpa using hk.symm.trans hk'
        split at hs
        · simp at hs
        · next d v hr => exact ⟨d, v, hr, hs⟩
  · rintro ⟨d, v, hr, hs⟩
    rw [readMembers_item h hk hr, hs]

theorem nextElement_nil {isFirst : Bool} {text : List Char}
    (h : Spells (.elements isFirst []) text) (rest : List Char) :
    nextElement isFirst (text ++ rest) = .ok (.done rest) := by
  cases h with
  | noElement hb =>
    rw [List.append_assoc]
    exact nextElement_done hb isFirst rest

/-- The next element of a list, and what is left of the list behind it. -/
theorem nextElement_cons {element : Reader α} {P : Value → α → Prop} (he : element.Decodes P)
    {isFirst : Bool} {v : Value} {vs : List Value} {text : List Char}
    (h : Spells (.elements isFirst (v :: vs)) text) (rest : List Char) :
    ∃ s tail, nextElement isFirst (text ++ rest) = .ok (.item s) ∧
      Spells (.elements false vs) tail ∧
      ∀ a u, element.run s = .ok (a, u) ↔ P v a ∧ u = tail ++ rest := by
  cases h with
  | @element _ separator text tail _ _ hs hv ht =>
    refine ⟨text ++ (tail ++ rest), tail, ?_, ht, he hv blanks_nil (stops_elements ht rest)⟩
    obtain ⟨c, t, rfl, hc⟩ := hv.starts
    rw [List.append_assoc, List.append_assoc]
    exact nextElement_separator hs hc.token _

/-- The elements of a list are decoded one by one. -/
theorem readElements_eq_ok_iff {element : Reader α} {P : Value → α → Prop}
    (he : element.Decodes P) {isFirst : Bool} {vs : List Value} {text : List Char}
    (h : Spells (.elements isFirst vs) text) (held as : List α) (rest r : List Char) :
    readElements element held isFirst (text ++ rest) = .ok (as, r) ↔
      (∃ bs, List.Forall₂ P vs bs ∧ as = held.reverse ++ bs) ∧ r = rest := by
  induction vs generalizing isFirst text held with
  | nil =>
    rw [readElements_done (nextElement_nil h rest) held]
    simp [eq_comm]
  | cons v vs ih =>
    obtain ⟨s, tail, hnext, ht, hrun⟩ := nextElement_cons he h rest
    rw [readElements_item_iff hnext]
    simp only [hrun, List.forall₂_cons_left_iff]
    constructor
    · rintro ⟨a, _, ⟨ha, rfl⟩, hrest⟩
      obtain ⟨⟨bs, hbs, rfl⟩, rfl⟩ := (ih ht (a :: held)).mp hrest
      exact ⟨⟨a :: bs, ⟨a, bs, ha, hbs, rfl⟩, by simp⟩, rfl⟩
    · rintro ⟨⟨_, ⟨a, bs, ha, hbs, rfl⟩, rfl⟩, rfl⟩
      exact ⟨a, _, ⟨ha, rfl⟩, (ih ht (a :: held)).mpr ⟨⟨bs, hbs, by simp⟩, rfl⟩⟩

theorem Reader.Decodes.list {element : Reader α} {P : Value → α → Prop}
    (he : element.Decodes P) :
    (Reader.list element).Decodes fun v as => ∃ vs, v = .list vs ∧ List.Forall₂ P vs as := by
  intro v text h blanks rest hb _ as r
  obtain ⟨c, t, rfl, hc⟩ := h.starts
  change readList element _ = _ ↔ _
  rw [readList, List.cons_append, skipBlanks_token hb hc.token.1]
  by_cases hbracket : c = '['
  · subst hbracket
    obtain ⟨vs, rfl⟩ := hc.eq_list
    cases h with
    | list h => simp [readElements_eq_ok_iff he h]
  · have hv : ∀ vs, v ≠ .list vs := by
      rintro vs rfl
      exact hbracket hc
    split <;> simp_all

/-- What decodes behind a key: a colon, with blanks around it, and a value. -/
def Reader.DecodesMember (reader : Reader α) (P : Value → α → Prop) : Prop :=
  ∀ ⦃v : Value⦄ ⦃text : List Char⦄, Spells (.value v) text →
    ∀ ⦃before after rest : List Char⦄, Blanks before → Blanks after → Stops rest →
      ∀ (a : α) (r : List Char),
        reader.run (before ++ ':' :: (after ++ (text ++ rest))) = .ok (a, r) ↔ P v a ∧ r = rest

namespace Reader

theorem Decodes.afterColon {reader : Reader α} {P : Value → α → Prop} (h : reader.Decodes P) :
    reader.afterColon.DecodesMember P := by
  intro v text hv before after rest hb ha hr a r
  simp only [Reader.afterColon, readColon_colon hb]
  exact h hv ha hr a r

theorem DecodesMember.map {reader : Reader α} {P : Value → α → Prop} (h : reader.DecodesMember P)
    (f : α → β) : (reader.map f).DecodesMember fun v b => ∃ a, P v a ∧ b = f a := by
  intro v text hv before after rest hb ha hr b r
  have hrun := h hv hb ha hr
  simp only [Reader.map]
  cases he : reader.run (before ++ ':' :: (after ++ (text ++ rest))) with
  | error fault =>
    simp only [he, reduceCtorEq, false_iff, not_and] at hrun ⊢
    rintro ⟨a, ha, -⟩ rfl
    exact hrun a _ ha rfl
  | ok got =>
    obtain ⟨a, u⟩ := got
    simp only [he] at hrun
    obtain ⟨hP, rfl⟩ := (hrun a u).mp rfl
    constructor
    · intro hs
      obtain ⟨rfl, rfl⟩ : f a = b ∧ u = r := by simpa using hs
      exact ⟨⟨a, hP, rfl⟩, rfl⟩
    · rintro ⟨⟨a', hP', rfl⟩, rfl⟩
      obtain ⟨rfl, -⟩ : a = a' ∧ True := by simpa using (hrun a' _).mpr ⟨hP', rfl⟩
      rfl

theorem DecodesMember.congr {reader : Reader α} {P Q : Value → α → Prop}
    (h : reader.DecodesMember P) (hPQ : ∀ v a, P v a ↔ Q v a) : reader.DecodesMember Q := by
  obtain rfl : P = Q := funext fun v => funext fun a => propext (hPQ v a)
  exact h

theorem decodesMember_refuse (fault : List Char → Fault) :
    (refuse fault : Reader α).DecodesMember fun _ _ => False := by
  intro v text _ before after rest _ _ _ a r
  simp [refuse]

end Reader

/-- An object's members, taken one after the other from one value to another. -/
def FoldsTo (M : β → String → Value → β → Prop) : β → List (String × Value) → β → Prop
  | b, [], c => c = b
  | b, (key, v) :: ms, c => ∃ d, M b key v d ∧ FoldsTo M d ms c

theorem readMembers_eq_ok_iff {member : β → String → Reader β}
    {M : β → String → Value → β → Prop} (hm : ∀ b key, (member b key).DecodesMember (M b key))
    {isFirst : Bool} {ms : List (String × Value)} {text : List Char}
    (h : Spells (.members isFirst ms) text) (b c : β) (rest r : List Char) :
    readMembers member b isFirst (text ++ rest) = .ok (c, r) ↔ FoldsTo M b ms c ∧ r = rest := by
  induction ms generalizing isFirst text b with
  | nil =>
    cases h with
    | noMember hb =>
      rw [List.append_assoc, List.singleton_append,
        readMembers_done (nextKey_done hb isFirst rest) b]
      simp [FoldsTo, eq_comm]
  | cons m ms ih =>
    cases h with
    | @member _ separator literal before after text tail key v _ hs hk hb ha hv ht =>
      obtain ⟨body, hbody, rfl⟩ := hk
      have hkey := nextKey_separator hs
        (body ++ '"' :: (before ++ ':' :: (after ++ (text ++ (tail ++ rest)))))
      have hrun := hm b key hv hb ha (stops_members ht rest)
      simp only [List.append_assoc, List.cons_append, List.nil_append]
      rw [readMembers_item_iff hkey (unquote_bodyText hbody [] _)]
      simp only [List.reverse_nil, List.nil_append, String.ofList_toList, hrun, FoldsTo]
      constructor
      · rintro ⟨d, _, ⟨hd, rfl⟩, hrest⟩
        obtain ⟨hfold, rfl⟩ := (ih ht d).mp hrest
        exact ⟨⟨d, hd, hfold⟩, rfl⟩
      · rintro ⟨⟨d, hd, hfold⟩, rfl⟩
        exact ⟨d, _, ⟨hd, rfl⟩, (ih ht d).mpr ⟨hfold, rfl⟩⟩

end Implementors.Json
