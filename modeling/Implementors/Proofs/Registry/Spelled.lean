import Implementors.Proofs.Descriptor.Exact
import Implementors.Proofs.Registry.Lookup
import Implementors.Registry.Wire

/-! Entries in whatever spelling: literals may escape any character, and blanks may stand wherever
JSON has them. An object of spelled members sets their entries one after the other. Main statement:
`ofJson_eq_ok_iff`, the texts of registries are these objects and no others. -/
namespace Implementors.Registry

open Json

/-- An entry with a text for its name and a text for its list. -/
structure Spelling where
  name : List Char
  list : List Char
  entry : LibraryEntry
  reads_name : Reader.string.readAll name = .ok entry.1
  reads_list : listReader.readAll list = .ok entry.2

namespace Spelling

theorem name_eq (x : Spelling) : ∃ before quoted after, Blanks before ∧ Blanks after ∧
    QuotedText quoted x.entry.1 ∧ x.name = before ++ '"' :: (quoted ++ after) := by
  obtain ⟨after, ha, hr⟩ := Reader.readAll_eq_ok_iff.mp x.reads_name
  obtain ⟨before, quoted, hb, hq, hs⟩ := Reader.string_inv hr
  exact ⟨before, quoted, after, hb, ha, hq, hs⟩

theorem list_eq (x : Spelling) : ∃ before text after, Blanks before ∧ Blanks after ∧
    listReader.Takes ('[' :: text) x.entry.2 ∧ x.list = before ++ '[' :: (text ++ after) := by
  obtain ⟨after, ha, hr⟩ := Reader.readAll_eq_ok_iff.mp x.reads_list
  obtain ⟨before, text, hb, ht, hs⟩ := Descriptor.isExact_reader.isPeeking.list_inv hr
  exact ⟨before, text, after, hb, ha, ht, hs⟩

/-- The member of an object that sets the entry. -/
def member (x : Spelling) : List Char := x.name ++ ':' :: x.list

theorem member_eq (x : Spelling) : ∃ before quoted value after, Blanks before ∧ Blanks after ∧
    QuotedText quoted x.entry.1 ∧
    (∀ (r : Registry) (rest : List Char), (readEntry r x.entry.1).run (value ++ rest) =
      .ok (r.set x.entry.1 x.entry.2, rest)) ∧
    x.member = before ++ '"' :: (quoted ++ (value ++ after)) := by
  obtain ⟨before, quoted, middle, hb, hm, hq, hname⟩ := x.name_eq
  obtain ⟨blanks, text, after, hblanks, ha, ht, hlist⟩ := x.list_eq
  refine ⟨before, quoted, middle ++ ':' :: (blanks ++ '[' :: text), after, hb, ha, hq,
    fun r rest => ?_, by simp [member, hname, hlist]⟩
  have hv := ht.afterColon hm hblanks rest
  rw [List.cons_append] at hv
  simp only [List.append_assoc, List.cons_append, readEntry, Reader.map, hv]

/-- A name and a list that are taken, with blanks around both, spell an entry. -/
theorem exists_member_eq {before quoted middle blanks text after : List Char} {e : LibraryEntry}
    (hb : Blanks before) (hq : QuotedText quoted e.1) (hm : Blanks middle) (hblanks : Blanks blanks)
    (ht : listReader.Takes ('[' :: text) e.2) (ha : Blanks after) :
    ∃ x : Spelling, x.entry = e ∧ x.member =
      before ++ '"' :: (quoted ++ (middle ++ ':' :: (blanks ++ '[' :: (text ++ after)))) := by
  have hname := (Reader.takes_string hq).run before middle hb
  have hlist := ht.run blanks after hblanks
  refine ⟨⟨before ++ ('"' :: quoted ++ middle), blanks ++ ('[' :: text ++ after), e, ?_, ?_⟩,
    rfl, by simp [member]⟩
  · exact Reader.readAll_eq_ok_iff.mpr ⟨middle, hm, hname⟩
  · exact Reader.readAll_eq_ok_iff.mpr ⟨after, ha, hlist⟩

end Spelling

/-- The members behind the first, and the end of the object. -/
def furtherMembers (xs : List Spelling) : List Char :=
  xs.flatMap (fun x => ',' :: x.member) ++ ['}']

/-- An object of spelled members, with blanks behind its opening brace. -/
def objectText (blanks : List Char) (xs : List Spelling) : List Char :=
  '{' :: (blanks ++ ([','].intercalate (xs.map (·.member)) ++ ['}']))

theorem objectText_cons (blanks : List Char) (x : Spelling) (xs : List Spelling) :
    objectText blanks (x :: xs) = '{' :: (blanks ++ (x.member ++ furtherMembers xs)) := by
  have h : [','].intercalate ((x :: xs).map (·.member)) =
      x.member ++ xs.flatMap fun y => ',' :: y.member := by
    induction xs generalizing x with
    | nil => simp
    | cons y xs ih =>
      rw [List.map_cons, List.map_cons, List.intercalate_cons_cons, ← List.map_cons, ih]
      simp
  rw [objectText, h, furtherMembers, List.append_assoc]

/-- The blanks that end a list stand before the comma or brace behind it. -/
theorem membersText_further (xs : List Spelling) {blanks : List Char} (hb : Blanks blanks)
    (r : Registry) : MembersText readEntry false r (blanks ++ furtherMembers xs)
      (r.setAll (xs.map (·.entry))) := by
  induction xs generalizing blanks r with
  | nil => exact .done hb
  | cons x xs ih =>
    obtain ⟨before, quoted, value, after, hbefore, ha, hq, hv, hx⟩ := x.member_eq
    have htext : blanks ++ furtherMembers (x :: xs) = blanks ++
        ',' :: (before ++ '"' :: (quoted ++ (value ++ (after ++ furtherMembers xs)))) := by
      simp [furtherMembers, hx]
    rw [htext]
    exact .next hb hbefore hq (hv r) (ih ha (r.set x.entry.1 x.entry.2))

theorem takes_objectText {blanks : List Char} (hb : Blanks blanks) (xs : List Spelling) :
    reader.Takes (objectText blanks xs) (ofList (xs.map (·.entry))) := by
  cases xs with
  | nil => exact Reader.takes_object (.done hb)
  | cons x xs =>
    obtain ⟨before, quoted, value, after, hbefore, ha, hq, hv, hx⟩ := x.member_eq
    have htext : objectText blanks (x :: xs) = '{' :: (blanks ++ before ++
        '"' :: (quoted ++ (value ++ (after ++ furtherMembers xs)))) := by
      simp [objectText_cons, hx]
    rw [htext]
    exact Reader.takes_object (.first (hb.append hbefore) hq (hv empty)
      (membersText_further xs ha (empty.set x.entry.1 x.entry.2)))

/-- What is read behind the name of a library: a colon and a list, with blanks around the colon. -/
theorem readEntry_inv {r s : Registry} {name : String} {t rest : List Char}
    (h : (readEntry r name).run t = .ok (s, rest)) :
    ∃ middle blanks text list, Blanks middle ∧ Blanks blanks ∧
      listReader.Takes ('[' :: text) list ∧ s = r.set name list ∧
      t = middle ++ ':' :: (blanks ++ '[' :: (text ++ rest)) := by
  simp only [readEntry, Reader.map, Reader.afterColon] at h
  split at h
  · simp at h
  · next list u hu =>
    simp only [Except.ok.injEq, Prod.mk.injEq] at h
    obtain ⟨rfl, rfl⟩ := h
    split at hu
    · simp at hu
    · next v hv =>
      obtain ⟨blanks, text, hblanks, ht, rfl⟩ := Descriptor.isExact_reader.isPeeking.list_inv hu
      obtain ⟨middle, hm, -, rfl⟩ := exists_blanks (readColon_inv hv)
      exact ⟨middle, blanks, text, list, hm, hblanks, ht, rfl, rfl⟩

/-- What may follow the opening brace of an object, or one of its members. -/
def membersText : Bool → List Spelling → List Char
  | true, x :: xs => x.member ++ furtherMembers xs
  | _, xs => furtherMembers xs

theorem membersText_false (xs : List Spelling) : membersText false xs = furtherMembers xs := rfl

theorem membersText_cons (isFirst : Bool) (x : Spelling) (xs : List Spelling) :
    membersText isFirst (x :: xs) = comma isFirst ++ (x.member ++ furtherMembers xs) := by
  cases isFirst with
  | true => rfl
  | false => simp [membersText_false, comma, furtherMembers]

theorem objectText_eq (blanks : List Char) (xs : List Spelling) :
    objectText blanks xs = '{' :: (blanks ++ membersText true xs) := by
  cases xs with
  | nil => rfl
  | cons x xs => exact objectText_cons blanks x xs

/-- Members that are read are spelled; the blanks that end a list go with the member before. -/
theorem readMembers_inv {r s : Registry} {isFirst : Bool} {t rest : List Char}
    (h : readMembers readEntry r isFirst t = .ok (s, rest)) :
    ∃ blanks xs, Blanks blanks ∧ t = blanks ++ (membersText isFirst xs ++ rest) ∧
      s = r.setAll (xs.map (·.entry)) := by
  fun_induction readMembers readEntry r isFirst t with
  | case1 => simp at h
  | case2 r isFirst t u ht =>
    simp only [Except.ok.injEq, Prod.mk.injEq] at h
    obtain ⟨rfl, rfl⟩ := h
    obtain ⟨blanks, hb, -, rfl⟩ := exists_blanks (nextKey_done_inv ht)
    refine ⟨blanks, [], hb, ?_, rfl⟩
    cases isFirst <;> rfl
  | case3 => simp at h
  | case4 => simp at h
  | case5 r isFirst t u ht key v hk next w hv ih =>
    obtain ⟨before, front, hbefore, hfront, rfl⟩ := nextKey_item_eq ht
    obtain ⟨quoted, rfl, hquoted⟩ := unquote_exact hk
    have hq : QuotedText quoted (String.ofList key) := by
      intro rest
      rw [hquoted rest, String.toList_ofList]
    obtain ⟨middle, blanks, text, list, hm, hblanks, hlist, rfl, rfl⟩ := readEntry_inv hv
    obtain ⟨after, xs, ha, rfl, rfl⟩ := ih h
    obtain ⟨x, hx, hmember⟩ := Spelling.exists_member_eq (e := (String.ofList key, list))
      hfront hq hm hblanks hlist ha
    refine ⟨before, x :: xs, hbefore, ?_, ?_⟩
    · simp [membersText_cons, membersText_false, hmember]
    · rw [List.map_cons, hx]
      rfl

/-- A text that is an object of spelled members, with blanks around it. -/
def IsObject (xs : List Spelling) (text : String) : Prop :=
  ∃ before blanks after, Blanks before ∧ Blanks blanks ∧ Blanks after ∧
    text.toList = before ++ (objectText blanks xs ++ after)

/-- A text is read as a registry exactly when it is an object of spelled members, and then as the
registry that their entries build. -/
theorem ofJson_eq_ok_iff {text : String} {r : Registry} :
    ofJson text = .ok r ↔ ∃ xs, IsObject xs text ∧ r = ofList (xs.map (·.entry)) := by
  rw [ofJson, Reader.readAll_eq_ok_iff]
  constructor
  · rintro ⟨after, ha, h⟩
    change Reader.readObject readEntry empty _ = _ at h
    unfold Reader.readObject at h
    split at h
    · next t hs =>
      obtain ⟨before, hbefore, -, htext⟩ := exists_blanks hs
      obtain ⟨blanks, xs, hblanks, rfl, rfl⟩ := readMembers_inv h
      refine ⟨xs, ⟨before, blanks, after, hbefore, hblanks, ha, ?_⟩, rfl⟩
      rw [htext, objectText_eq]
      simp
    · simp at h
  · rintro ⟨xs, ⟨before, blanks, after, hbefore, hblanks, ha, htext⟩, rfl⟩
    rw [htext]
    exact ⟨after, ha, (takes_objectText hblanks xs).run before after hbefore⟩

end Implementors.Registry
