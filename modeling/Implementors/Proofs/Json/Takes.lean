import Implementors.Json.Bracket

/-! Texts that a reader takes. A reader takes a text for a value when it reads that value in front
of any rest, whatever blanks come first. Lists and objects are taken when their items are, with
any blanks between them. -/
namespace Implementors.Json

def Blanks (s : List Char) : Prop := s.all isBlank = true

theorem blanks_nil : Blanks [] := rfl

theorem Blanks.append {s t : List Char} (hs : Blanks s) (ht : Blanks t) : Blanks (s ++ t) := by
  rw [Blanks, List.all_append, hs, ht]
  rfl

theorem skipBlanks_token {blanks : List Char} (h : Blanks blanks) {c : Char}
    (hc : isBlank c = false) (s : List Char) : skipBlanks (blanks ++ c :: s) = c :: s := by
  rw [skipBlanks_append h]
  exact List.dropWhile_cons_of_neg (by simp [hc])

theorem readColon_colon {blanks : List Char} (h : Blanks blanks) (s : List Char) :
    readColon (blanks ++ ':' :: s) = .ok s := by
  rw [readColon, skipBlanks_token h (by decide)]
  rfl

/-- The text behind the opening quote of a literal, its closing quote included. -/
def QuotedText (text : List Char) (s : String) : Prop :=
  ∀ rest, unquote [] (text ++ rest) = .ok (s.toList, rest)

theorem quote_eq (s : String) : ∃ text, quote s = '"' :: text ∧ QuotedText text s := by
  refine ⟨s.toList.flatMap escape ++ ['"'], rfl, fun rest => ?_⟩
  rw [List.append_assoc]
  exact unquote_escaped [] s.toList rest

namespace Reader

variable {α β : Type}

/-- No value starts like the end of a list, so a list may go on with one. -/
structure Takes (reader : Reader α) (text : List Char) (a : α) : Prop where
  head : ∃ c t, text = c :: t ∧ isBlank c = false ∧ c ≠ ']'
  run : ∀ blanks rest, Blanks blanks → reader.run (blanks ++ (text ++ rest)) = .ok (a, rest)

theorem takes_string {text : List Char} {s : String} (h : QuotedText text s) :
    string.Takes ('"' :: text) s := by
  refine ⟨⟨_, _, rfl, by decide, by decide⟩, fun blanks rest hb => ?_⟩
  change readString _ = _
  rw [readString, List.cons_append, skipBlanks_token hb (by decide)]
  simp only [h rest, String.ofList_toList]

theorem takes_quote (s : String) : string.Takes (quote s) s := by
  obtain ⟨text, hq, ht⟩ := quote_eq s
  exact hq ▸ takes_string ht

theorem takes_true : boolean.Takes ['t', 'r', 'u', 'e'] true := by
  refine ⟨⟨_, _, rfl, by decide, by decide⟩, fun blanks rest hb => ?_⟩
  change readBoolean _ = _
  rw [readBoolean, List.cons_append, skipBlanks_token hb (by decide)]
  simp only [readWordAs, readWord_append]

theorem takes_false : boolean.Takes ['f', 'a', 'l', 's', 'e'] false := by
  refine ⟨⟨_, _, rfl, by decide, by decide⟩, fun blanks rest hb => ?_⟩
  change readBoolean _ = _
  rw [readBoolean, List.cons_append, skipBlanks_token hb (by decide)]
  simp only [readWordAs, readWord_append]

theorem Takes.readAll {reader : Reader α} {text : List Char} {a : α} (h : reader.Takes text a) :
    reader.readAll text = .ok a := by
  have hr := h.run [] [] blanks_nil
  rw [List.append_nil, List.nil_append] at hr
  simp only [Reader.readAll, hr]
  rfl

theorem Takes.map {reader : Reader α} {text : List Char} {a : α} (h : reader.Takes text a)
    (f : α → β) : (reader.map f).Takes text (f a) := by
  refine ⟨h.head, fun blanks rest hb => ?_⟩
  simp only [Reader.map, h.run blanks rest hb]

/-- A colon with blanks around it, and a value behind it. -/
theorem Takes.afterColon {reader : Reader α} {text : List Char} {a : α} (h : reader.Takes text a)
    {before after : List Char} (hb : Blanks before) (ha : Blanks after) (rest : List Char) :
    reader.afterColon.run (before ++ ':' :: (after ++ (text ++ rest))) = .ok (a, rest) := by
  simp only [Reader.afterColon, readColon_colon hb, h.run after rest ha]

end Reader

variable {α β : Type}

theorem nextElement_done {blanks : List Char} (h : Blanks blanks) (isFirst : Bool)
    (rest : List Char) : nextElement isFirst (blanks ++ ']' :: rest) = .ok (.done rest) := by
  rw [nextElement, skipBlanks_token h (by decide)]
  rfl

theorem nextElement_first {blanks : List Char} {c : Char} (hb : Blanks blanks)
    (hc : isBlank c = false) (hne : c ≠ ']') (s : List Char) :
    nextElement true (blanks ++ c :: s) = .ok (.item (c :: s)) := by
  rw [nextElement, skipBlanks_token hb hc]
  simp [hne]

theorem nextElement_next {before after : List Char} {c : Char} (hb : Blanks before)
    (ha : Blanks after) (hc : isBlank c = false) (hne : c ≠ ']') (s : List Char) :
    nextElement false (before ++ ',' :: (after ++ c :: s)) = .ok (.item (c :: s)) := by
  rw [nextElement, skipBlanks_token hb (by decide)]
  simp [skipBlanks_token ha hc, hne]

/-- What may follow the opening bracket of a list, or one of its elements. -/
inductive ElementsText (element : Reader α) : Bool → List Char → List α → Prop
  | done {isFirst : Bool} {blanks : List Char} (hb : Blanks blanks) :
      ElementsText element isFirst (blanks ++ [']']) []
  | first {blanks text tail : List Char} {a : α} {as : List α} (hb : Blanks blanks)
      (ht : element.Takes text a) (hs : ElementsText element false tail as) :
      ElementsText element true (blanks ++ (text ++ tail)) (a :: as)
  | next {before after text tail : List Char} {a : α} {as : List α} (hb : Blanks before)
      (ha : Blanks after) (ht : element.Takes text a) (hs : ElementsText element false tail as) :
      ElementsText element false (before ++ ',' :: (after ++ (text ++ tail))) (a :: as)

theorem readElements_done {element : Reader α} {isFirst : Bool} {s r : List Char}
    (h : nextElement isFirst s = .ok (.done r)) (held : List α) :
    readElements element held isFirst s = .ok (held.reverse, r) := by
  rw [readElements]
  split <;> simp_all

theorem readElements_item {element : Reader α} {isFirst : Bool} {s r t : List Char} {a : α}
    (h : nextElement isFirst s = .ok (.item r)) (hr : element.run r = .ok (a, t))
    (held : List α) :
    readElements element held isFirst s = readElements element (a :: held) false t := by
  rw [readElements]
  split
  · simp_all
  · simp_all
  · next r' h' =>
    obtain rfl : r = r' := by simpa using h.symm.trans h'
    split <;> simp_all

theorem ElementsText.read {element : Reader α} {isFirst : Bool} {text : List Char} {as : List α}
    (h : ElementsText element isFirst text as) (held : List α) (rest : List Char) :
    readElements element held isFirst (text ++ rest) = .ok (held.reverse ++ as, rest) := by
  induction h generalizing held with
  | @done isFirst blanks hb =>
    rw [List.append_assoc, List.append_nil]
    exact readElements_done (nextElement_done hb isFirst rest) held
  | @first blanks text tail a as hb ht hs ih =>
    have hr := ht.run [] (tail ++ rest) blanks_nil
    obtain ⟨c, t, rfl, hc, hne⟩ := ht.head
    simp only [List.append_assoc, List.cons_append]
    rw [readElements_item (nextElement_first hb hc hne (t ++ (tail ++ rest))) hr, ih]
    simp
  | @next before after text tail a as hb ha ht hs ih =>
    have hr := ht.run [] (tail ++ rest) blanks_nil
    obtain ⟨c, t, rfl, hc, hne⟩ := ht.head
    simp only [List.append_assoc, List.cons_append]
    rw [readElements_item (nextElement_next hb ha hc hne (t ++ (tail ++ rest))) hr, ih]
    simp

theorem Reader.takes_list {element : Reader α} {text : List Char} {as : List α}
    (h : ElementsText element true text as) : (Reader.list element).Takes ('[' :: text) as := by
  refine ⟨⟨_, _, rfl, by decide, by decide⟩, fun blanks rest hb => ?_⟩
  change readList element _ = _
  rw [readList, List.cons_append, skipBlanks_token hb (by decide)]
  exact h.read [] rest

theorem nextKey_done {blanks : List Char} (h : Blanks blanks) (isFirst : Bool)
    (rest : List Char) : nextKey isFirst (blanks ++ '}' :: rest) = .ok (.done rest) := by
  rw [nextKey, skipBlanks_token h (by decide)]
  rfl

theorem nextKey_first {blanks : List Char} (h : Blanks blanks) (s : List Char) :
    nextKey true (blanks ++ '"' :: s) = .ok (.item s) := by
  rw [nextKey, skipBlanks_token h (by decide)]
  rfl

theorem nextKey_next {before after : List Char} (hb : Blanks before) (ha : Blanks after)
    (s : List Char) : nextKey false (before ++ ',' :: (after ++ '"' :: s)) = .ok (.item s) := by
  rw [nextKey, skipBlanks_token hb (by decide)]
  simp [skipBlanks_token ha (show isBlank '"' = false by decide)]

theorem readMembers_done {member : β → String → Reader β} {isFirst : Bool} {s r : List Char}
    (h : nextKey isFirst s = .ok (.done r)) (b : β) :
    readMembers member b isFirst s = .ok (b, r) := by
  rw [readMembers]
  split <;> simp_all

theorem readMembers_item {member : β → String → Reader β} {isFirst : Bool}
    {s r t u key : List Char} {b c : β} (h : nextKey isFirst s = .ok (.item r))
    (hk : unquote [] r = .ok (key, t)) (hr : (member b (String.ofList key)).run t = .ok (c, u)) :
    readMembers member b isFirst s = readMembers member c false u := by
  rw [readMembers]
  split
  · simp_all
  · simp_all
  · next r' h' =>
    obtain rfl : r = r' := by simpa using h.symm.trans h'
    split
    · simp_all
    · next key' t' hk' =>
      obtain ⟨rfl, rfl⟩ : key = key' ∧ t = t' := by simpa using hk.symm.trans hk'
      split <;> simp_all

/-- What may follow the opening brace of an object, or one of its members. Members take a value
from `b` to another; a member's text starts behind its key. -/
inductive MembersText (member : β → String → Reader β) : Bool → β → List Char → β → Prop
  | done {isFirst : Bool} {b : β} {blanks : List Char} (hb : Blanks blanks) :
      MembersText member isFirst b (blanks ++ ['}']) b
  | first {b c d : β} {blanks quoted value tail : List Char} {key : String} (hb : Blanks blanks)
      (hk : QuotedText quoted key)
      (hv : ∀ rest, (member b key).run (value ++ rest) = .ok (c, rest))
      (hs : MembersText member false c tail d) :
      MembersText member true b (blanks ++ '"' :: (quoted ++ (value ++ tail))) d
  | next {b c d : β} {before after quoted value tail : List Char} {key : String}
      (hb : Blanks before) (ha : Blanks after) (hk : QuotedText quoted key)
      (hv : ∀ rest, (member b key).run (value ++ rest) = .ok (c, rest))
      (hs : MembersText member false c tail d) :
      MembersText member false b (before ++ ',' :: (after ++ '"' :: (quoted ++ (value ++ tail)))) d

theorem MembersText.read {member : β → String → Reader β} {isFirst : Bool} {b c : β}
    {text : List Char} (h : MembersText member isFirst b text c) (rest : List Char) :
    readMembers member b isFirst (text ++ rest) = .ok (c, rest) := by
  induction h with
  | @done isFirst b blanks hb =>
    rw [List.append_assoc]
    exact readMembers_done (nextKey_done hb isFirst rest) b
  | @first b c d blanks quoted value tail key hb hk hv hs ih =>
    have hn := nextKey_first hb (quoted ++ (value ++ (tail ++ rest)))
    have hm := hv (tail ++ rest)
    rw [← String.ofList_toList (s := key)] at hm
    simp only [List.append_assoc, List.cons_append]
    rw [readMembers_item hn (hk _) hm, ih]
  | @next b c d before after quoted value tail key hb ha hk hv hs ih =>
    have hn := nextKey_next hb ha (quoted ++ (value ++ (tail ++ rest)))
    have hm := hv (tail ++ rest)
    rw [← String.ofList_toList (s := key)] at hm
    simp only [List.append_assoc, List.cons_append]
    rw [readMembers_item hn (hk _) hm, ih]

theorem Reader.takes_object {member : β → String → Reader β} {b c : β} {text : List Char}
    (h : MembersText member true b text c) : (Reader.object member b).Takes ('{' :: text) c := by
  refine ⟨⟨_, _, rfl, by decide, by decide⟩, fun blanks rest hb => ?_⟩
  change readObject member b _ = _
  rw [readObject, List.cons_append, skipBlanks_token hb (by decide)]
  exact h.read rest

end Implementors.Json
