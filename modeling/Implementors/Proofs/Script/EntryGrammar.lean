import Implementors.Proofs.Json.Literal
import Implementors.Proofs.Script.Spelled
import Implementors.Proofs.Text.Octets

/-! The grammar of an entry behind its start, apart from how it is read: a name, punctuation, and a
list up to a semicolon at the very end. Two notions of white space meet in it: the blanks of JSON
before the name and behind the list, and those of Unicode around the punctuation. -/
namespace Implementors.Script

open Json Registry

/-- A text for a list of descriptors, with no blanks around it. -/
def ArrayText (text : List Char) (list : List Descriptor) : Prop :=
  listReader.readAll text = .ok list ∧ text.head? = some '[' ∧ text.getLast? = some ']'

/-- A library name stands at the front, behind blanks of JSON; `tail` is what is left. -/
def NamePart (rest : List Char) (name : String) (tail : List Char) : Prop :=
  ∃ before literal, Blanks before ∧ Literal literal name ∧ rest = before ++ (literal ++ tail)

/-- The punctuation around what is listed: a bracket, an equals sign, and a semicolon at the end. -/
def Punctuation (tail listed : List Char) : Prop :=
  ∃ u v, u.all Text.isBlank = true ∧ v.all Text.isBlank = true ∧
    tail = u ++ ']' :: (v ++ '=' :: (listed ++ [';']))

/-- A list stands between the equals sign and the semicolon. -/
def ListPart (listed : List Char) (list : List Descriptor) : Prop :=
  ∃ w text after, w.all Text.isBlank = true ∧ ArrayText text list ∧ Blanks after ∧
    listed = w ++ (text ++ after)

/-- The parts of an entry behind its start. -/
structure EntryParts where
  before : List Char
  name : List Char
  u : List Char
  v : List Char
  w : List Char
  list : List Char
  after : List Char

namespace EntryParts

def text (x : EntryParts) : List Char :=
  x.before ++ (x.name ++ (x.u ++ ']' :: (x.v ++ '=' :: (x.w ++ (x.list ++ x.after) ++ [';']))))

/-- The parts are those of a text for the entry. -/
structure Reads (x : EntryParts) (e : LibraryEntry) : Prop where
  before : Blanks x.before
  name : Literal x.name e.1
  u : x.u.all Text.isBlank = true
  v : x.v.all Text.isBlank = true
  w : x.w.all Text.isBlank = true
  list : ArrayText x.list e.2
  after : Blanks x.after

end EntryParts

theorem exists_parts_iff {rest : List Char} {e : LibraryEntry} :
    (∃ x : EntryParts, x.Reads e ∧ x.text = rest) ↔
      ∃ tail listed, NamePart rest e.1 tail ∧ Punctuation tail listed ∧ ListPart listed e.2 := by
  constructor
  · rintro ⟨x, hx, rfl⟩
    exact ⟨_, _, ⟨x.before, x.name, hx.before, hx.name, rfl⟩, ⟨x.u, x.v, hx.u, hx.v, rfl⟩,
      x.w, x.list, x.after, hx.w, hx.list, hx.after, rfl⟩
  · rintro ⟨_, _, ⟨before, name, hb, hn, rfl⟩, ⟨u, v, hu, hv, rfl⟩, w, list, after, hw, hl, ha, rfl⟩
    exact ⟨⟨before, name, u, v, w, list, after⟩, ⟨hb, hn, hu, hv, hw, hl, ha⟩, rfl⟩

/-- Two texts that are equal are cut alike where the first character stands that is not blank. -/
theorem append_cons_inj {p : Char → Bool} {s t u v : List Char} {c d : Char}
    (hs : s.all p = true) (ht : t.all p = true) (hc : p c = false) (hd : p d = false)
    (h : s ++ c :: u = t ++ d :: v) : s = t ∧ c = d ∧ u = v := by
  have htake {s u : List Char} {c : Char} (hs : s.all p = true) (hc : p c = false) :
      (s ++ c :: u).takeWhile p = s := by
    rw [List.takeWhile_append_of_pos (List.all_eq_true.mp hs)]
    simp [hc]
  obtain rfl : s = t := by rw [← htake hs hc, h, htake ht hd]
  obtain ⟨rfl, rfl⟩ := List.cons.inj (List.append_cancel_left h)
  exact ⟨rfl, rfl, rfl⟩

/-- The same at the other end. -/
theorem append_cons_inj_last {p : Char → Bool} {s t u v : List Char} {c d : Char}
    (hu : u.all p = true) (hv : v.all p = true) (hc : p c = false) (hd : p d = false)
    (h : s ++ c :: u = t ++ d :: v) : s = t ∧ c = d ∧ u = v := by
  have hr := congrArg List.reverse h
  simp only [List.reverse_append, List.reverse_cons, List.append_assoc,
    List.singleton_append] at hr
  obtain ⟨huv, hcd, hst⟩ := append_cons_inj (by rwa [List.all_reverse]) (by rwa [List.all_reverse])
    hc hd hr
  exact ⟨List.reverse_injective hst, hcd, List.reverse_injective huv⟩

theorem namePart_iff {rest tail : List Char} {name : String} :
    NamePart rest name tail ↔ Reader.string.run rest = .ok (name, tail) :=
  Reader.string_run_eq_ok_iff.symm

theorem NamePart.unique {rest tail tail' : List Char} {name name' : String}
    (h : NamePart rest name tail) (h' : NamePart rest name' tail') :
    name = name' ∧ tail = tail' := by
  have hrun := (namePart_iff.mp h).symm.trans (namePart_iff.mp h')
  simpa using hrun

theorem Punctuation.unique {tail listed listed' : List Char} (h : Punctuation tail listed)
    (h' : Punctuation tail listed') : listed = listed' := by
  obtain ⟨u, v, hu, hv, rfl⟩ := h
  obtain ⟨u', v', hu', hv', ht⟩ := h'
  obtain ⟨-, -, ht⟩ := append_cons_inj hu hu' (by decide) (by decide) ht
  obtain ⟨-, -, ht⟩ := append_cons_inj hv hv' (by decide) (by decide) ht
  exact List.append_cancel_right ht

/-- A list that is read ends in its bracket. -/
theorem readElements_closes {α : Type} {element : Reader α} (he : element.IsPeeking)
    {held as : List α} {isFirst : Bool} {s r : List Char}
    (h : readElements element held isFirst s = .ok (as, r)) : ∃ t, s = t ++ ']' :: r := by
  fun_induction readElements element held isFirst s with
  | case1 => simp at h
  | case2 held isFirst s t hs =>
    simp only [Except.ok.injEq, Prod.mk.injEq] at h
    obtain ⟨-, rfl⟩ := h
    obtain ⟨blanks, -, -, rfl⟩ := exists_blanks (nextElement_done_inv hs)
    exact ⟨blanks, rfl⟩
  | case3 => simp at h
  | case4 held isFirst s u hs a t hu ih =>
    obtain ⟨before, rfl, -⟩ := nextElement_item_peeks hs
    obtain ⟨value, rfl, -⟩ := he hu
    obtain ⟨more, rfl⟩ := ih h
    exact ⟨before ++ (value ++ more), by simp⟩

theorem listReader_inv {s r : List Char} {list : List Descriptor}
    (h : listReader.run s = .ok (list, r)) :
    ∃ blanks t, Blanks blanks ∧ listReader.Takes ('[' :: (t ++ [']'])) list ∧
      s = blanks ++ ('[' :: (t ++ [']']) ++ r) := by
  obtain ⟨blanks, text, hb, ht, rfl⟩ := Descriptor.isExact_reader.isPeeking.list_inv h
  have hrun := ht.run [] [] blanks_nil
  rw [List.append_nil, List.nil_append] at hrun
  change Reader.readList Descriptor.reader ('[' :: text) = .ok (list, []) at hrun
  have hbracket : skipBlanks ('[' :: text) = '[' :: text := skipBlanks_token blanks_nil rfl text
  rw [Reader.readList, hbracket] at hrun
  obtain ⟨t, rfl⟩ := readElements_closes Descriptor.isExact_reader.isPeeking hrun
  exact ⟨blanks, t, hb, ht, rfl⟩

theorem arrayText_iff {text : List Char} {list : List Descriptor} :
    ArrayText text list ↔ ∃ t, text = '[' :: (t ++ [']']) ∧ listReader.Takes text list := by
  constructor
  · rintro ⟨hread, hhead, hlast⟩
    obtain ⟨after, ha, hrun⟩ := Reader.readAll_eq_ok_iff.mp hread
    obtain ⟨blanks, t, hb, ht, rfl⟩ := listReader_inv hrun
    have hblanks : blanks = [] := by
      cases blanks with
      | nil => rfl
      | cons c blanks =>
        obtain rfl : c = '[' := by simpa using hhead
        simp [Blanks, Json.isBlank] at hb
    have hafter : after = [] := by
      rcases List.eq_nil_or_concat after with rfl | ⟨after, c, rfl⟩
      · rfl
      · simp only [List.concat_eq_append, ← List.append_assoc, List.getLast?_concat,
          Option.some.injEq] at hlast
        simp [Blanks, Json.isBlank, hlast] at ha
    subst hblanks hafter
    exact ⟨t, by simp, by rwa [List.nil_append, List.append_nil]⟩
  · rintro ⟨t, rfl, ht⟩
    refine ⟨ht.readAll, rfl, ?_⟩
    rw [← List.cons_append]
    exact List.getLast?_concat

theorem nil_of_trimStart {s blanks r : List Char} (hb : blanks.all Text.isBlank = true)
    (h : Text.trimStart s = blanks ++ r) : blanks = [] := by
  cases blanks with
  | nil => rfl
  | cons c blanks =>
    have hstop := List.head?_dropWhile_not Text.isBlank s
    rw [← Text.trimStart, h] at hstop
    have hc := List.all_eq_true.mp hb c List.mem_cons_self
    simp [hc] at hstop

/-- What is listed is read with the blanks of Unicode before it trimmed away. -/
theorem listPart_iff {listed : List Char} {list : List Descriptor} :
    ListPart listed list ↔ listReader.readAll (Text.trimStart listed) = .ok list := by
  constructor
  · rintro ⟨w, _, after, hw, htext, ha, rfl⟩
    obtain ⟨t, rfl, ht⟩ := arrayText_iff.mp htext
    rw [Text.trimStart_append hw, List.cons_append, Text.trimStart_cons (by decide)]
    exact Reader.readAll_eq_ok_iff.mpr ⟨after, ha, ht.run [] after blanks_nil⟩
  · intro h
    obtain ⟨after, ha, hrun⟩ := Reader.readAll_eq_ok_iff.mp h
    obtain ⟨blanks, t, hb, ht, hs⟩ := listReader_inv hrun
    obtain rfl := nil_of_trimStart (text_blanks hb) hs
    obtain ⟨w, hw, hlisted⟩ := Text.exists_trimStart listed
    exact ⟨w, _, after, hw, arrayText_iff.mpr ⟨t, rfl, ht⟩, ha, hlisted.trans (by rw [hs]; rfl)⟩

theorem afterChar_eq_some_iff {c : Char} {s r : List Char} :
    afterChar c s = some r ↔ s = c :: r := by
  cases s with
  | nil => simp [afterChar]
  | cons d s => simp [afterChar]

theorem listText_eq_some_iff {tail text : List Char} (ht : Text.EndsTight tail) :
    listText tail = some text ↔
      ∃ listed, Punctuation tail listed ∧ Text.trimStart listed = text := by
  have hsemicolon (s : List Char) : Text.trim (s ++ [';']) = Text.trimStart s ++ [';'] :=
    Text.trim_concat (by decide) s
  constructor
  · intro h
    obtain ⟨s, hs, hlast⟩ := Option.bind_eq_some_iff.mp h
    obtain ⟨r, hr, hs⟩ := Option.bind_eq_some_iff.mp hs
    obtain ⟨u, hu, htail⟩ := Text.exists_trimStart tail
    obtain ⟨v, hv, hrest⟩ := Text.exists_trimStart r
    rw [afterChar_eq_some_iff.mp hr] at htail
    rw [afterChar_eq_some_iff.mp hs] at hrest
    subst hrest htail
    -- the line is trimmed already, so behind the equals sign only the front is trimmed again
    have htight : Text.EndsTight (Text.trimStart s) := by
      obtain ⟨w, -, hw⟩ := Text.exists_trimStart s
      rw [hw] at ht
      have hsplit : u ++ ']' :: (v ++ '=' :: (w ++ Text.trimStart s)) =
          (u ++ ']' :: (v ++ '=' :: w)) ++ Text.trimStart s := by simp
      exact (hsplit ▸ ht).of_append
    have htrim : Text.trim s = text ++ [';'] := Text.isSuffixOf?_eq_some_iff.mp hlast
    obtain ⟨w, -, hw⟩ := Text.exists_trimStart s
    have hstart : Text.trimStart s = text ++ [';'] := by rw [← htrim, Text.trim, htight.trimEnd]
    have hs : s = (w ++ text) ++ [';'] := by rw [List.append_assoc, ← hstart, ← hw]
    refine ⟨w ++ text, ⟨u, v, hu, hv, by rw [hs]⟩, ?_⟩
    rw [hs, hsemicolon] at htrim
    exact List.append_cancel_right htrim
  · rintro ⟨listed, ⟨u, v, hu, hv, rfl⟩, rfl⟩
    rw [listText_punctuation hu hv, hsemicolon]
    exact Text.isSuffixOf?_eq_some_iff.mpr rfl

theorem ListPart.unique {listed : List Char} {list list' : List Descriptor}
    (h : ListPart listed list) (h' : ListPart listed list') : list = list' :=
  Except.ok.inj ((listPart_iff.mp h).symm.trans (listPart_iff.mp h'))

/-- What comes of the text behind the start of an entry line. -/
inductive Outcome (rest : List Char) : Except EntryFault LibraryEntry → Prop
  | empty (hr : rest = []) : Outcome rest (.error .malformed)
  | noName (hr : rest ≠ []) (hn : ∀ name tail, ¬ NamePart rest name tail) (error : Json.Error) :
      Outcome rest (.error (.json error))
  | noPunctuation {name : String} {tail : List Char} (hn : NamePart rest name tail)
      (hp : ∀ listed, ¬ Punctuation tail listed) : Outcome rest (.error .malformed)
  | noList {name : String} {tail listed : List Char} (hn : NamePart rest name tail)
      (hp : Punctuation tail listed) (hl : ∀ list, ¬ ListPart listed list) (error : Json.Error) :
      Outcome rest (.error (.json error))
  | entry {name : String} {tail listed : List Char} {list : List Descriptor}
      (hn : NamePart rest name tail) (hp : Punctuation tail listed) (hl : ListPart listed list) :
      Outcome rest (.ok (name, list))

theorem readEntry_outcome {rest : List Char} (ht : Text.EndsTight rest) :
    Outcome rest (readEntry rest) := by
  unfold readEntry
  split
  · next hblank =>
    refine .empty ?_
    cases hlast : rest.getLast? with
    | none => exact List.getLast?_eq_none_iff.mp hlast
    | some c =>
      have hall := List.all_eq_true.mp (text_blanks (blanks_iff.mpr hblank))
      have hc := ht c hlast
      rw [hall c (List.mem_of_getLast? hlast)] at hc
      simp at hc
  · next hne =>
    have hr : rest ≠ [] := by
      rintro rfl
      exact hne rfl
    split
    · next hrun =>
      refine .noName hr (fun name tail hn => ?_) _
      simp [namePart_iff.mp hn] at hrun
    · next name tail hrun =>
      have hn := namePart_iff.mpr hrun
      have htail : Text.EndsTight tail := by
        obtain ⟨before, literal, -, -, hs⟩ := hn
        rw [hs, ← List.append_assoc] at ht
        exact ht.of_append
      split
      · next hlisted =>
        refine .noPunctuation hn fun listed hp => ?_
        simp [(listText_eq_some_iff htail).mpr ⟨listed, hp, rfl⟩] at hlisted
      · next hlisted =>
        obtain ⟨listed, hp, rfl⟩ := (listText_eq_some_iff htail).mp hlisted
        split
        · next hread =>
          refine .noList hn hp (fun list hl => ?_) _
          simp [listPart_iff.mp hl] at hread
        · next hread => exact .entry hn hp (listPart_iff.mpr hread)

theorem NamePart.ne_nil {rest tail : List Char} {name : String} (h : NamePart rest name tail) :
    rest ≠ [] := by
  obtain ⟨before, literal, -, ⟨body, -, rfl⟩, rfl⟩ := h
  simp

namespace Outcome

variable {rest : List Char} {result : Except EntryFault LibraryEntry}

theorem eq_ok_iff (h : Outcome rest result) {e : LibraryEntry} :
    result = .ok e ↔
      ∃ tail listed, NamePart rest e.1 tail ∧ Punctuation tail listed ∧ ListPart listed e.2 := by
  constructor
  · rintro rfl
    cases h with
    | entry hn hp hl => exact ⟨_, _, hn, hp, hl⟩
  · rintro ⟨tail, listed, hn, hp, hl⟩
    cases h with
    | empty hr => exact absurd hr hn.ne_nil
    | noName _ hno => exact absurd hn (hno _ _)
    | noPunctuation hn' hno =>
      obtain ⟨-, rfl⟩ := hn.unique hn'
      exact absurd hp (hno _)
    | noList hn' hp' hno =>
      obtain ⟨-, rfl⟩ := hn.unique hn'
      obtain rfl := hp.unique hp'
      exact absurd hl (hno _)
    | entry hn' hp' hl' =>
      obtain ⟨hname, rfl⟩ := hn.unique hn'
      obtain rfl := hp.unique hp'
      rw [← hname, ← hl.unique hl']

theorem eq_malformed_iff (h : Outcome rest result) :
    result = .error .malformed ↔ rest = [] ∨
      ∃ name tail, NamePart rest name tail ∧ ¬ ∃ listed, Punctuation tail listed := by
  constructor
  · rintro rfl
    cases h with
    | empty hr => exact .inl hr
    | noPunctuation hn hp => exact .inr ⟨_, _, hn, not_exists.mpr hp⟩
  · rintro (hr | ⟨name, tail, hn, hno⟩)
    · cases h with
      | empty | noPunctuation => rfl
      | noName hne => exact absurd hr hne
      | noList hn | entry hn => exact absurd hr hn.ne_nil
    · cases h with
      | empty | noPunctuation => rfl
      | noName _ hnone => exact absurd hn (hnone _ _)
      | noList hn' hp | entry hn' hp =>
        obtain ⟨-, rfl⟩ := hn.unique hn'
        exact absurd ⟨_, hp⟩ hno

theorem eq_json_iff (h : Outcome rest result) :
    (∃ error, result = .error (.json error)) ↔
      rest ≠ [] ∧ (¬ ∃ name tail, NamePart rest name tail) ∨
      ∃ name tail listed, NamePart rest name tail ∧ Punctuation tail listed ∧
        ¬ ∃ list, ListPart listed list := by
  constructor
  · rintro ⟨error, rfl⟩
    cases h with
    | noName hr hn => exact .inl ⟨hr, fun ⟨name, tail, h⟩ => hn name tail h⟩
    | noList hn hp hl => exact .inr ⟨_, _, _, hn, hp, not_exists.mpr hl⟩
  · rintro (⟨hr, hno⟩ | ⟨name, tail, listed, hn, hp, hno⟩)
    · cases h with
      | empty hr' => exact absurd hr' hr
      | noName _ _ error | noList _ _ _ error => exact ⟨error, rfl⟩
      | noPunctuation hn | entry hn => exact absurd ⟨_, _, hn⟩ hno
    · cases h with
      | empty hr => exact absurd hr hn.ne_nil
      | noName _ _ error | noList _ _ _ error => exact ⟨error, rfl⟩
      | noPunctuation hn' hnone =>
        obtain ⟨-, rfl⟩ := hn.unique hn'
        exact absurd hp (hnone _)
      | entry hn' hp' hl =>
        obtain ⟨-, rfl⟩ := hn.unique hn'
        obtain rfl := hp.unique hp'
        exact absurd ⟨_, hl⟩ hno

end Outcome

/-- A text is cut into the parts of an entry in one way at most. -/
theorem EntryParts.Reads.unique {x y : EntryParts} {e e' : LibraryEntry} (hx : x.Reads e)
    (hy : y.Reads e') (h : x.text = y.text) : x = y ∧ e = e' := by
  obtain ⟨before, name, u, v, w, list, after⟩ := x
  obtain ⟨before', name', u', v', w', list', after'⟩ := y
  obtain ⟨hb, hn, hu, hv, hw, hl, ha⟩ := hx
  obtain ⟨hb', hn', hu', hv', hw', hl', ha'⟩ := hy
  dsimp only [EntryParts.text] at *
  -- what is read as the name settles what is left behind it; the pieces before and behind it are
  -- then cut at their first, or last, character that is not blank
  obtain ⟨hlibrary, htail⟩ := NamePart.unique ⟨before, name, hb, hn, rfl⟩
    ⟨before', name', hb', hn', h⟩
  rw [htail, ← List.append_assoc before, ← List.append_assoc before'] at h
  have hfront := List.append_cancel_right h
  obtain ⟨body, -, rfl⟩ := hn
  obtain ⟨body', -, rfl⟩ := hn'
  obtain ⟨rfl, -, hbody⟩ := append_cons_inj hb hb' rfl rfl hfront
  obtain ⟨rfl, -, hrest⟩ := append_cons_inj hu hu' (by decide) (by decide) htail
  obtain ⟨rfl, -, hlisted⟩ := append_cons_inj hv hv' (by decide) (by decide) hrest
  have hlisted := List.append_cancel_right hlisted
  obtain ⟨t, rfl, ht⟩ := arrayText_iff.mp hl
  obtain ⟨t', rfl, ht'⟩ := arrayText_iff.mp hl'
  obtain ⟨rfl, -, harray⟩ := append_cons_inj hw hw' (by decide) (by decide) hlisted
  have hends : t ++ ']' :: after = t' ++ ']' :: after' := by simpa using harray
  obtain ⟨rfl, -, rfl⟩ := append_cons_inj_last ha ha' rfl rfl hends
  have hlist : e.2 = e'.2 := Except.ok.inj (hl.1.symm.trans hl'.1)
  exact ⟨by rw [hbody], Prod.ext hlibrary hlist⟩

theorem outcome_of_entryText {line rest : List Char} (h : entryText? line = some rest) :
    Outcome rest (readEntry rest) := by
  have hline := Text.endsTight_trim line
  rw [entryText?, Text.isPrefixOf?_eq_some_iff] at h
  exact readEntry_outcome (h ▸ hline).of_append

theorem readEntry_eq_ok_iff {line rest : List Char} (h : entryText? line = some rest)
    {e : LibraryEntry} : readEntry rest = .ok e ↔ ∃ x : EntryParts, x.Reads e ∧ x.text = rest :=
  (outcome_of_entryText h).eq_ok_iff.trans exists_parts_iff.symm

/-- An entry line is read exactly when what follows its start is the text of an entry, and the text
determines the parts and the entry. It is malformed when nothing follows, or when the punctuation
behind a name fails; otherwise the fault is in the JSON of the name or of the list. Wherever the
name ends is a place between characters. -/
theorem readEntry_grammar {line rest : List Char} (h : entryText? line = some rest) :
    (∀ e, readEntry rest = .ok e ↔ ∃ x : EntryParts, x.Reads e ∧ x.text = rest) ∧
    (∀ (x y : EntryParts) (e e' : LibraryEntry), x.Reads e → y.Reads e' → x.text = rest →
      y.text = rest → x = y ∧ e = e') ∧
    (readEntry rest = .error .malformed ↔ rest = [] ∨
      ∃ name tail, NamePart rest name tail ∧ ¬ ∃ listed, Punctuation tail listed) ∧
    ((∃ error, readEntry rest = .error (.json error)) ↔
      rest ≠ [] ∧ (¬ ∃ name tail, NamePart rest name tail) ∨
      ∃ name tail listed, NamePart rest name tail ∧ Punctuation tail listed ∧
        ¬ ∃ list, ListPart listed list) ∧
    ∀ name tail, Reader.string.run rest = .ok (name, tail) →
      ∃ taken, rest = taken ++ tail ∧
        String.Pos.Raw.IsValid (String.ofList rest) ⟨Text.octetCount taken⟩ ∧
        (Text.encode (String.ofList rest)).drop (Text.octetCount taken) =
          Text.encode (String.ofList tail) := by
  have hout := outcome_of_entryText h
  refine ⟨fun e => readEntry_eq_ok_iff h,
    fun x y e e' hx hy hxt hyt => hx.unique hy (hxt.trans hyt.symm), hout.eq_malformed_iff,
    hout.eq_json_iff, fun name tail hrun => ?_⟩
  obtain ⟨before, literal, -, -, rfl⟩ := namePart_iff.mpr hrun
  rw [← List.append_assoc]
  exact ⟨before ++ literal, rfl, Text.slice_append _ _⟩

/-- A name and a list full of punctuation, and a no-break space on either side of a list: before it
the space is white space, behind it the space belongs to the JSON. -/
theorem readEntry_grammar_no_break_space :
    entryText? "\timplementors[ \"a]=\\u0022;\"\u3000]=\u00A0[\x7b\"text\":\"=];\"\x7d]\t; ".toList =
      some " \"a]=\\u0022;\"\u3000]=\u00A0[\x7b\"text\":\"=];\"\x7d]\t;".toList ∧
    (∃ x : EntryParts, x.Reads ("a]=\";", [⟨"=];", false, []⟩]) ∧
      x.text = " \"a]=\\u0022;\"\u3000]=\u00A0[\x7b\"text\":\"=];\"\x7d]\t;".toList) ∧
    entryText? "implementors[\"a\"] =\u00A0[]\u00A0;".toList =
      some "\"a\"] =\u00A0[]\u00A0;".toList ∧
    ¬ ∃ e, ∃ x : EntryParts, x.Reads e ∧ x.text = "\"a\"] =\u00A0[]\u00A0;".toList := by
  have hline : entryText?
      "\timplementors[ \"a]=\\u0022;\"\u3000]=\u00A0[\x7b\"text\":\"=];\"\x7d]\t; ".toList =
      some " \"a]=\\u0022;\"\u3000]=\u00A0[\x7b\"text\":\"=];\"\x7d]\t;".toList := by
    decide +kernel
  have hbehind : entryText? "implementors[\"a\"] =\u00A0[]\u00A0;".toList =
      some "\"a\"] =\u00A0[]\u00A0;".toList := by decide +kernel
  refine ⟨hline, ((readEntry_grammar hline).1 _).mp (by decide +kernel), hbehind, ?_⟩
  rintro ⟨e, hx⟩
  have hread := ((readEntry_grammar hbehind).1 e).mpr hx
  have hfault : (readEntry "\"a\"] =\u00A0[]\u00A0;".toList).toOption = none := by decide +kernel
  rw [hread] at hfault
  simp [Except.toOption] at hfault

end Implementors.Script
