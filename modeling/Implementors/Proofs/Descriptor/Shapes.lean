import Implementors.Descriptor.Wire
import Implementors.Proofs.Json.Decodes

/-! The shapes that a descriptor may have as a value: an object that gives each field once at most,
or a list of fields. Exactly these values are read as descriptors, in whatever text. -/
namespace Implementors.Descriptor

open Json

/-- The values that an object gives to a key, in their order. -/
def valuesOf (key : String) (ms : List (String × Value)) : List Value :=
  (ms.filter fun m => m.1 = key).map (·.2)

/-- An object gives a text, and may give a flag and types; other keys may hold anything. A list
gives the same in this order, and may end after any of them. -/
inductive Describes : Value → Descriptor → Prop
  | object {ms : List (String × Value)} {d : Descriptor}
      (htext : valuesOf "text" ms = [.string d.text])
      (hsynthetic : valuesOf "synthetic" ms = [.boolean d.synthetic] ∨
        valuesOf "synthetic" ms = [] ∧ d.synthetic = false)
      (htypes : valuesOf "types" ms = [.list (d.types.map .string)] ∨
        valuesOf "types" ms = [] ∧ d.types = []) :
      Describes (.object ms) d
  | text (text : String) : Describes (.list [.string text]) ⟨text, false, []⟩
  | flag (text : String) (synthetic : Bool) :
      Describes (.list [.string text, .boolean synthetic]) ⟨text, synthetic, []⟩
  | types (text : String) (synthetic : Bool) (types : List String) :
      Describes (.list [.string text, .boolean synthetic, .list (types.map .string)])
        ⟨text, synthetic, types⟩

theorem decodes_strings :
    (Reader.list .string).Decodes fun v ts => v = .list (ts.map .string) := by
  intro v text h blanks rest hb hr ts r
  rw [Reader.decodes_string.list h hb hr ts r]
  have hmap (vs : List Value) : List.Forall₂ (fun v s => v = Value.string s) vs ts ↔
      vs = ts.map .string := by
    rw [← List.forall₂_map_right_iff, List.forall₂_eq_eq_eq]
  simp [hmap]

theorem valuesOf_cons (key k : String) (v : Value) (ms : List (String × Value)) :
    valuesOf key ((k, v) :: ms) = if k = key then v :: valuesOf key ms else valuesOf key ms := by
  by_cases h : k = key <;> simp [valuesOf, h]

/-- What a member does to the fields so far. -/
def Draft.Gains (draft : Draft) (key : String) (v : Value) (next : Draft) : Prop :=
  if key = "text" then draft.text = none ∧ ∃ t, v = .string t ∧ next = { draft with text := some t }
  else if key = "synthetic" then
    draft.synthetic = none ∧ ∃ b, v = .boolean b ∧ next = { draft with synthetic := some b }
  else if key = "types" then
    draft.types = none ∧ ∃ ts, v = .list (ts.map .string) ∧ next = { draft with types := some ts }
  else next = draft

theorem Draft.decodesMember (draft : Draft) (key : String) :
    (draft.member key).DecodesMember (draft.Gains key) := by
  unfold Draft.member Draft.Gains
  split
  · cases draft.text with
    | none => exact (Reader.decodes_string.afterColon.map _).congr (by simp)
    | some t => exact (Reader.decodesMember_refuse _).congr (by simp)
  split
  · cases draft.synthetic with
    | none => exact (Reader.decodes_boolean.afterColon.map _).congr (by simp)
    | some b => exact (Reader.decodesMember_refuse _).congr (by simp)
  split
  · cases draft.types with
    | none => exact (decodes_strings.afterColon.map _).congr (by simp)
    | some ts => exact (Reader.decodesMember_refuse _).congr (by simp)
  · exact (Reader.decodes_ignored.afterColon.map _).congr (by simp)

/-- A field before and after the values given for it: one at most, if there was none before. -/
inductive Given {α : Type} (P : Value → α → Prop) : Option α → List Value → Option α → Prop
  | absent (o : Option α) : Given P o [] o
  | once {v : Value} {a : α} (h : P v a) : Given P none [v] (some a)

theorem given_nil_iff {α : Type} {P : Value → α → Prop} {o o' : Option α} :
    Given P o [] o' ↔ o' = o := by
  constructor
  · rintro ⟨⟩
    rfl
  · rintro rfl
    exact .absent o'

theorem given_cons_iff {α : Type} {P : Value → α → Prop} {o o' : Option α} {v : Value}
    {vs : List Value} :
    Given P o (v :: vs) o' ↔ o = none ∧ ∃ a, P v a ∧ Given P (some a) vs o' := by
  constructor
  · rintro ⟨⟩
    next a h => exact ⟨rfl, a, h, .absent _⟩
  · rintro ⟨rfl, a, h, ⟨⟩⟩
    exact .once h

theorem foldsTo_iff (draft next : Draft) (ms : List (String × Value)) :
    FoldsTo Draft.Gains draft ms next ↔
      Given (fun v t => v = .string t) draft.text (valuesOf "text" ms) next.text ∧
      Given (fun v b => v = .boolean b) draft.synthetic (valuesOf "synthetic" ms)
        next.synthetic ∧
      Given (fun v ts => v = .list (ts.map .string)) draft.types (valuesOf "types" ms)
        next.types := by
  induction ms generalizing draft with
  | nil =>
    simp only [FoldsTo, valuesOf, List.filter_nil, List.map_nil, given_nil_iff]
    cases next
    cases draft
    simp
  | cons m ms ih =>
    obtain ⟨key, v⟩ := m
    simp only [FoldsTo, ih]
    by_cases htext : key = "text"
    · subst htext
      simp only [Draft.Gains, valuesOf_cons, given_cons_iff, String.reduceEq, if_true, if_false]
      constructor
      · rintro ⟨_, ⟨hnone, t, rfl, rfl⟩, ht, hs, hts⟩
        exact ⟨⟨hnone, t, rfl, ht⟩, hs, hts⟩
      · rintro ⟨⟨hnone, t, rfl, ht⟩, hs, hts⟩
        exact ⟨_, ⟨hnone, t, rfl, rfl⟩, ht, hs, hts⟩
    by_cases hsynthetic : key = "synthetic"
    · subst hsynthetic
      simp only [Draft.Gains, valuesOf_cons, given_cons_iff, String.reduceEq, if_true, if_false]
      constructor
      · rintro ⟨_, ⟨hnone, b, rfl, rfl⟩, ht, hs, hts⟩
        exact ⟨ht, ⟨hnone, b, rfl, hs⟩, hts⟩
      · rintro ⟨ht, ⟨hnone, b, rfl, hs⟩, hts⟩
        exact ⟨_, ⟨hnone, b, rfl, rfl⟩, ht, hs, hts⟩
    by_cases htypes : key = "types"
    · subst htypes
      simp only [Draft.Gains, valuesOf_cons, given_cons_iff, String.reduceEq, if_true, if_false]
      constructor
      · rintro ⟨_, ⟨hnone, ts, rfl, rfl⟩, ht, hs, hts⟩
        exact ⟨ht, hs, hnone, ts, rfl, hts⟩
      · rintro ⟨ht, hs, hnone, ts, rfl, hts⟩
        exact ⟨_, ⟨hnone, ts, rfl, rfl⟩, ht, hs, hts⟩
    · simp [Draft.Gains, valuesOf_cons, htext, hsynthetic, htypes]

/-- From no value so far, a field is given once or not at all. -/
theorem given_none_iff {α : Type} {P : Value → α → Prop} {vs : List Value} {o : Option α} :
    Given P none vs o ↔ vs = [] ∧ o = none ∨ ∃ v a, vs = [v] ∧ P v a ∧ o = some a := by
  constructor
  · rintro (_ | h)
    · exact .inl ⟨rfl, rfl⟩
    · exact .inr ⟨_, _, rfl, h, rfl⟩
  · rintro (⟨rfl, rfl⟩ | ⟨v, a, rfl, h, rfl⟩)
    · exact .absent none
    · exact .once h

/-- The fields of an object are complete exactly when the object is a descriptor. -/
theorem describes_object_iff {ms : List (String × Value)} {d : Descriptor} :
    Describes (.object ms) d ↔
      ∃ draft, FoldsTo Draft.Gains {} ms draft ∧ draft.finish? = some d := by
  constructor
  · rintro ⟨⟩
    next htext hsynthetic htypes =>
    obtain ⟨text, synthetic, types⟩ := d
    have hs : ∃ o, Given (fun v b => v = Value.boolean b) none (valuesOf "synthetic" ms) o ∧
        o.getD false = synthetic := by
      rcases hsynthetic with h | ⟨h, rfl⟩
      · exact ⟨some synthetic, h ▸ .once rfl, rfl⟩
      · exact ⟨none, h ▸ .absent none, rfl⟩
    have hts : ∃ o, Given (fun v ts => v = Value.list (ts.map .string)) none
        (valuesOf "types" ms) o ∧ o.getD [] = types := by
      rcases htypes with h | ⟨h, rfl⟩
      · exact ⟨some types, h ▸ .once rfl, rfl⟩
      · exact ⟨none, h ▸ .absent none, rfl⟩
    obtain ⟨o, hs, rfl⟩ := hs
    obtain ⟨o', hts, rfl⟩ := hts
    exact ⟨⟨some text, o, o'⟩, (foldsTo_iff _ _ _).mpr ⟨htext ▸ .once rfl, hs, hts⟩, rfl⟩
  · rintro ⟨⟨text, synthetic, types⟩, hfold, hfinish⟩
    obtain ⟨ht, hs, hts⟩ := (foldsTo_iff _ _ _).mp hfold
    simp only [given_none_iff] at ht hs hts
    rcases ht with ⟨-, rfl⟩ | ⟨_, t, ht, rfl, rfl⟩
    · simp [Draft.finish?] at hfinish
    · obtain rfl : _ = d := Option.some.inj hfinish
      refine .object ht ?_ ?_
      · rcases hs with ⟨h, rfl⟩ | ⟨_, b, h, rfl, rfl⟩
        · exact .inr ⟨h, rfl⟩
        · exact .inl h
      · rcases hts with ⟨h, rfl⟩ | ⟨_, ts, h, rfl, rfl⟩
        · exact .inr ⟨h, rfl⟩
        · exact .inl h

theorem readObject_draft_iff {s r : List Char} {d : Descriptor} :
    readObject s = .ok (d, r) ↔
      ∃ draft, readMembers Draft.member {} true s = .ok (draft, r) ∧ draft.finish? = some d := by
  rw [readObject]
  grind

theorem readObject_eq_ok_iff {ms : List (String × Value)} {text : List Char}
    (h : Spells (.members true ms) text) (d : Descriptor) (rest r : List Char) :
    readObject (text ++ rest) = .ok (d, r) ↔ Describes (.object ms) d ∧ r = rest := by
  have hread (draft : Draft) := readMembers_eq_ok_iff Draft.decodesMember h {} draft rest r
  rw [describes_object_iff, readObject_draft_iff]
  simp only [hread]
  constructor
  · rintro ⟨draft, ⟨hfold, rfl⟩, hfinish⟩
    exact ⟨⟨draft, hfold, hfinish⟩, rfl⟩
  · rintro ⟨⟨draft, hfold, hfinish⟩, rfl⟩
    exact ⟨draft, ⟨hfold, rfl⟩, hfinish⟩

theorem readListEnd_eq_ok_iff {vs : List Value} {text : List Char}
    (h : Spells (.elements false vs) text) (rest r : List Char) :
    readListEnd (text ++ rest) = .ok r ↔ vs = [] ∧ r = rest := by
  cases h with
  | noElement hb =>
    rw [List.append_assoc, readListEnd, List.singleton_append, skipBlanks_token hb (by decide)]
    simp [eq_comm]
  | element hs hv ht =>
    cases hs with
    | next hb ha =>
      simp only [List.append_assoc, readListEnd, List.cons_append]
      rw [skipBlanks_token hb (by decide)]
      simp
      split <;> simp

section

variable {text : String} {s t r : List Char} {d : Descriptor}

theorem readTypes_item_iff {synthetic : Bool} (h : nextElement false s = .ok (.item t)) :
    readTypes text synthetic s = .ok (d, r) ↔
      ∃ types u, (Reader.list .string).run t = .ok (types, u) ∧ readListEnd u = .ok r ∧
        ⟨text, synthetic, types⟩ = d := by
  rw [readTypes, h]
  grind

theorem readFlag_item_iff (h : nextElement false s = .ok (.item t)) :
    readFlag text s = .ok (d, r) ↔
      ∃ synthetic u, Reader.boolean.run t = .ok (synthetic, u) ∧
        readTypes text synthetic u = .ok (d, r) := by
  rw [readFlag, h]
  grind

theorem readList_item_iff (h : nextElement true s = .ok (.item t)) :
    readList s = .ok (d, r) ↔
      ∃ text u, Reader.string.run t = .ok (text, u) ∧ readFlag text u = .ok (d, r) := by
  rw [readList, h]
  grind

end

/-- What the elements behind the flag make the descriptor. -/
def TypesGive (text : String) (synthetic : Bool) (vs : List Value) (d : Descriptor) : Prop :=
  vs = [] ∧ ⟨text, synthetic, []⟩ = d ∨
    ∃ types, vs = [.list (types.map .string)] ∧ ⟨text, synthetic, types⟩ = d

/-- What the elements behind the text make the descriptor. -/
def FlagGives (text : String) (vs : List Value) (d : Descriptor) : Prop :=
  vs = [] ∧ ⟨text, false, []⟩ = d ∨
    ∃ synthetic ws, vs = .boolean synthetic :: ws ∧ TypesGive text synthetic ws d

theorem describes_list_iff {vs : List Value} {d : Descriptor} :
    Describes (.list vs) d ↔ ∃ text ws, vs = .string text :: ws ∧ FlagGives text ws d := by
  constructor
  · intro h
    cases h with
    | text text => exact ⟨text, [], rfl, .inl ⟨rfl, rfl⟩⟩
    | flag text synthetic => exact ⟨text, _, rfl, .inr ⟨synthetic, [], rfl, .inl ⟨rfl, rfl⟩⟩⟩
    | types text synthetic types =>
      exact ⟨text, _, rfl, .inr ⟨synthetic, _, rfl, .inr ⟨types, rfl, rfl⟩⟩⟩
  · rintro ⟨text, _, rfl, ⟨rfl, rfl⟩ | ⟨synthetic, _, rfl, ⟨rfl, rfl⟩ | ⟨types, rfl, rfl⟩⟩⟩
    · exact .text text
    · exact .flag text synthetic
    · exact .types text synthetic types

section

variable {vs : List Value} {t : List Char}

theorem readTypes_eq_ok_iff (h : Spells (.elements false vs) t) (text : String)
    (synthetic : Bool) (d : Descriptor) (rest r : List Char) :
    readTypes text synthetic (t ++ rest) = .ok (d, r) ↔
      TypesGive text synthetic vs d ∧ r = rest := by
  cases vs with
  | nil =>
    rw [readTypes, nextElement_nil h rest]
    simp [TypesGive, @eq_comm _ rest r]
  | cons v vs =>
    obtain ⟨s, tail, hnext, ht, hrun⟩ := nextElement_cons decodes_strings h rest
    rw [readTypes_item_iff hnext]
    simp only [hrun, TypesGive, reduceCtorEq, false_and, false_or, List.cons.injEq]
    constructor
    · rintro ⟨types, _, ⟨rfl, rfl⟩, hend, rfl⟩
      obtain ⟨rfl, rfl⟩ := (readListEnd_eq_ok_iff ht rest r).mp hend
      exact ⟨⟨types, ⟨rfl, rfl⟩, rfl⟩, rfl⟩
    · rintro ⟨⟨types, ⟨rfl, rfl⟩, rfl⟩, rfl⟩
      exact ⟨types, _, ⟨rfl, rfl⟩, (readListEnd_eq_ok_iff ht _ _).mpr ⟨rfl, rfl⟩, rfl⟩

theorem readFlag_eq_ok_iff (h : Spells (.elements false vs) t) (text : String) (d : Descriptor)
    (rest r : List Char) :
    readFlag text (t ++ rest) = .ok (d, r) ↔ FlagGives text vs d ∧ r = rest := by
  cases vs with
  | nil =>
    rw [readFlag, nextElement_nil h rest]
    simp [FlagGives, @eq_comm _ rest r]
  | cons v vs =>
    obtain ⟨s, tail, hnext, ht, hrun⟩ := nextElement_cons Reader.decodes_boolean h rest
    rw [readFlag_item_iff hnext]
    simp only [hrun, FlagGives, reduceCtorEq, false_and, false_or, List.cons.injEq]
    constructor
    · rintro ⟨synthetic, _, ⟨rfl, rfl⟩, htypes⟩
      obtain ⟨hgive, rfl⟩ := (readTypes_eq_ok_iff ht text synthetic d rest r).mp htypes
      exact ⟨⟨synthetic, vs, ⟨rfl, rfl⟩, hgive⟩, rfl⟩
    · rintro ⟨⟨synthetic, _, ⟨rfl, rfl⟩, hgive⟩, rfl⟩
      exact ⟨synthetic, _, ⟨rfl, rfl⟩, (readTypes_eq_ok_iff ht _ _ _ _ _).mpr ⟨hgive, rfl⟩⟩

theorem readList_eq_ok_iff (h : Spells (.elements true vs) t) (d : Descriptor)
    (rest r : List Char) :
    readList (t ++ rest) = .ok (d, r) ↔ Describes (.list vs) d ∧ r = rest := by
  rw [describes_list_iff]
  cases vs with
  | nil =>
    rw [readList, nextElement_nil h rest]
    simp only [reduceCtorEq, false_and, exists_false]
  | cons v vs =>
    obtain ⟨s, tail, hnext, ht, hrun⟩ := nextElement_cons Reader.decodes_string h rest
    rw [readList_item_iff hnext]
    simp only [hrun, List.cons.injEq]
    constructor
    · rintro ⟨text, _, ⟨rfl, rfl⟩, hflag⟩
      obtain ⟨hgive, rfl⟩ := (readFlag_eq_ok_iff ht text d rest r).mp hflag
      exact ⟨⟨text, vs, ⟨rfl, rfl⟩, hgive⟩, rfl⟩
    · rintro ⟨⟨text, _, ⟨rfl, rfl⟩, hgive⟩, rfl⟩
      exact ⟨text, _, ⟨rfl, rfl⟩, (readFlag_eq_ok_iff ht _ _ _ _).mpr ⟨hgive, rfl⟩⟩

end

theorem not_describes {v : Value} {d : Descriptor} (hobject : ∀ ms, v ≠ .object ms)
    (hlist : ∀ vs, v ≠ .list vs) : ¬ Describes v d := by
  intro h
  cases h with
  | object => exact hobject _ rfl
  | text | flag | types => exact hlist _ rfl

theorem decodes_reader : reader.Decodes Describes := by
  intro v text h blanks rest hb _ d r
  obtain ⟨c, t, rfl, hc⟩ := h.starts
  change read _ = _ ↔ _
  rw [read, List.cons_append, skipBlanks_token hb hc.token.1]
  by_cases hbrace : c = '{'
  · subst hbrace
    obtain ⟨ms, rfl⟩ := hc.eq_object
    cases h with
    | object h => exact readObject_eq_ok_iff h d rest r
  by_cases hbracket : c = '['
  · subst hbracket
    obtain ⟨vs, rfl⟩ := hc.eq_list
    cases h with
    | list h => exact readList_eq_ok_iff h d rest r
  · have hd : ¬ Describes v d := by
      refine not_describes ?_ ?_
      · rintro ms rfl
        exact hbrace hc
      · rintro vs rfl
        exact hbracket hc
    split <;> simp_all

theorem ofJson_eq_ok_iff {v : Value} {text : List Char} (h : IsJson v text) (d : Descriptor) :
    ofJson (String.ofList text) = .ok d ↔ Describes v d := by
  obtain ⟨before, t, after, hb, ht, ha, rfl⟩ := h
  have hstops : Stops after := List.append_nil after ▸ stops_of_blanks ha stops_nil
  rw [ofJson, String.toList_ofList, Reader.readAll_eq_ok_iff]
  simp only [decodes_reader ht hb hstops]
  constructor
  · rintro ⟨_, -, hd, -⟩
    exact hd
  · intro hd
    exact ⟨after, ha, hd, rfl⟩

/-- The members of an object that give a field. -/
def fieldsOf (ms : List (String × Value)) : List (String × Value) :=
  ms.filter fun m => m.1 ∈ ["text", "synthetic", "types"]

theorem valuesOf_fieldsOf {key : String} (h : key ∈ ["text", "synthetic", "types"])
    (ms : List (String × Value)) : valuesOf key (fieldsOf ms) = valuesOf key ms := by
  rw [valuesOf, fieldsOf, List.filter_filter, valuesOf]
  congr 1
  refine List.filter_congr fun m _ => ?_
  by_cases hm : m.1 = key
  · simp [hm, h]
  · simp [hm]

/-- Neither the order of the members nor those that are no field matter. -/
theorem Describes.of_perm {ms ms' : List (String × Value)} {d : Descriptor}
    (h : Describes (.object ms) d) (hp : (fieldsOf ms).Perm (fieldsOf ms')) :
    Describes (.object ms') d := by
  have hvalues {key : String} (hkey : key ∈ ["text", "synthetic", "types"]) :
      (valuesOf key ms).Perm (valuesOf key ms') := by
    rw [← valuesOf_fieldsOf hkey ms, ← valuesOf_fieldsOf hkey ms']
    exact (hp.filter _).map _
  cases h with
  | object htext hsynthetic htypes =>
    refine .object ?_ ?_ ?_
    · exact List.perm_singleton.mp (htext ▸ hvalues (by simp)).symm
    · refine hsynthetic.imp (fun h => ?_) (And.imp_left fun h => ?_)
      · exact List.perm_singleton.mp (h ▸ hvalues (by simp)).symm
      · exact List.perm_nil.mp (h ▸ hvalues (by simp)).symm
    · refine htypes.imp (fun h => ?_) (And.imp_left fun h => ?_)
      · exact List.perm_singleton.mp (h ▸ hvalues (by simp)).symm
      · exact List.perm_nil.mp (h ▸ hvalues (by simp)).symm

/-- A value is read as a descriptor exactly when it has one of the shapes of one, in any text that
spells the value, with any blanks and escapes. Two objects whose fields are the same up to their
order are read alike, whatever their other members hold. -/
theorem ofJson_shapes :
    (∀ v text, IsJson v text → ∀ d, ofJson (String.ofList text) = .ok d ↔ Describes v d) ∧
    ∀ ms ms' text text', IsJson (.object ms) text → IsJson (.object ms') text' →
      (fieldsOf ms).Perm (fieldsOf ms') →
        ∀ d, ofJson (String.ofList text) = .ok d ↔ ofJson (String.ofList text') = .ok d := by
  refine ⟨fun v text h d => ofJson_eq_ok_iff h d, fun ms ms' text text' h h' hp d => ?_⟩
  rw [ofJson_eq_ok_iff h, ofJson_eq_ok_iff h']
  exact ⟨fun hd => hd.of_perm hp, fun hd => hd.of_perm hp.symm⟩

/-- An escaped key behind a member that is no field, and the same fields the other way round. -/
theorem ofJson_shapes_reordered :
    ∃ ms ms',
      IsJson (.object ms) (" \x7b\"x\":[-0.5e+3,\x7b\"x\":null\x7d],\"types\": [\"A\"] ," ++
        "\"\\u0074ext\":\"\\uD83D\\uDE00\"\x7d").toList ∧
      IsJson (.object ms') "\x7b\"text\":\"😀\",\"types\":[\"A\"]\x7d".toList ∧
      (fieldsOf ms).Perm (fieldsOf ms') ∧ Describes (.object ms) ⟨"😀", false, ["A"]⟩ ∧
      ofJson (" \x7b\"x\":[-0.5e+3,\x7b\"x\":null\x7d],\"types\": [\"A\"] ," ++
        "\"\\u0074ext\":\"\\uD83D\\uDE00\"\x7d") = .ok ⟨"😀", false, ["A"]⟩ ∧
      ofJson "\x7b\"text\":\"😀\",\"types\":[\"A\"]\x7d" = .ok ⟨"😀", false, ["A"]⟩ := by
  have hx : Literal "\"x\"".toList "x" := literal_of_unquote (by decide +kernel)
  have htext : Literal "\"text\"".toList "text" := literal_of_unquote (by decide +kernel)
  have hescaped : Literal "\"\\u0074ext\"".toList "text" := literal_of_unquote (by decide +kernel)
  have htypes : Literal "\"types\"".toList "types" := literal_of_unquote (by decide +kernel)
  have hA : Literal "\"A\"".toList "A" := literal_of_unquote (by decide +kernel)
  have hsmile : Literal "\"😀\"".toList "😀" := literal_of_unquote (by decide +kernel)
  have hpair : Literal "\"\\uD83D\\uDE00\"".toList "😀" := literal_of_unquote (by decide +kernel)
  have hnumeral : NumeralText "-0.5e+3".toList :=
    @NumeralText.parts ['-'] ['0'] ['.', '5'] ['e', '+', '3'] (.inr rfl)
      ⟨⟨by decide, by decide⟩, fun _ => rfl⟩ (.point ⟨by decide, by decide⟩)
      (@ExponentText.marked 'e' ['+'] ['3'] (.inl rfl) (.inr (.inl rfl)) ⟨by decide, by decide⟩)
  have hlist : Spells (.value (.list [.string "A"])) "[\"A\"]".toList :=
    .list (.element (@Separator.first [] rfl) (.string hA) (@Spells.noElement false [] rfl))
  have hother : Spells (.value (.list [.number "-0.5e+3".toList, .object [("x", .null)]]))
      "[-0.5e+3,\x7b\"x\":null\x7d]".toList :=
    .list (.element (@Separator.first [] rfl) (.number hnumeral)
      (.element (@Separator.next [] [] rfl rfl)
        (.object (.member (@Separator.first [] rfl) hx (rfl : Blanks []) (rfl : Blanks []) .null
          (@Spells.noMember false [] rfl)))
        (@Spells.noElement false [] rfl)))
  have hfirst : IsJson (.object [("x", .list [.number "-0.5e+3".toList, .object [("x", .null)]]),
      ("types", .list [.string "A"]), ("text", .string "😀")])
      (" \x7b\"x\":[-0.5e+3,\x7b\"x\":null\x7d],\"types\": [\"A\"] ," ++
        "\"\\u0074ext\":\"\\uD83D\\uDE00\"\x7d").toList := by
    refine ⟨[' '], _, [], rfl, .object (.member (@Separator.first [] rfl) hx (rfl : Blanks [])
      (rfl : Blanks []) hother (.member (@Separator.next [] [] rfl rfl) htypes (rfl : Blanks [])
        (rfl : Blanks [' ']) hlist (.member (@Separator.next [' '] [] rfl rfl) hescaped
          (rfl : Blanks []) (rfl : Blanks []) (.string hpair) (@Spells.noMember false [] rfl)))),
      rfl, ?_⟩
    decide +kernel
  have hsecond : IsJson (.object [("text", .string "😀"), ("types", .list [.string "A"])])
      "\x7b\"text\":\"😀\",\"types\":[\"A\"]\x7d".toList := by
    refine ⟨[], _, [], rfl, .object (.member (@Separator.first [] rfl) htext (rfl : Blanks [])
      (rfl : Blanks []) (.string hsmile) (.member (@Separator.next [] [] rfl rfl) htypes
        (rfl : Blanks []) (rfl : Blanks []) hlist (@Spells.noMember false [] rfl))), rfl, ?_⟩
    decide +kernel
  have hdescribes : Describes (.object [("x", .list [.number "-0.5e+3".toList,
      .object [("x", .null)]]), ("types", .list [.string "A"]), ("text", .string "😀")])
      ⟨"😀", false, ["A"]⟩ := .object rfl (.inr ⟨rfl, rfl⟩) (.inl rfl)
  have hperm : (fieldsOf [("x", .list [.number "-0.5e+3".toList, .object [("x", .null)]]),
      ("types", .list [.string "A"]), ("text", .string "😀")]).Perm
      (fieldsOf [("text", .string "😀"), ("types", .list [.string "A"])]) := .swap _ _ []
  have hread := (ofJson_shapes.1 _ _ hfirst ⟨"😀", false, ["A"]⟩).mpr hdescribes
  have hagain := (ofJson_shapes.2 _ _ _ _ hfirst hsecond hperm ⟨"😀", false, ["A"]⟩).mp hread
  rw [String.ofList_toList] at hread hagain
  exact ⟨_, _, hfirst, hsecond, hperm, hdescribes, hread, hagain⟩

end Implementors.Descriptor
