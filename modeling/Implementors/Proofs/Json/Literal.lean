import Implementors.Json.Quote
import Implementors.Proofs.Json.Enclosed

/-! The grammar of string literals, apart from how they are read: each character of a string stands
for itself or has escapes, and those beyond U+FFFF are escaped as a surrogate pair. A literal is
read as the string that it spells, and nothing else is read as a string. -/
namespace Implementors.Json

/-- The letters behind a backslash, with the characters they stand for. -/
def shortEscapes : List (Char × Char) :=
  [('"', '"'), ('\\', '\\'), ('/', '/'), ('b', '\x08'), ('f', '\x0c'), ('n', '\n'), ('r', '\r'),
    ('t', '\t')]

def lowerDigits : List Char := "0123456789abcdef".toList

def upperDigits : List Char := "0123456789ABCDEF".toList

def IsHexDigit (c : Char) (n : Nat) : Prop := lowerDigits[n]? = some c ∨ upperDigits[n]? = some c

instance (c : Char) (n : Nat) : Decidable (IsHexDigit c n) :=
  inferInstanceAs (Decidable (_ ∨ _))

/-- Four hexadecimal digits and their value. -/
inductive HexText : List Char → Nat → Prop
  | digits {a b c d : Char} {k l m n : Nat} (ha : IsHexDigit a k) (hb : IsHexDigit b l)
      (hc : IsHexDigit c m) (hd : IsHexDigit d n) :
      HexText [a, b, c, d] (((k * 16 + l) * 16 + m) * 16 + n)

/-- What may follow `\u`: the character as UTF-16 has it. -/
inductive UnicodeText : List Char → Char → Prop
  | unit {hex : List Char} {c : Char} (h : HexText hex c.toNat) : UnicodeText hex c
  | pair {high low : List Char} {c : Char} (hc : 0x10000 ≤ c.toNat)
      (hhigh : HexText high (0xD800 + (c.toNat - 0x10000) / 0x400))
      (hlow : HexText low (0xDC00 + (c.toNat - 0x10000) % 0x400)) :
      UnicodeText (high ++ '\\' :: 'u' :: low) c

/-- What may follow a backslash. -/
inductive EscapeText : List Char → Char → Prop
  | short {letter c : Char} (h : (letter, c) ∈ shortEscapes) : EscapeText [letter] c
  | unicode {text : List Char} {c : Char} (h : UnicodeText text c) : EscapeText ('u' :: text) c

/-- A character between the quotes of a literal. -/
inductive CharText : List Char → Char → Prop
  | plain {c : Char} (hquote : c ≠ '"') (hback : c ≠ '\\') (hcontrol : 0x20 ≤ c.toNat) :
      CharText [c] c
  | escaped {text : List Char} {c : Char} (h : EscapeText text c) : CharText ('\\' :: text) c

/-- What may stand between the quotes of a literal. -/
inductive BodyText : List Char → List Char → Prop
  | nil : BodyText [] []
  | cons {text body s : List Char} {c : Char} (hc : CharText text c) (hs : BodyText body s) :
      BodyText (text ++ body) (c :: s)

/-- The text is a literal for the string. -/
def Literal (text : List Char) (s : String) : Prop :=
  ∃ body, BodyText body s.toList ∧ text = '"' :: (body ++ ['"'])

/-- A fact about ASCII is checked character by character. -/
theorem forall_ascii {P : Char → Prop} (h : ∀ n < 128, P (Char.ofNat n)) {c : Char}
    (hc : c.toNat < 128) : P c := by
  have hn := h c.toNat hc
  rwa [Char.ofNat_toNat] at hn

theorem hexValue_ascii {c : Char} {n : Nat} (h : hexValue c = some n) : c.toNat < 128 := by
  unfold hexValue at h
  simp only [Char.le_def, UInt32.le_iff_toNat_le] at h
  have hc : c.toNat = c.val.toNat := rfl
  have h9 : '9'.val.toNat = 57 := rfl
  have hf : 'f'.val.toNat = 102 := rfl
  have hF : 'F'.val.toNat = 70 := rfl
  split at h
  · omega
  split at h
  · omega
  split at h
  · omega
  · simp at h

theorem IsHexDigit.lt {c : Char} {n : Nat} (h : IsHexDigit c n) : n < 16 := by
  rcases h with h | h <;> exact (List.getElem?_eq_some_iff.mp h).1

theorem hexValue_eq_some_iff {c : Char} {n : Nat} : hexValue c = some n ↔ IsHexDigit c n := by
  constructor
  · intro h
    have hall : ∀ k < 128, ∀ n ∈ hexValue (Char.ofNat k), IsHexDigit (Char.ofNat k) n := by decide
    exact forall_ascii (P := fun c => ∀ n ∈ hexValue c, IsHexDigit c n) hall (hexValue_ascii h) n h
  · intro h
    have hlower : ∀ k < 16, lowerDigits[k]?.bind hexValue = some k := by decide
    have hupper : ∀ k < 16, upperDigits[k]?.bind hexValue = some k := by decide
    have hn := h.lt
    rcases h with h | h
    · simpa only [h, Option.bind_some] using hlower n hn
    · simpa only [h, Option.bind_some] using hupper n hn

theorem unescape_eq_some_iff {letter c : Char} :
    unescape letter = some c ↔ (letter, c) ∈ shortEscapes := by
  constructor
  · intro h
    unfold unescape at h
    split at h
    iterate 8 exact Option.some.inj h ▸ by decide
    simp at h
  · simp only [shortEscapes, List.mem_cons, Prod.mk.injEq, List.not_mem_nil, or_false]
    rintro (⟨rfl, rfl⟩ | ⟨rfl, rfl⟩ | ⟨rfl, rfl⟩ | ⟨rfl, rfl⟩ | ⟨rfl, rfl⟩ | ⟨rfl, rfl⟩ |
      ⟨rfl, rfl⟩ | ⟨rfl, rfl⟩) <;> rfl

theorem readHex_eq_ok_iff {s r : List Char} {n : Nat} :
    readHex s = .ok (n, r) ↔ ∃ hex, HexText hex n ∧ s = hex ++ r := by
  constructor
  · intro h
    unfold readHex at h
    split at h
    · next a b c d r' =>
      split at h
      · next ha hb hc hd =>
        simp only [Except.ok.injEq, Prod.mk.injEq] at h
        obtain ⟨rfl, rfl⟩ := h
        exact ⟨[a, b, c, d], .digits (hexValue_eq_some_iff.mp ha) (hexValue_eq_some_iff.mp hb)
          (hexValue_eq_some_iff.mp hc) (hexValue_eq_some_iff.mp hd), rfl⟩
      · simp at h
    · simp at h
  · rintro ⟨_, ⟨ha, hb, hc, hd⟩, rfl⟩
    simp only [List.cons_append, List.nil_append, readHex, hexValue_eq_some_iff.mpr ha,
      hexValue_eq_some_iff.mpr hb, hexValue_eq_some_iff.mpr hc, hexValue_eq_some_iff.mpr hd]

theorem readLowSurrogate_eq_ok_iff {high : Nat} {s r : List Char} {c : Char} :
    readLowSurrogate high s = .ok (c, r) ↔
      ∃ hex low, HexText hex low ∧ isLowSurrogate low = true ∧ s = '\\' :: 'u' :: (hex ++ r) ∧
        Char.ofNat ((high - 0xD800) * 0x400 + (low - 0xDC00) + 0x10000) = c := by
  constructor
  · intro h
    unfold readLowSurrogate at h
    split at h
    · split at h
      · simp at h
      · next hx =>
        split at h
        · next hl =>
          simp only [Except.ok.injEq, Prod.mk.injEq] at h
          obtain ⟨rfl, rfl⟩ := h
          obtain ⟨hex, hhex, rfl⟩ := readHex_eq_ok_iff.mp hx
          exact ⟨hex, _, hhex, hl, rfl, rfl⟩
        · simp at h
    all_goals simp at h
  · rintro ⟨hex, low, hhex, hl, rfl, rfl⟩
    have hx : readHex (hex ++ r) = .ok (low, r) := readHex_eq_ok_iff.mpr ⟨hex, hhex, rfl⟩
    rw [readLowSurrogate, hx]
    simp only [hl, if_true]

theorem HexText.lt {hex : List Char} {n : Nat} (h : HexText hex n) : n < 0x10000 := by
  obtain ⟨ha, hb, hc, hd⟩ := h
  have := ha.lt
  have := hb.lt
  have := hc.lt
  have := hd.lt
  omega

theorem toNat_valid (c : Char) : c.toNat < 0xD800 ∨ 0xDFFF < c.toNat ∧ c.toNat < 0x110000 :=
  c.valid

theorem toNat_ofNat {n : Nat} (h : n < 0xD800 ∨ 0xDFFF < n ∧ n < 0x110000) :
    (Char.ofNat n).toNat = n := by
  rw [Char.ofNat, dif_pos h]
  rfl

theorem isLowSurrogate_iff {n : Nat} : isLowSurrogate n = true ↔ 0xDC00 ≤ n ∧ n ≤ 0xDFFF := by
  simp [isLowSurrogate]

theorem isHighSurrogate_iff {n : Nat} : isHighSurrogate n = true ↔ 0xD800 ≤ n ∧ n ≤ 0xDBFF := by
  simp [isHighSurrogate]

theorem readUnicode_unit {hex : List Char} {c : Char} (h : HexText hex c.toNat) (r : List Char) :
    readUnicode (hex ++ r) = .ok (c, r) := by
  have hvalid := toNat_valid c
  have hx : readHex (hex ++ r) = .ok (c.toNat, r) := readHex_eq_ok_iff.mpr ⟨hex, h, rfl⟩
  have hl : ¬ isLowSurrogate c.toNat = true := by
    rw [isLowSurrogate_iff]
    omega
  have hh : ¬ isHighSurrogate c.toNat = true := by
    rw [isHighSurrogate_iff]
    omega
  rw [readUnicode, hx]
  simp only [if_neg hl, if_neg hh, Char.ofNat_toNat]

theorem readUnicode_pair {high low : List Char} {c : Char} (hc : 0x10000 ≤ c.toNat)
    (hhigh : HexText high (0xD800 + (c.toNat - 0x10000) / 0x400))
    (hlow : HexText low (0xDC00 + (c.toNat - 0x10000) % 0x400)) (r : List Char) :
    readUnicode (high ++ '\\' :: 'u' :: (low ++ r)) = .ok (c, r) := by
  have hvalid := toNat_valid c
  generalize hm : 0xD800 + (c.toNat - 0x10000) / 0x400 = m at hhigh
  generalize hn : 0xDC00 + (c.toNat - 0x10000) % 0x400 = n at hlow
  have hx : readHex (high ++ '\\' :: 'u' :: (low ++ r)) = .ok (m, '\\' :: 'u' :: (low ++ r)) :=
    readHex_eq_ok_iff.mpr ⟨high, hhigh, rfl⟩
  have hl : ¬ isLowSurrogate m = true := by
    rw [isLowSurrogate_iff]
    omega
  have hh : isHighSurrogate m = true := by
    rw [isHighSurrogate_iff]
    omega
  have hsecond : isLowSurrogate n = true := by
    rw [isLowSurrogate_iff]
    omega
  have hvalue : (m - 0xD800) * 0x400 + (n - 0xDC00) + 0x10000 = c.toNat := by omega
  rw [readUnicode, hx]
  simp only [if_neg hl, if_pos hh]
  exact readLowSurrogate_eq_ok_iff.mpr
    ⟨low, n, hlow, hsecond, rfl, by rw [hvalue, Char.ofNat_toNat]⟩

theorem readUnicode_inv {s r : List Char} {c : Char} (h : readUnicode s = .ok (c, r)) :
    ∃ text, UnicodeText text c ∧ s = text ++ r := by
  unfold readUnicode at h
  split at h
  · simp at h
  · next n r' hx =>
    obtain ⟨hex, hhex, rfl⟩ := readHex_eq_ok_iff.mp hx
    have hn := hhex.lt
    split at h
    · simp at h
    · next hlow =>
      rw [isLowSurrogate_iff] at hlow
      split at h
      · next hhigh =>
        rw [isHighSurrogate_iff] at hhigh
        obtain ⟨more, low, hmore, hl, rfl, rfl⟩ := readLowSurrogate_eq_ok_iff.mp h
        rw [isLowSurrogate_iff] at hl
        generalize hv : (n - 0xD800) * 0x400 + (low - 0xDC00) + 0x10000 = v
        have hc : (Char.ofNat v).toNat = v := toNat_ofNat (by omega)
        have hfirst : 0xD800 + (v - 0x10000) / 0x400 = n := by omega
        have hsecond : 0xDC00 + (v - 0x10000) % 0x400 = low := by omega
        refine ⟨hex ++ '\\' :: 'u' :: more, .pair ?_ ?_ ?_, by simp⟩
        · omega
        · rwa [hc, hfirst]
        · rwa [hc, hsecond]
      · next hhigh =>
        rw [isHighSurrogate_iff] at hhigh
        simp only [Except.ok.injEq, Prod.mk.injEq] at h
        obtain ⟨rfl, rfl⟩ := h
        have hc : (Char.ofNat n).toNat = n := toNat_ofNat (by omega)
        exact ⟨hex, .unit (hc.symm ▸ hhex), rfl⟩

theorem ne_of_mem_shortEscapes {letter c : Char} (h : (letter, c) ∈ shortEscapes) :
    letter ≠ 'u' := by
  rintro rfl
  simp [shortEscapes] at h

theorem readEscape_letter {letter c : Char} (h : (letter, c) ∈ shortEscapes) (r : List Char) :
    readEscape (letter :: r) = .ok (c, r) := by
  rw [readEscape]
  · simp only [unescape_eq_some_iff.mpr h]
  · exact ne_of_mem_shortEscapes h

theorem readEscape_eq_ok_iff {s r : List Char} {c : Char} :
    readEscape s = .ok (c, r) ↔ ∃ text, EscapeText text c ∧ s = text ++ r := by
  constructor
  · intro h
    unfold readEscape at h
    split at h
    · simp at h
    · obtain ⟨text, ht, rfl⟩ := readUnicode_inv h
      exact ⟨'u' :: text, .unicode ht, rfl⟩
    · next letter s' _ =>
      split at h
      · next hc =>
        simp only [Except.ok.injEq, Prod.mk.injEq] at h
        obtain ⟨rfl, rfl⟩ := h
        exact ⟨[letter], .short (unescape_eq_some_iff.mp hc), rfl⟩
      · simp at h
  · rintro ⟨_, h | ⟨h | ⟨hc, hhigh, hlow⟩⟩, rfl⟩
    · exact readEscape_letter h r
    · exact readUnicode_unit h r
    · rw [List.cons_append, List.append_assoc]
      exact readUnicode_pair hc hhigh hlow r

theorem unquote_charText {text : List Char} {c : Char} (h : CharText text c)
    (held rest : List Char) : unquote held (text ++ rest) = unquote (c :: held) rest := by
  cases h with
  | plain hquote hback hcontrol =>
    rw [List.singleton_append, unquote, if_neg hquote, if_neg hback, if_neg (by omega)]
  | escaped h => exact unquote_backslash (readEscape_eq_ok_iff.mpr ⟨_, h, rfl⟩) held

theorem unquote_bodyText {body s : List Char} (h : BodyText body s) (held rest : List Char) :
    unquote held (body ++ '"' :: rest) = .ok (held.reverse ++ s, rest) := by
  induction h generalizing held with
  | nil => simp [unquote]
  | cons hc _ ih => rw [List.append_assoc, unquote_charText hc, ih]; simp

theorem unquote_inv {held s t r : List Char} (h : unquote held s = .ok (t, r)) :
    ∃ body u, BodyText body u ∧ s = body ++ '"' :: r ∧ t = held.reverse ++ u := by
  fun_induction unquote held s with
  | case1 => simp at h
  | case2 held s =>
    simp only [Except.ok.injEq, Prod.mk.injEq] at h
    obtain ⟨rfl, rfl⟩ := h
    exact ⟨[], [], .nil, rfl, by simp⟩
  | case3 => simp at h
  | case4 held s d r' he _ ih =>
    obtain ⟨text, htext, rfl⟩ := readEscape_eq_ok_iff.mp ‹readEscape s = _›
    obtain ⟨body, u, hu, rfl, rfl⟩ := ih h
    exact ⟨'\\' :: text ++ body, d :: u, .cons (.escaped htext) hu, by simp, by simp⟩
  | case5 => simp at h
  | case6 held c s hquote hback hcontrol ih =>
    obtain ⟨body, u, hu, rfl, rfl⟩ := ih h
    exact ⟨[c] ++ body, c :: u, .cons (.plain hquote hback (by omega)) hu, by simp, by simp⟩

/-- What is read to its end is a literal. -/
theorem literal_of_unquote {text : List Char} {s : String}
    (h : unquote [] text = .ok (s.toList, [])) : Literal ('"' :: text) s := by
  obtain ⟨body, u, hu, rfl, hs⟩ := unquote_inv h
  exact ⟨body, by rwa [hs], rfl⟩

theorem quotedText_iff {text : List Char} {s : String} :
    QuotedText text s ↔ Literal ('"' :: text) s := by
  constructor
  · intro h
    have hread := h []
    rw [List.append_nil] at hread
    exact literal_of_unquote hread
  · rintro ⟨body, hbody, ht⟩ rest
    obtain ⟨-, rfl⟩ := List.cons.inj ht
    rw [List.append_assoc]
    exact unquote_bodyText hbody [] rest

/-- A string is read exactly where a literal for it stands, behind blanks. -/
theorem Reader.string_run_eq_ok_iff {s r : List Char} {t : String} :
    string.run s = .ok (t, r) ↔
      ∃ blanks text, Blanks blanks ∧ Literal text t ∧ s = blanks ++ (text ++ r) := by
  constructor
  · intro h
    obtain ⟨blanks, quoted, hb, hq, rfl⟩ := string_inv h
    exact ⟨blanks, '"' :: quoted, hb, quotedText_iff.mp hq, rfl⟩
  · rintro ⟨blanks, text, hb, ⟨body, hbody, rfl⟩, rfl⟩
    exact (takes_string (quotedText_iff.mpr ⟨body, hbody, rfl⟩)).run blanks r hb

theorem skipEscape_short {letter c : Char} (h : (letter, c) ∈ shortEscapes) (r : List Char) :
    skipEscape (letter :: r) = .ok r := by
  rw [skipEscape]
  · simp only [unescape_eq_some_iff.mpr h]
  · exact ne_of_mem_shortEscapes h

theorem skipQuoted_hexText {hex : List Char} {n : Nat} (h : HexText hex n) (r : List Char) :
    skipQuoted ('\\' :: 'u' :: (hex ++ r)) = skipQuoted r := by
  refine skipQuoted_backslash ?_
  have hx : readHex (hex ++ r) = .ok (n, r) := readHex_eq_ok_iff.mpr ⟨hex, h, rfl⟩
  simp only [skipEscape, hx]

theorem skipQuoted_charText {text : List Char} {c : Char} (h : CharText text c)
    (rest : List Char) : skipQuoted (text ++ rest) = skipQuoted rest := by
  rcases h with ⟨hquote, hback, hcontrol⟩ | ⟨h | ⟨h | ⟨hc, hhigh, hlow⟩⟩⟩
  · rw [List.singleton_append, skipQuoted, if_neg hquote, if_neg hback, if_neg (by omega)]
  · exact skipQuoted_backslash (skipEscape_short h rest)
  · exact skipQuoted_hexText h rest
  · rw [List.cons_append, List.cons_append, List.append_assoc, List.cons_append, List.cons_append,
      skipQuoted_hexText hhigh, skipQuoted_hexText hlow]

theorem skipQuoted_bodyText {body s : List Char} (h : BodyText body s) (rest : List Char) :
    skipQuoted (body ++ '"' :: rest) = .ok rest := by
  induction h with
  | nil => rw [List.nil_append, skipQuoted, if_pos rfl]
  | cons hc _ ih => rw [List.append_assoc, skipQuoted_charText hc, ih]

end Implementors.Json
