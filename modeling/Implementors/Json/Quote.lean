import Implementors.Json.Blank

/-! String literals: how they are written, how they are read, and how they are passed over in a
value that nobody wants. Main statement: `unquote_escaped`, reading what was written. -/
namespace Implementors.Json

def hexDigit (n : Nat) : Char := Char.ofNat (if n < 10 then '0'.toNat + n else 'a'.toNat + (n - 10))

def hexValue (c : Char) : Option Nat :=
  if '0' ≤ c ∧ c ≤ '9' then some (c.toNat - '0'.toNat)
  else if 'a' ≤ c ∧ c ≤ 'f' then some (c.toNat - 'a'.toNat + 10)
  else if 'A' ≤ c ∧ c ≤ 'F' then some (c.toNat - 'A'.toNat + 10)
  else none

/-- The written form of a character: quotes, backslashes and controls are escaped. -/
def escape (c : Char) : List Char :=
  match c with
  | '"' => ['\\', '"']
  | '\\' => ['\\', '\\']
  | '\x08' => ['\\', 'b']
  | '\x0c' => ['\\', 'f']
  | '\n' => ['\\', 'n']
  | '\r' => ['\\', 'r']
  | '\t' => ['\\', 't']
  | c =>
    if c.toNat < 0x20 then ['\\', 'u', '0', '0', hexDigit (c.toNat / 16), hexDigit (c.toNat % 16)]
    else [c]

def quote (s : String) : List Char := '"' :: s.toList.flatMap escape ++ ['"']

/-- The fault at what should have been four hexadecimal digits: they are counted in octets. -/
def badHex (s : List Char) : Fault :=
  if Text.octetCount s < 4 then Cause.endOfString.atEnd else Cause.invalidEscape.into 4 s

def readHex (s : List Char) : Except Fault (Nat × List Char) :=
  match s with
  | a :: b :: c :: d :: r =>
    match hexValue a, hexValue b, hexValue c, hexValue d with
    | some a, some b, some c, some d => .ok (((a * 16 + b) * 16 + c) * 16 + d, r)
    | _, _, _, _ => .error (badHex s)
  | _ => .error (badHex s)

def isLowSurrogate (n : Nat) : Bool := 0xDC00 ≤ n && n ≤ 0xDFFF

def isHighSurrogate (n : Nat) : Bool := 0xD800 ≤ n && n ≤ 0xDBFF

/-- The second half of a surrogate pair, after the first. -/
def readLowSurrogate (high : Nat) : List Char → Except Fault (Char × List Char)
  | '\\' :: 'u' :: s =>
    match readHex s with
    | .error fault => .error fault
    | .ok (low, r) =>
      if isLowSurrogate low then
        .ok (Char.ofNat ((high - 0xD800) * 0x400 + (low - 0xDC00) + 0x10000), r)
      else .error (Cause.loneSurrogate.before r)
  | ['\\'] => .error Cause.endOfString.atEnd
  | '\\' :: s => .error (Cause.brokenSurrogatePair.past s)
  | [] => .error Cause.endOfString.atEnd
  | s => .error (Cause.brokenSurrogatePair.past s)

/-- What follows `\u`. -/
def readUnicode (s : List Char) : Except Fault (Char × List Char) :=
  match readHex s with
  | .error fault => .error fault
  | .ok (n, r) =>
    if isLowSurrogate n then .error (Cause.loneSurrogate.before r)
    else if isHighSurrogate n then readLowSurrogate n r
    else .ok (Char.ofNat n, r)

/-- The character that a letter after a backslash stands for. -/
def unescape : Char → Option Char
  | '"' => some '"'
  | '\\' => some '\\'
  | '/' => some '/'
  | 'b' => some '\x08'
  | 'f' => some '\x0c'
  | 'n' => some '\n'
  | 'r' => some '\r'
  | 't' => some '\t'
  | _ => none

/-- What follows a backslash. -/
def readEscape : List Char → Except Fault (Char × List Char)
  | [] => .error Cause.endOfString.atEnd
  | 'u' :: s => readUnicode s
  | c :: s =>
    match unescape c with
    | some d => .ok (d, s)
    | none => .error (Cause.invalidEscape.past (c :: s))

theorem readHex_shorter {s r : List Char} {n : Nat} (h : readHex s = .ok (n, r)) :
    r.length < s.length := by
  unfold readHex at h
  split at h
  · split at h
    · simp only [Except.ok.injEq, Prod.mk.injEq] at h
      simp only [← h.2, List.length_cons]
      omega
    · simp at h
  · simp at h

theorem readLowSurrogate_shorter {high : Nat} {s r : List Char} {c : Char}
    (h : readLowSurrogate high s = .ok (c, r)) : r.length < s.length := by
  unfold readLowSurrogate at h
  split at h
  · split at h
    · simp at h
    · next hx =>
      split at h
      · simp only [Except.ok.injEq, Prod.mk.injEq] at h
        have := readHex_shorter hx
        simp only [← h.2, List.length_cons]
        omega
      · simp at h
  all_goals simp at h

theorem readUnicode_shorter {s r : List Char} {c : Char} (h : readUnicode s = .ok (c, r)) :
    r.length < s.length := by
  unfold readUnicode at h
  split at h
  · simp at h
  · next hx =>
    have := readHex_shorter hx
    split at h
    · simp at h
    · split at h
      · exact Nat.lt_trans (readLowSurrogate_shorter h) this
      · simp only [Except.ok.injEq, Prod.mk.injEq] at h
        simpa [← h.2] using this

theorem readEscape_shorter {s r : List Char} {c : Char} (h : readEscape s = .ok (c, r)) :
    r.length < s.length := by
  unfold readEscape at h
  split at h
  · simp at h
  · exact Nat.lt_succ_of_lt (readUnicode_shorter h)
  · split at h
    · simp only [Except.ok.injEq, Prod.mk.injEq] at h
      simp [← h.2]
    · simp at h

/-- Reads up to the closing quote; `held` are the characters so far, backwards. -/
def unquote (held : List Char) : List Char → Except Fault (List Char × List Char)
  | [] => .error Cause.endOfString.atEnd
  | c :: s =>
    if c = '"' then .ok (held.reverse, s)
    else if c = '\\' then
      match _h : readEscape s with
      | .error fault => .error fault
      | .ok (d, r) => unquote (d :: held) r
    else if c.toNat < 0x20 then .error (Cause.controlCharacter.past (c :: s))
    else unquote (c :: held) s
termination_by s => s.length
decreasing_by
  · have := readEscape_shorter _h
    simp only [List.length_cons]
    omega
  · simp

theorem unquote_shorter {held s t r : List Char} (h : unquote held s = .ok (t, r)) :
    r.length < s.length := by
  fun_induction unquote held s with
  | case1 => simp at h
  | case2 held s => simp only [Except.ok.injEq, Prod.mk.injEq] at h; simp [← h.2]
  | case3 => simp at h
  | case4 held s c _ hr _ ih =>
    have := readEscape_shorter ‹_›
    have := ih h
    simp only [List.length_cons]
    omega
  | case5 => simp at h
  | case6 held c s _ _ _ ih =>
    have := ih h
    simp only [List.length_cons]
    omega

/-- Passes over what follows a backslash; halves of surrogate pairs need no partner. -/
def skipEscape : List Char → Except Fault (List Char)
  | [] => .error Cause.endOfString.atEnd
  | 'u' :: s =>
    match readHex s with
    | .error fault => .error fault
    | .ok (_, r) => .ok r
  | c :: s =>
    match unescape c with
    | some _ => .ok s
    | none => .error (Cause.invalidEscape.past (c :: s))

theorem skipEscape_shorter {s r : List Char} (h : skipEscape s = .ok r) : r.length < s.length := by
  unfold skipEscape at h
  split at h
  · simp at h
  · split at h
    · simp at h
    · next hx =>
      have := readHex_shorter hx
      simp only [Except.ok.injEq] at h
      simp only [← h, List.length_cons]
      omega
  · split at h
    · simp only [Except.ok.injEq] at h
      simp [← h]
    · simp at h

/-- Passes over a string literal, from behind its opening quote. -/
def skipQuoted : List Char → Except Fault (List Char)
  | [] => .error Cause.endOfString.atEnd
  | c :: s =>
    if c = '"' then .ok s
    else if c = '\\' then
      match _h : skipEscape s with
      | .error fault => .error fault
      | .ok r => skipQuoted r
    else if c.toNat < 0x20 then .error (Cause.controlCharacter.before (c :: s))
    else skipQuoted s
termination_by s => s.length
decreasing_by
  · have := skipEscape_shorter _h
    simp only [List.length_cons]
    omega
  · simp

theorem skipQuoted_shorter {s r : List Char} (h : skipQuoted s = .ok r) : r.length < s.length := by
  fun_induction skipQuoted s with
  | case1 => simp at h
  | case2 s => simp only [Except.ok.injEq] at h; simp [← h]
  | case3 => simp at h
  | case4 s _ hr _ ih =>
    have := skipEscape_shorter ‹_›
    have := ih h
    simp only [List.length_cons]
    omega
  | case5 => simp at h
  | case6 c s _ _ _ ih =>
    have := ih h
    simp only [List.length_cons]
    omega

theorem hexValue_hexDigit {n : Nat} (h : n < 16) : hexValue (hexDigit n) = some n := by
  have : ∀ k : Fin 16, hexValue (hexDigit k) = some k.val := by decide
  exact this ⟨n, h⟩

private theorem readEscape_control {c : Char} (h : c.toNat < 0x20) (rest : List Char) :
    readEscape ('u' :: '0' :: '0' :: hexDigit (c.toNat / 16) :: hexDigit (c.toNat % 16) :: rest) =
      .ok (c, rest) := by
  have hz : hexValue '0' = some 0 := rfl
  have hn : ((0 * 16 + 0) * 16 + c.toNat / 16) * 16 + c.toNat % 16 = c.toNat := by omega
  have hl : isLowSurrogate c.toNat = false := by
    simp only [isLowSurrogate, Bool.and_eq_false_iff, decide_eq_false_iff_not]
    omega
  have hh : isHighSurrogate c.toNat = false := by
    simp only [isHighSurrogate, Bool.and_eq_false_iff, decide_eq_false_iff_not]
    omega
  simp only [readEscape, readUnicode, readHex, hz, hexValue_hexDigit (show c.toNat / 16 < 16 by omega),
    hexValue_hexDigit (show c.toNat % 16 < 16 by omega), hn, hl, hh, Char.ofNat_toNat,
    Bool.false_eq_true, if_false]

theorem unquote_backslash {s r : List Char} {c : Char} (h : readEscape s = .ok (c, r))
    (held : List Char) : unquote held ('\\' :: s) = unquote (c :: held) r := by
  rw [unquote, if_neg (by decide), if_pos rfl]
  split <;> simp_all

/-- Reading a written character gives it back. -/
theorem unquote_escape (held : List Char) (c : Char) (rest : List Char) :
    unquote held (escape c ++ rest) = unquote (c :: held) rest := by
  unfold escape
  split
  iterate 7 exact unquote_backslash rfl held
  · next hq hb _ _ _ _ _ =>
    split
    · next hc => exact unquote_backslash (readEscape_control hc rest) held
    · next hc =>
      simp only [List.cons_append, List.nil_append]
      rw [unquote, if_neg hq, if_neg hb, if_neg hc]

theorem unquote_escaped (held s rest : List Char) :
    unquote held (s.flatMap escape ++ '"' :: rest) = .ok (held.reverse ++ s, rest) := by
  induction s generalizing held with
  | nil => simp [unquote]
  | cons c s ih => simp [List.append_assoc, unquote_escape, ih]

end Implementors.Json
