import Implementors.Json.Skip

/-! Readers of typed values. A reader takes one value, with the blanks before it, off the front of
a text; it takes at least one character, so lists and objects are read by recursion on the text. -/
namespace Implementors.Json

/-- The value that stands where another kind was wanted. Words, numbers and string literals are
taken whole; brackets are not opened. -/
def found : List Char → Except Fault (Found × List Char)
  | [] => .error Cause.endOfValue.atEnd
  | 'n' :: s => (readWord ['u', 'l', 'l'] s).map (.null, ·)
  | 't' :: s => (readWord ['r', 'u', 'e'] s).map (.boolean true, ·)
  | 'f' :: s => (readWord ['a', 'l', 's', 'e'] s).map (.boolean false, ·)
  | '"' :: s => (unquote [] s).map fun (t, r) => (.string (String.ofList t), r)
  | '[' :: s => .ok (.sequence, '[' :: s)
  | '{' :: s => .ok (.map, '{' :: s)
  | c :: s =>
    if isNumberStart c then
      match scanNumeral .endOfValue (c :: s) with
      | .error fault => .error fault
      | .ok (numeral, r) => (numeral.value r).map (·, r)
    else .error (Cause.expectedValue.past (c :: s))

/-- The fault of a value of the wrong kind; a fault inside it comes first. -/
def mismatch (wanted : Wanted) (s : List Char) : Fault :=
  match found s with
  | .error fault => fault
  | .ok (f, r) => (Cause.wrongKind f wanted).before r

structure Reader (α : Type) where
  run : List Char → Except Fault (α × List Char)
  shorter : ∀ {s a r}, run s = .ok (a, r) → r.length < s.length

namespace Reader

def map {α β : Type} (f : α → β) (reader : Reader α) : Reader β where
  run s :=
    match reader.run s with
    | .error fault => .error fault
    | .ok (a, r) => .ok (f a, r)
  shorter h := by
    split at h
    · simp at h
    · next hr =>
      simp only [Except.ok.injEq, Prod.mk.injEq] at h
      exact h.2 ▸ reader.shorter hr

/-- Refuses every text. -/
def refuse {α : Type} (fault : List Char → Fault) : Reader α where
  run s := .error (fault s)
  shorter h := by simp at h

/-- The value behind a colon. -/
def afterColon {α : Type} (reader : Reader α) : Reader α where
  run s :=
    match readColon s with
    | .error fault => .error fault
    | .ok r => reader.run r
  shorter h := by
    split at h
    · simp at h
    · next hc => exact Nat.lt_trans (reader.shorter h) (readColon_shorter hc)

def readString (s : List Char) : Except Fault (String × List Char) :=
  match skipBlanks s with
  | '"' :: r =>
    match unquote [] r with
    | .error fault => .error fault
    | .ok (t, r) => .ok (String.ofList t, r)
  | s => .error (mismatch .string s)

def string : Reader String where
  run := readString
  shorter h := by
    unfold readString at h
    split at h
    · next hs =>
      split at h
      · simp at h
      · next hq =>
        simp only [Except.ok.injEq, Prod.mk.injEq] at h
        exact h.2 ▸ Nat.lt_trans (unquote_shorter hq) (shorter_of_skipBlanks hs)
    · simp at h

/-- A word, behind its first letter, that stands for a value. -/
def readWordAs {α : Type} (a : α) (word s : List Char) : Except Fault (α × List Char) :=
  match readWord word s with
  | .error fault => .error fault
  | .ok r => .ok (a, r)

theorem readWordAs_length_le {α : Type} {a b : α} {word s r : List Char}
    (h : readWordAs a word s = .ok (b, r)) : r.length ≤ s.length := by
  unfold readWordAs at h
  split at h
  · simp at h
  · next hw =>
    simp only [Except.ok.injEq, Prod.mk.injEq] at h
    rw [readWord_eq_ok hw, List.length_append, h.2]
    omega

def readBoolean (s : List Char) : Except Fault (Bool × List Char) :=
  match skipBlanks s with
  | 't' :: r => readWordAs true ['r', 'u', 'e'] r
  | 'f' :: r => readWordAs false ['a', 'l', 's', 'e'] r
  | s => .error (mismatch .boolean s)

def boolean : Reader Bool where
  run := readBoolean
  shorter h := by
    unfold readBoolean at h
    split at h
    · next hs => exact Nat.lt_of_le_of_lt (readWordAs_length_le h) (shorter_of_skipBlanks hs)
    · next hs => exact Nat.lt_of_le_of_lt (readWordAs_length_le h) (shorter_of_skipBlanks hs)
    · simp at h

def readUnit (s : List Char) : Except Fault (Unit × List Char) :=
  match skipBlanks s with
  | 'n' :: r => readWordAs () ['u', 'l', 'l'] r
  | s => .error (mismatch .unit s)

/-- The value `null`. -/
def unit : Reader Unit where
  run := readUnit
  shorter h := by
    unfold readUnit at h
    split at h
    · next hs => exact Nat.lt_of_le_of_lt (readWordAs_length_le h) (shorter_of_skipBlanks hs)
    · simp at h

/-- Any value at all. -/
def ignored : Reader Unit where
  run s :=
    match skipValue s with
    | .error fault => .error fault
    | .ok r => .ok ((), r)
  shorter h := by
    split at h
    · simp at h
    · next hs =>
      simp only [Except.ok.injEq, Prod.mk.injEq] at h
      exact h.2 ▸ skipValue_shorter hs

/-- A reader followed by the end of the text: only blanks may be left. -/
def readAll {α : Type} (reader : Reader α) (text : List Char) : Except Error α :=
  match reader.run text with
  | .error fault => .error (fault.within text)
  | .ok (a, r) =>
    match skipBlanks r with
    | [] => .ok a
    | r => .error ((Cause.trailingCharacters.past r).within text)

end Reader
end Implementors.Json
