import Implementors.Json.Fault

/-! The white space of JSON, and the words `null`, `true` and `false`. -/
namespace Implementors.Json

def isBlank (c : Char) : Bool := c == ' ' || c == '\t' || c == '\n' || c == '\r'

def skipBlanks (s : List Char) : List Char := s.dropWhile isBlank

theorem skipBlanks_length_le (s : List Char) : (skipBlanks s).length ≤ s.length :=
  (List.dropWhile_sublist isBlank).length_le

theorem shorter_of_skipBlanks {s r : List Char} {c : Char} (h : skipBlanks s = c :: r) :
    r.length < s.length := by
  have := skipBlanks_length_le s
  rw [h, List.length_cons] at this
  exact this

theorem skipBlanks_append {blanks : List Char} (h : blanks.all isBlank = true) (s : List Char) :
    skipBlanks (blanks ++ s) = skipBlanks s := by
  induction blanks with
  | nil => rfl
  | cons c blanks ih =>
    simp only [List.all_cons, Bool.and_eq_true] at h
    simp only [List.cons_append, skipBlanks, List.dropWhile_cons, h.1, if_true]
    exact ih h.2

/-- Reads the letters of a word. The first wrong letter is where the text is refused. -/
def readWord : List Char → List Char → Except Fault (List Char)
  | [], s => .ok s
  | _ :: _, [] => .error Cause.endOfValue.atEnd
  | w :: word, c :: s =>
    if c = w then readWord word s else .error (Cause.expectedWord.past (c :: s))

theorem readWord_eq_ok {word s r : List Char} (h : readWord word s = .ok r) : s = word ++ r := by
  induction word generalizing s with
  | nil => simpa [readWord] using h
  | cons w word ih =>
    cases s with
    | nil => simp [readWord] at h
    | cons c s =>
      simp only [readWord] at h
      split at h
      · next hc => rw [hc, ih h]; rfl
      · simp at h

theorem readWord_append (word r : List Char) : readWord word (word ++ r) = .ok r := by
  induction word with
  | nil => rfl
  | cons w word ih => simp [readWord, ih]

end Implementors.Json
