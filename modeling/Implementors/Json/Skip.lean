import Implementors.Json.Number
import Implementors.Json.Quote

/-! Passing over a value that nobody wants. Only its form is looked at, and brackets may nest to
any depth: the open ones are kept on a stack. -/
namespace Implementors.Json

inductive Bracket
  | list
  | object
  deriving DecidableEq, Repr

namespace Bracket

def closing : Bracket → Char
  | list => ']'
  | object => '}'

def ended : Bracket → Cause
  | list => .endOfList
  | object => .endOfObject

def expectedComma : Bracket → Cause
  | list => .expectedListComma
  | object => .expectedObjectComma

end Bracket

/-- The colon after a key, with blanks before it. -/
def readColon (s : List Char) : Except Fault (List Char) :=
  match skipBlanks s with
  | [] => .error Cause.endOfObject.atEnd
  | c :: r => if c = ':' then .ok r else .error (Cause.expectedColon.past (c :: r))

theorem readColon_shorter {s r : List Char} (h : readColon s = .ok r) : r.length < s.length := by
  unfold readColon at h
  split at h
  · simp at h
  · next hs =>
    split at h
    · simp only [Except.ok.injEq] at h
      exact h ▸ shorter_of_skipBlanks hs
    · simp at h

def isNumberStart (c : Char) : Bool := c == '-' || c.isDigit

/-- Passes over a word, a string literal or a number. -/
def skipScalar : List Char → Except Fault (List Char)
  | [] => .error Cause.endOfValue.atEnd
  | 'n' :: s => readWord ['u', 'l', 'l'] s
  | 't' :: s => readWord ['r', 'u', 'e'] s
  | 'f' :: s => readWord ['a', 'l', 's', 'e'] s
  | '"' :: s => skipQuoted s
  | c :: s =>
    if isNumberStart c then
      match scanNumeral .invalidNumber (c :: s) with
      | .error fault => .error fault
      | .ok (_, r) => .ok r
    else .error (Cause.expectedValue.past (c :: s))

private theorem readWord_length_le {word s r : List Char} (h : readWord word s = .ok r) :
    r.length ≤ s.length := by
  rw [readWord_eq_ok h, List.length_append]
  omega

theorem skipScalar_shorter {s r : List Char} (h : skipScalar s = .ok r) :
    r.length < s.length := by
  unfold skipScalar at h
  split at h
  · simp at h
  · exact Nat.lt_succ_of_le (readWord_length_le h)
  · exact Nat.lt_succ_of_le (readWord_length_le h)
  · exact Nat.lt_succ_of_le (readWord_length_le h)
  · exact Nat.lt_succ_of_lt (skipQuoted_shorter h)
  · split at h
    · split at h
      · simp at h
      · next hn =>
        simp only [Except.ok.injEq] at h
        have := scanNumeral_shorter hn
        rwa [h] at this
    · simp at h

/-- Goes past a key and its colon. -/
def skipKey (s : List Char) : Except Fault (List Char) :=
  match skipBlanks s with
  | [] => .error Cause.endOfObject.atEnd
  | c :: r =>
    if c = '"' then
      match skipQuoted r with
      | .error fault => .error fault
      | .ok r => readColon r
    else .error (Cause.keyNotString.past (c :: r))

theorem skipKey_shorter {s r : List Char} (h : skipKey s = .ok r) : r.length < s.length := by
  unfold skipKey at h
  split at h
  · simp at h
  · next hs =>
    split at h
    · split at h
      · simp at h
      · next hq =>
        exact Nat.lt_trans (readColon_shorter h)
          (Nat.lt_trans (skipQuoted_shorter hq) (shorter_of_skipBlanks hs))
    · simp at h

/-- Goes to where the next value starts inside a bracket. -/
def skipToValue : Bracket → List Char → Except Fault (List Char)
  | .list, s => .ok s
  | .object, s => skipKey s

theorem skipToValue_length_le {b : Bracket} {s r : List Char} (h : skipToValue b s = .ok r) :
    r.length ≤ s.length := by
  cases b with
  | list =>
    simp only [skipToValue, Except.ok.injEq] at h
    simp [h]
  | object => exact Nat.le_of_lt (skipKey_shorter h)

/-- What a skipping reader stands before. -/
inductive Stage
  | value
  | opened (b : Bracket)
  | closed

def Stage.rank : Stage → Nat
  | opened _ => 1
  | _ => 0

/-- Passes over what is left of a value inside the open brackets, the innermost first. -/
def skip : Stage → List Bracket → List Char → Except Fault (List Char)
  | .closed, [], s => .ok s
  | .value, outer, s =>
    match _hs : skipBlanks s with
    | [] => .error Cause.endOfValue.atEnd
    | c :: r =>
      if c = '[' then skip (.opened .list) outer r
      else if c = '{' then skip (.opened .object) outer r
      else
        match _h : skipScalar (c :: r) with
        | .error fault => .error fault
        | .ok t => skip .closed outer t
  | .opened b, outer, s =>
    match _hs : skipBlanks s with
    | [] => .error b.ended.atEnd
    | c :: r =>
      if c = b.closing then skip .closed outer r
      else
        match _h : skipToValue b (c :: r) with
        | .error fault => .error fault
        | .ok t => skip .value (b :: outer) t
  | .closed, b :: outer, s =>
    match _hs : skipBlanks s with
    | [] => .error b.ended.atEnd
    | c :: r =>
      if c = ',' then
        match _h : skipToValue b r with
        | .error fault => .error fault
        | .ok t => skip .value (b :: outer) t
      else if c = b.closing then skip .closed outer r
      else .error (b.expectedComma.past (c :: r))
termination_by stage _ s => 2 * s.length + stage.rank
decreasing_by
  all_goals
    have hb := skipBlanks_length_le s
    rw [_hs, List.length_cons] at hb
    simp only [Stage.rank]
  · omega
  · omega
  · have := skipScalar_shorter _h
    simp only [List.length_cons] at this
    omega
  · omega
  · have := skipToValue_length_le _h
    simp only [List.length_cons] at this
    omega
  · have := skipToValue_length_le _h
    omega
  · omega

theorem skip_length_le {stage : Stage} {outer : List Bracket} {s r : List Char}
    (h : skip stage outer s = .ok r) : r.length ≤ s.length := by
  fun_induction skip stage outer s <;>
    grind [→ shorter_of_skipBlanks, → skipScalar_shorter, → skipToValue_length_le]

/-- Passes over one value. -/
def skipValue (s : List Char) : Except Fault (List Char) := skip .value [] s

theorem skipValue_shorter {s r : List Char} (h : skipValue s = .ok r) : r.length < s.length := by
  unfold skipValue at h
  rw [skip] at h
  split at h
  · simp at h
  · next hs =>
    have := shorter_of_skipBlanks hs
    split at h
    · exact Nat.lt_of_le_of_lt (skip_length_le h) this
    · split at h
      · exact Nat.lt_of_le_of_lt (skip_length_le h) this
      · split at h
        · simp at h
        · next ht =>
          have := skipScalar_shorter ht
          have := skip_length_le h
          simp only [List.length_cons] at *
          omega

end Implementors.Json
