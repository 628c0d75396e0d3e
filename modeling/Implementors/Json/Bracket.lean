import Implementors.Json.Reader

/-! Lists and objects. `nextElement` and `nextKey` decide what a bracket goes on with; the loops
over elements and members follow them. -/
namespace Implementors.Json

/-- What a bracket goes on with: its end, with the rest behind it, or an item. -/
inductive Turn
  | done (rest : List Char)
  | item (rest : List Char)

/-- The end of a list or its next element; all but the first stand behind a comma. -/
def nextElement (isFirst : Bool) (s : List Char) : Except Fault Turn :=
  match skipBlanks s with
  | [] => .error Cause.endOfList.atEnd
  | c :: r =>
    if c = ']' then .ok (.done r)
    else if isFirst then .ok (.item (c :: r))
    else if c = ',' then
      match skipBlanks r with
      | [] => .error Cause.endOfValue.atEnd
      | d :: t => if d = ']' then .error (Cause.trailingComma.past (d :: t)) else .ok (.item (d :: t))
    else .error (Cause.expectedListComma.past (c :: r))

/-- The end of an object or its next key, from behind the opening quote. -/
def nextKey (isFirst : Bool) (s : List Char) : Except Fault Turn :=
  match skipBlanks s with
  | [] => .error Cause.endOfObject.atEnd
  | c :: r =>
    if c = '}' then .ok (.done r)
    else if isFirst then
      if c = '"' then .ok (.item r) else .error (Cause.keyNotString.past (c :: r))
    else if c = ',' then
      match skipBlanks r with
      | [] => .error Cause.endOfValue.atEnd
      | d :: t =>
        if d = '"' then .ok (.item t)
        else if d = '}' then .error (Cause.trailingComma.past (d :: t))
        else .error (Cause.keyNotString.past (d :: t))
    else .error (Cause.expectedObjectComma.past (c :: r))

theorem nextElement_done_shorter {isFirst : Bool} {s r : List Char}
    (h : nextElement isFirst s = .ok (.done r)) : r.length < s.length := by
  unfold nextElement at h
  grind [→ shorter_of_skipBlanks]

theorem nextElement_item_length_le {isFirst : Bool} {s r : List Char}
    (h : nextElement isFirst s = .ok (.item r)) : r.length ≤ s.length := by
  unfold nextElement at h
  grind [→ shorter_of_skipBlanks]

theorem nextKey_done_shorter {isFirst : Bool} {s r : List Char}
    (h : nextKey isFirst s = .ok (.done r)) : r.length < s.length := by
  unfold nextKey at h
  grind [→ shorter_of_skipBlanks]

theorem nextKey_item_shorter {isFirst : Bool} {s r : List Char}
    (h : nextKey isFirst s = .ok (.item r)) : r.length < s.length := by
  unfold nextKey at h
  grind [→ shorter_of_skipBlanks]

/-- The elements of a list, from behind its opening bracket; `held` are those so far, backwards. -/
def readElements {α : Type} (element : Reader α) (held : List α) (isFirst : Bool) (s : List Char) :
    Except Fault (List α × List Char) :=
  match _ht : nextElement isFirst s with
  | .error fault => .error fault
  | .ok (.done r) => .ok (held.reverse, r)
  | .ok (.item r) =>
    match _hr : element.run r with
    | .error fault => .error fault
    | .ok (a, t) => readElements element (a :: held) false t
termination_by s.length
decreasing_by exact Nat.lt_of_lt_of_le (element.shorter _hr) (nextElement_item_length_le _ht)

theorem readElements_shorter {α : Type} {element : Reader α} {held as : List α} {isFirst : Bool}
    {s r : List Char} (h : readElements element held isFirst s = .ok (as, r)) :
    r.length < s.length := by
  fun_induction readElements element held isFirst s <;>
    grind [→ nextElement_done_shorter, → nextElement_item_length_le, → Reader.shorter]

/-- The members of an object, from behind its opening bracket. Each key is read here; the reader
for what follows it may depend on the key and on the members so far. -/
def readMembers {β : Type} (member : β → String → Reader β) (b : β) (isFirst : Bool)
    (s : List Char) : Except Fault (β × List Char) :=
  match _ht : nextKey isFirst s with
  | .error fault => .error fault
  | .ok (.done r) => .ok (b, r)
  | .ok (.item r) =>
    match _hk : unquote [] r with
    | .error fault => .error fault
    | .ok (key, t) =>
      match _hr : (member b (String.ofList key)).run t with
      | .error fault => .error fault
      | .ok (b, u) => readMembers member b false u
termination_by s.length
decreasing_by
  exact Nat.lt_trans (Reader.shorter _ _hr)
    (Nat.lt_trans (unquote_shorter _hk) (nextKey_item_shorter _ht))

theorem readMembers_shorter {β : Type} {member : β → String → Reader β} {b c : β} {isFirst : Bool}
    {s r : List Char} (h : readMembers member b isFirst s = .ok (c, r)) : r.length < s.length := by
  fun_induction readMembers member b isFirst s <;>
    grind [→ nextKey_done_shorter, → nextKey_item_shorter, → unquote_shorter, → Reader.shorter]

namespace Reader

def readList {α : Type} (element : Reader α) (s : List Char) : Except Fault (List α × List Char) :=
  match skipBlanks s with
  | '[' :: r => readElements element [] true r
  | s => .error (mismatch .sequence s)

def list {α : Type} (element : Reader α) : Reader (List α) where
  run := readList element
  shorter h := by
    unfold readList at h
    split at h
    · next hs => exact Nat.lt_trans (readElements_shorter h) (shorter_of_skipBlanks hs)
    · simp at h

def readObject {β : Type} (member : β → String → Reader β) (b : β) (s : List Char) :
    Except Fault (β × List Char) :=
  match skipBlanks s with
  | '{' :: r => readMembers member b true r
  | s => .error (mismatch .map s)

/-- An object whose members are folded into a value, from `b` on. -/
def object {β : Type} (member : β → String → Reader β) (b : β) : Reader β where
  run := readObject member b
  shorter h := by
    unfold readObject at h
    split at h
    · next hs => exact Nat.lt_trans (readMembers_shorter h) (shorter_of_skipBlanks hs)
    · simp at h

end Reader
end Implementors.Json
