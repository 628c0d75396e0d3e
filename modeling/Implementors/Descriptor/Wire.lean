import Implementors.Descriptor
import Implementors.Json.Bracket
import Implementors.Json.Layout

/-! Descriptors as JSON. An object names its fields in any order, and keys that are no field are
passed over; a list gives text, flag and types in this order, and may end after any of them. -/
namespace Implementors.Descriptor

open Json

def write (layout : Layout) (depth : Nat) (d : Descriptor) : List Char :=
  layout.object depth
    [layout.member "text" (quote d.text), layout.member "synthetic" (Layout.boolean d.synthetic),
      layout.member "types" (layout.list (depth + 1) (fun _ => quote) d.types)]

/-- The fields of an object so far. -/
structure Draft where
  text : Option String := none
  synthetic : Option Bool := none
  types : Option (List String) := none

/-- A field that was given before is refused at its second key; an object that ends right there
is taken to its end first. -/
def repeated (field : String) (s : List Char) : Fault :=
  match skipBlanks s with
  | '}' :: r => (Cause.repeatedField field).before r
  | r => (Cause.repeatedField field).before r

def Draft.member (draft : Draft) (key : String) : Reader Draft :=
  if key = "text" then
    if draft.text.isSome then .refuse (repeated key)
    else (Reader.afterColon .string).map fun t => { draft with text := some t }
  else if key = "synthetic" then
    if draft.synthetic.isSome then .refuse (repeated key)
    else (Reader.afterColon .boolean).map fun b => { draft with synthetic := some b }
  else if key = "types" then
    if draft.types.isSome then .refuse (repeated key)
    else (Reader.afterColon (.list .string)).map fun ts => { draft with types := some ts }
  else (Reader.afterColon .ignored).map fun _ => draft

/-- Only the text is required. -/
def Draft.finish? (draft : Draft) : Option Descriptor :=
  draft.text.map fun t => ⟨t, draft.synthetic.getD false, draft.types.getD []⟩

def readObject (s : List Char) : Except Fault (Descriptor × List Char) :=
  match readMembers Draft.member {} true s with
  | .error fault => .error fault
  | .ok (draft, r) =>
    match draft.finish? with
    | some d => .ok (d, r)
    | none => .error ((Cause.missingField "text").before r)

/-- The end of a list that has all its elements. -/
def readListEnd (s : List Char) : Except Fault (List Char) :=
  match skipBlanks s with
  | [] => .error Cause.endOfList.atEnd
  | c :: r =>
    if c = ']' then .ok r
    else if c = ',' then
      match skipBlanks r with
      | ']' :: t => .error (Cause.trailingComma.past (']' :: t))
      | t => .error (Cause.trailingCharacters.past t)
    else .error (Cause.trailingCharacters.past (c :: r))

/-- The types as the last element, and the end of the list. -/
def readTypes (text : String) (synthetic : Bool) (s : List Char) :
    Except Fault (Descriptor × List Char) :=
  match nextElement false s with
  | .error fault => .error fault
  | .ok (.done r) => .ok (⟨text, synthetic, []⟩, r)
  | .ok (.item r) =>
    match (Reader.list .string).run r with
    | .error fault => .error fault
    | .ok (types, r) =>
      match readListEnd r with
      | .error fault => .error fault
      | .ok r => .ok (⟨text, synthetic, types⟩, r)

def readFlag (text : String) (s : List Char) : Except Fault (Descriptor × List Char) :=
  match nextElement false s with
  | .error fault => .error fault
  | .ok (.done r) => .ok (⟨text, false, []⟩, r)
  | .ok (.item r) =>
    match Reader.boolean.run r with
    | .error fault => .error fault
    | .ok (synthetic, r) => readTypes text synthetic r

def readList (s : List Char) : Except Fault (Descriptor × List Char) :=
  match nextElement true s with
  | .error fault => .error fault
  | .ok (.done r) => .error ((Cause.wrongLength 0 .descriptor 3).before r)
  | .ok (.item r) =>
    match Reader.string.run r with
    | .error fault => .error fault
    | .ok (text, r) => readFlag text r

def read (s : List Char) : Except Fault (Descriptor × List Char) :=
  match skipBlanks s with
  | '{' :: r => readObject r
  | '[' :: r => readList r
  | s => .error (mismatch .descriptor s)

theorem readObject_shorter {s r : List Char} {d : Descriptor} (h : readObject s = .ok (d, r)) :
    r.length < s.length := by
  unfold readObject at h
  grind [→ readMembers_shorter]

theorem readListEnd_shorter {s r : List Char} (h : readListEnd s = .ok r) :
    r.length < s.length := by
  unfold readListEnd at h
  grind [→ shorter_of_skipBlanks]

theorem readTypes_shorter {text : String} {synthetic : Bool} {s r : List Char} {d : Descriptor}
    (h : readTypes text synthetic s = .ok (d, r)) : r.length < s.length := by
  unfold readTypes at h
  grind [→ nextElement_done_shorter, → nextElement_item_length_le, → Reader.shorter,
    → readListEnd_shorter]

theorem readFlag_shorter {text : String} {s r : List Char} {d : Descriptor}
    (h : readFlag text s = .ok (d, r)) : r.length < s.length := by
  unfold readFlag at h
  grind [→ nextElement_done_shorter, → nextElement_item_length_le, → Reader.shorter,
    → readTypes_shorter]

theorem readList_shorter {s r : List Char} {d : Descriptor} (h : readList s = .ok (d, r)) :
    r.length < s.length := by
  unfold readList at h
  grind [→ nextElement_item_length_le, → Reader.shorter, → readFlag_shorter]

theorem read_shorter {s r : List Char} {d : Descriptor} (h : read s = .ok (d, r)) :
    r.length < s.length := by
  unfold read at h
  split at h
  · next hs => exact Nat.lt_trans (readObject_shorter h) (shorter_of_skipBlanks hs)
  · next hs => exact Nat.lt_trans (readList_shorter h) (shorter_of_skipBlanks hs)
  · simp at h

def reader : Reader Descriptor := ⟨read, read_shorter⟩

def toJson (d : Descriptor) : String := String.ofList (d.write .compact 0)

def ofJson (text : String) : Except Json.Error Descriptor := reader.readAll text.toList

end Implementors.Descriptor
