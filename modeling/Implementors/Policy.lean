import Implementors.Json.Bracket
import Implementors.Json.Layout

/-! What happens to registries that arrive before a page has a sink. -/
namespace Implementors

/-- A single slot, where each registry replaces the one before it, or a queue. -/
inductive Policy
  | lastWriteWins
  | accumulate
  deriving DecidableEq, Repr

instance : Inhabited Policy := ⟨.lastWriteWins⟩

namespace Policy

open Json

def name : Policy → String
  | lastWriteWins => "last-write-wins"
  | accumulate => "accumulate"

def all : List Policy := [lastWriteWins, accumulate]

def ofName? (s : String) : Option Policy := all.find? (·.name = s)

def toJson (p : Policy) : String := String.ofList (quote p.name)

/-- A policy's name, from behind its opening quote. -/
def readName (s : List Char) : Except Fault (Policy × List Char) :=
  match unquote [] s with
  | .error fault => .error fault
  | .ok (t, r) =>
    match ofName? (String.ofList t) with
    | some p => .ok (p, r)
    | none => .error ((Cause.unknownName (String.ofList t) (all.map name)).before r)

/-- The end of an object that has its one member. -/
def readObjectEnd (s : List Char) : Except Fault (List Char) :=
  match skipBlanks s with
  | [] => .error Cause.endOfObject.atEnd
  | '}' :: r => .ok r
  | s => .error (Cause.expectedValue.before s)

/-- A name as the only key of an object, with the value `null`. -/
def readObject (s : List Char) : Except Fault (Policy × List Char) :=
  match skipBlanks s with
  | [] => .error Cause.endOfObject.atEnd
  | '"' :: r =>
    match readName r with
    | .error fault => .error fault
    | .ok (p, r) =>
      match Reader.unit.afterColon.run r with
      | .error fault => .error fault
      | .ok (_, r) =>
        match readObjectEnd r with
        | .error fault => .error fault
        | .ok r => .ok (p, r)
  | '}' :: r => .error (Cause.expectedValue.past ('}' :: r))
  | s => .error (Cause.keyNotString.past s)

def read (s : List Char) : Except Fault (Policy × List Char) :=
  match skipBlanks s with
  | [] => .error Cause.endOfValue.atEnd
  | '"' :: r => readName r
  | '{' :: r => readObject r
  | s => .error (Cause.expectedValue.past s)

theorem readName_shorter {s r : List Char} {p : Policy} (h : readName s = .ok (p, r)) :
    r.length < s.length := by
  unfold readName at h
  grind [→ unquote_shorter]

theorem readObject_shorter {s r : List Char} {p : Policy} (h : readObject s = .ok (p, r)) :
    r.length < s.length := by
  unfold readObject readObjectEnd at h
  grind [→ shorter_of_skipBlanks, → readName_shorter, → Reader.shorter]

theorem read_shorter {s r : List Char} {p : Policy} (h : read s = .ok (p, r)) :
    r.length < s.length := by
  unfold read at h
  grind [→ shorter_of_skipBlanks, → readName_shorter, → readObject_shorter]

def reader : Reader Policy := ⟨read, read_shorter⟩

def ofJson (text : String) : Except Json.Error Policy := reader.readAll text.toList

end Policy
end Implementors
