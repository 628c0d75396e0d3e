import Implementors.Json.Cause
import Implementors.Text.Utf8

/-! Where a JSON text is refused. A reader sees only what is left of the text, so it reports the
place as the number of octets beyond it; the line and the column come from the whole text. -/
namespace Implementors.Json

structure Fault where
  cause : Cause
  left : Nat
  deriving DecidableEq, Repr

/-- The place before the rest. -/
def Cause.before (cause : Cause) (rest : List Char) : Fault := ⟨cause, Text.octetCount rest⟩

/-- The place `n` octets into the rest, or at its end. -/
def Cause.into (cause : Cause) (n : Nat) (rest : List Char) : Fault :=
  ⟨cause, Text.octetCount rest - n⟩

/-- The place one octet into the rest, or at its end. -/
def Cause.past (cause : Cause) (rest : List Char) : Fault := cause.into 1 rest

def Cause.atEnd (cause : Cause) : Fault := ⟨cause, 0⟩

/-- A refusal with the line, counted from one, and the octets before its place on that line. -/
structure Error where
  cause : Cause
  line : Nat
  column : Nat
  deriving DecidableEq, Repr

/-- Walks `index` octets into a text, from a given line and column. -/
def locateFrom (line column : Nat) : Nat → List Char → Nat × Nat
  | index, [] => (line, column + index)
  | index, c :: s =>
    if c.utf8Size ≤ index then
      if c = '\n' then locateFrom (line + 1) 0 (index - 1) s
      else locateFrom line (column + c.utf8Size) (index - c.utf8Size) s
    else (line, column + index)

def locate (text : List Char) (index : Nat) : Nat × Nat := locateFrom 1 0 index text

def Fault.within (fault : Fault) (text : List Char) : Error :=
  let (line, column) := locate text (Text.octetCount text - fault.left)
  ⟨fault.cause, line, column⟩

def Error.message (e : Error) : String :=
  e.cause.message ++ " at line " ++ toString e.line ++ " column " ++ toString e.column

def Error.category (e : Error) : Category := e.cause.category

private theorem locateFrom_line {s : List Char} (hs : '\n' ∉ s) (line column index : Nat) :
    (locateFrom line column index s).1 = line := by
  induction s generalizing column index with
  | nil => rfl
  | cons c s ih =>
    simp only [List.mem_cons, not_or] at hs
    rw [locateFrom, if_neg (Ne.symm hs.1)]
    split
    · exact ih hs.2 _ _
    · rfl

/-- In a text of one line every place is on line one. -/
theorem Fault.within_line {text : List Char} (h : '\n' ∉ text) (fault : Fault) :
    (fault.within text).line = 1 := locateFrom_line h 1 0 _

end Implementors.Json
