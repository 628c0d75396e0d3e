import Implementors.Registry.Wire
import Implementors.Error
import Implementors.Text.Blank
import Implementors.Text.Lines

/-! Implementors scripts. Only the lines that start with `implementors[` carry data; a script is
written as one such line for each library between two fixed lines. -/
namespace Implementors.Script

open Json

def opening : String := "(function() \x7bvar implementors = \x7b\x7d;"

def entryStart : String := "implementors["

def closing : String :=
  "if (window.register_implementors) \x7bwindow.register_implementors(implementors);\x7d else " ++
    "\x7bwindow.pending_implementors = implementors;\x7d\x7d)()"

/-- Why a line that starts like an entry is none: its punctuation, or the JSON in it. -/
inductive EntryFault
  | malformed
  | json (error : Json.Error)
  deriving DecidableEq, Repr

def EntryFault.onLine (line : Nat) : EntryFault → Error
  | malformed => .malformedEntry line
  | json error => .json line error

def afterChar (c : Char) : List Char → Option (List Char)
  | [] => none
  | d :: s => if d = c then some s else none

/-- The text between the punctuation behind a library name: a closing bracket, an equals sign, and
a semicolon at the very end. -/
def listText (s : List Char) : Option (List Char) :=
  ((afterChar ']' (Text.trimStart s)).bind fun s => afterChar '=' (Text.trimStart s)).bind fun s =>
    [';'].isSuffixOf? (Text.trim s)

/-- Reads an entry from behind its start: a library name in JSON, punctuation, and a list of
descriptors in JSON. -/
def readEntry (text : List Char) : Except EntryFault LibraryEntry :=
  match skipBlanks text with
  | [] => .error .malformed
  | _ =>
    match Reader.string.run text with
    | .error fault => .error (.json (fault.within text))
    | .ok (name, rest) =>
      match listText rest with
      | none => .error .malformed
      | some listed =>
        match Registry.listReader.readAll listed with
        | .error error => .error (.json error)
        | .ok list => .ok (name, list)

/-- The text of an entry behind its start, if a line is one. -/
def entryText? (line : List Char) : Option (List Char) :=
  entryStart.toList.isPrefixOf? (Text.trim line)

/-- Reads lines into a registry; `n` is the number of the first. -/
def readLines (n : Nat) (r : Registry) : List (List Char) → Except Error Registry
  | [] => .ok r
  | line :: lines =>
    match entryText? line with
    | none => readLines (n + 1) r lines
    | some text =>
      match readEntry text with
      | .error fault => .error (fault.onLine n)
      | .ok (name, list) => readLines (n + 1) (r.set name list) lines

def parse (source : String) : Except Error Registry :=
  readLines 1 .empty (Text.lines source.toList)

def entryLine (entry : LibraryEntry) : List Char :=
  entryStart.toList ++ quote entry.1 ++ [']', ' ', '=', ' '] ++
    Registry.writeList .compact 0 entry.2 ++ [';', '\n']

def render (r : Registry) : String :=
  String.ofList (opening.toList ++ '\n' :: r.entries.flatMap entryLine ++ closing.toList)

end Implementors.Script
