import Implementors.Json.Quote

/-! How lists and objects are laid out: in one line, or with one item a line. -/
namespace Implementors.Json

/-- What stands between the pieces of a text: `lineBreak n` before an item at depth `n`, and the
colon behind a key. -/
structure Layout where
  lineBreak : Nat → List Char
  colon : List Char

namespace Layout

def compact : Layout := ⟨fun _ => [], [':']⟩

/-- Two spaces a level, and a space behind each colon. -/
def pretty : Layout := ⟨fun n => '\n' :: List.replicate (2 * n) ' ', [':', ' ']⟩

/-- Items between brackets that stand at the given depth; no items take no line breaks. -/
def bracketed (layout : Layout) (depth : Nat) (opening closing : Char) :
    List (List Char) → List Char
  | [] => [opening, closing]
  | item :: items =>
    opening :: layout.lineBreak (depth + 1) ++ item ++
      items.flatMap (fun next => ',' :: layout.lineBreak (depth + 1) ++ next) ++
      layout.lineBreak depth ++ [closing]

def list {α : Type} (layout : Layout) (depth : Nat) (write : Nat → α → List Char) (as : List α) :
    List Char :=
  layout.bracketed depth '[' ']' (as.map (write (depth + 1)))

def member (layout : Layout) (key : String) (value : List Char) : List Char :=
  quote key ++ layout.colon ++ value

def object (layout : Layout) (depth : Nat) (members : List (List Char)) : List Char :=
  layout.bracketed depth '{' '}' members

def boolean (b : Bool) : List Char := if b then ['t', 'r', 'u', 'e'] else ['f', 'a', 'l', 's', 'e']

end Layout
end Implementors.Json
