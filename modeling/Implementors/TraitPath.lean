import Implementors.Error
import Implementors.Path

/-! Paths of documented traits: a module path and a name. They are written with `::` between the
segments, and each has a place for its script in a documentation tree. -/
namespace Implementors

structure TraitPath where
  module : List String
  name : String
  deriving DecidableEq, Repr

namespace TraitPath

/-- Splits at each `::`, from the left and without overlap. -/
def segments : List Char → List (List Char)
  | [] => [[]]
  | ':' :: ':' :: r => [] :: segments r
  | c :: r =>
    match segments r with
    | [] => [[c]]
    | s :: ss => (c :: s) :: ss

/-- The last segment is the name. -/
def parse (path : String) : TraitPath :=
  let ss := (segments path.toList).map String.ofList
  ⟨ss.dropLast, ss.getLast?.getD ""⟩

def separator : String := "::"

def toString (p : TraitPath) : String :=
  p.module.foldr (fun segment rest => segment ++ separator ++ rest) p.name

instance : ToString TraitPath := ⟨toString⟩

/-- The directory of a documentation tree that holds the scripts. -/
def root : String := "implementors"

def fileStart : String := "trait."

def fileEnd : String := ".js"

/-- Where the script of a trait stands below a documentation tree. -/
def scriptPath (p : TraitPath) : String :=
  Path.push (p.module.foldl Path.push root) (fileStart ++ p.name ++ fileEnd)

/-- What stands between the fixed start and end of a file name; it is not empty. -/
def nameOfFile? (file : String) : Option String :=
  match fileStart.toList.isPrefixOf? file.toList with
  | none => none
  | some rest =>
    match fileEnd.toList.isSuffixOf? rest with
    | none => none
    | some [] => none
    | some name => some (String.ofList name)

/-- The directories behind the last one that is a root; all of them if none is. -/
def belowRoot (directories : List String) : List String :=
  (directories.reverse.takeWhile (· != root)).reverse

/-- The trait whose script stands at a path: the file names it and the directories below the last
root are its module. Parent marks among the directories are passed over. -/
def ofScriptPath? (path : Octets) : Option TraitPath :=
  let components := Path.components path
  match components.getLast? with
  | none => none
  | some last =>
    if last = Path.dotDot then none
    else
      match (Text.decode? last).bind nameOfFile? with
      | none => none
      | some name =>
        match (components.dropLast.filter (· != Path.dotDot)).mapM Text.decode? with
        | none => none
        | some directories => some ⟨belowRoot directories, name⟩

def ofScriptPath (path : Octets) : Except Error TraitPath :=
  match ofScriptPath? path with
  | some p => .ok p
  | none => .error (.invalidScriptPath path)

/-- Modules first, segment by segment, then names. -/
def le (p q : TraitPath) : Bool :=
  p.module < q.module || (p.module = q.module && p.name ≤ q.name)

def sort (paths : List TraitPath) : List TraitPath := paths.mergeSort le

end TraitPath
end Implementors
