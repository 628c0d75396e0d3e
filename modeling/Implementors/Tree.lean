import Implementors.Error
import Implementors.Path

/-! Documentation trees: directories and files by their names, making both by their paths, and
reading a file as text by a path from the tree's root directory. -/
namespace Implementors

inductive Node
  | directory
  | file (content : Octets)
  deriving DecidableEq, Repr

/-- The names that lead from the root directory to a node. Parent marks in front lead out of the
root, and a slash in front is the top directory, where absolute paths start. -/
abbrev Place := List Octets

/-- What stands at the places that are known. Nothing is put at the root directory or above it. -/
structure Tree where
  nodes : List (Place × Node) := []

namespace Tree

def top : Place := [[Path.slash]]

/-- Whether a place is the root directory or one above it. -/
def isOuter (place : Place) : Bool :=
  place == top || place.all (· == Path.dotDot)

def node? (t : Tree) (place : Place) : Option Node :=
  if isOuter place then some .directory else t.nodes.lookup place

def parent (place : Place) : Place :=
  if place = top then place
  else if isOuter place then Path.dotDot :: place
  else place.dropLast

def start (path : Octets) : Place :=
  if path.head? = some Path.slash then top else []

def put (t : Tree) (place : Place) (node : Node) : Tree := ⟨(place, node) :: t.nodes⟩

/-- Goes from a place along components of a path and makes each directory that is missing, also
one that the next component leaves again. The second result is where this ends. -/
def makeWay (t : Tree) (place : Place) : List Octets → Tree × Place
  | [] => (t, place)
  | c :: r =>
    if c = Path.dotDot then t.makeWay (parent place) r
    else
      let next := place ++ [c]
      if (t.node? next).isSome then t.makeWay next r
      else (t.put next .directory).makeWay next r

/-- Makes a directory and those on the way to it. -/
def addDirectory (t : Tree) (path : Octets) : Tree :=
  (t.makeWay (start path) (Path.components path)).1

/-- Puts a file at a path and makes the directories on the way to it. -/
def addFile (t : Tree) (path content : Octets) : Tree :=
  let components := Path.components path
  match components.getLast? with
  | none => t
  | some name =>
    let (t, place) := t.makeWay (start path) components.dropLast
    t.put (place ++ [name]) (.file content)

def maxName : Nat := 255

def maxPath : Nat := 4095

/-- Goes from a directory to the node with a name in it. -/
def enter (t : Tree) (place : Place) (name : Octets) : Except ReadFault Place :=
  if name = Path.dot then .ok place
  else if name = Path.dotDot then .ok (parent place)
  else if maxName < name.length then .error .nameTooLong
  else if (t.node? (place ++ [name])).isSome then .ok (place ++ [name])
  else .error .notFound

/-- Follows names from a place; every name needs a directory to stand in. -/
def follow (t : Tree) (place : Place) : List Octets → Except ReadFault Place
  | [] => .ok place
  | name :: names =>
    match t.node? place with
    | some .directory =>
      match t.enter place name with
      | .error fault => .error fault
      | .ok next => t.follow next names
    | some (.file _) => .error .notADirectory
    | none => .error .notFound

/-- The names to follow for a path: a slash at its end asks for a directory. -/
def steps (path : Octets) : List Octets :=
  let names := (Path.segments path).filter (· != [])
  if path.getLast? = some Path.slash then names ++ [Path.dot] else names

/-- The content of the file at a path. -/
def readOctets (t : Tree) (path : Octets) : Except ReadFault Octets :=
  if path.contains 0 then .error .nulOctet
  else if maxPath < path.length then .error .nameTooLong
  else
    match t.follow (start path) (steps path) with
    | .error fault => .error fault
    | .ok place =>
      match t.node? place with
      | some (.file content) => .ok content
      | some .directory => .error .isADirectory
      | none => .error .notFound

def readText (t : Tree) (path : Octets) : Except ReadFault String :=
  match t.readOctets path with
  | .error fault => .error fault
  | .ok content =>
    match Text.decode? content with
    | some s => .ok s
    | none => .error .notUtf8

end Tree
end Implementors
