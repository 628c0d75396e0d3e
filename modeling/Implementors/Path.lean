import Implementors.Text.Utf8

/-! Paths as octets, their components between slashes, and joining names to a path. -/
namespace Implementors.Path

def slash : UInt8 := 0x2F

def dot : Octets := [0x2E]

def dotDot : Octets := [0x2E, 0x2E]

/-- What stands between the slashes; there is always one segment more than slashes. -/
def segments : Octets → List Octets
  | [] => [[]]
  | b :: r =>
    if b = slash then [] :: segments r
    else
      match segments r with
      | [] => [[b]]
      | s :: ss => (b :: s) :: ss

/-- The segments that name something; empty ones and single dots do not. -/
def components (path : Octets) : List Octets :=
  (segments path).filter fun s => s != [] && s != dot

def startsWithSlash (s : String) : Bool := s.toList.head? == some '/'

def endsWithSlash (s : String) : Bool := s.toList.getLast? == some '/'

/-- Extends a path by a name. A name that starts with a slash takes the place of the path. -/
def push (path name : String) : String :=
  if startsWithSlash name then name
  else if path.isEmpty || endsWithSlash path then path ++ name
  else path ++ "/" ++ name

end Implementors.Path
