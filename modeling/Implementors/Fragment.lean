import Implementors.Script
import Implementors.TraitPath
import Implementors.Tree

/-! Fragments: the implementors of one trait. -/
namespace Implementors

structure Fragment where
  traitPath : TraitPath
  implementors : Registry
  deriving DecidableEq

namespace Fragment

def ofScript (p : TraitPath) (source : String) : Except Error Fragment :=
  match Script.parse source with
  | .error e => .error e
  | .ok r => .ok ⟨p, r⟩

def toScript (f : Fragment) : String := Script.render f.implementors

/-- Reads a script of a documentation tree; its place says which trait it is about, and is looked
at before the tree is. -/
def read (t : Tree) (path : Octets) : Except Error Fragment :=
  match TraitPath.ofScriptPath path with
  | .error e => .error e
  | .ok p =>
    match t.readText path with
    | .error fault => .error (.unreadable fault)
    | .ok source => ofScript p source

end Fragment
end Implementors
