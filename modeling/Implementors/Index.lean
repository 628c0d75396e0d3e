import Implementors.Registry

/-! The index of a page: it keeps every registry that it receives and assembles the lists that the
page shows. A synthetic implementor is left out once one of its types has been noted; the types
before that one stay noted. -/
namespace Implementors

/-- A descriptor with the library that it stands for. -/
structure Listed where
  library : String
  descriptor : Descriptor
  deriving DecidableEq, Repr

structure Lists where
  implementors : List Listed := []
  synthetic : List Listed := []
  deriving DecidableEq, Repr

def Lists.isEmpty (l : Lists) : Bool := l.implementors.isEmpty && l.synthetic.isEmpty

structure Index where
  ownLibrary : Option String := none
  inlined : List String := []
  received : List Registry := []
  deriving DecidableEq

namespace Index

/-- The type name under which the index appears in messages. -/
def label : String := "doc_implementors::sink::ImplementorIndex"

def receive (i : Index) (r : Registry) : Index := { i with received := i.received ++ [r] }

/-- Types whose synthetic implementors the page already shows. -/
def inline (i : Index) (types : List String) : Index := { i with inlined := i.inlined ++ types }

def deliveries (i : Index) : Nat := i.received.length

/-- Everything in a registry but the implementors of the page's own library. -/
def candidatesIn (own : Option String) (r : Registry) : List Listed :=
  (r.entries.filter fun e => own != some e.1).flatMap fun e => e.2.map fun d => ⟨e.1, d⟩

def candidates (i : Index) : List Listed := i.received.flatMap (candidatesIn i.ownLibrary)

/-- Notes types up to the first that is noted already; says whether there was none. -/
def note (noted : List String) : List String → Bool × List String
  | [] => (true, noted)
  | t :: ts => if noted.contains t then (false, noted) else note (t :: noted) ts

def assemble (noted : List String) : List Listed → Lists
  | [] => {}
  | x :: xs =>
    if x.descriptor.synthetic then
      let (isNew, noted) := note noted x.descriptor.types
      let rest := assemble noted xs
      if isNew then { rest with synthetic := x :: rest.synthetic } else rest
    else
      let rest := assemble noted xs
      { rest with implementors := x :: rest.implementors }

def lists (i : Index) : Lists := assemble i.inlined i.candidates

end Index
end Implementors
