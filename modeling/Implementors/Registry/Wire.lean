import Implementors.Registry
import Implementors.Descriptor.Wire

/-! Registries as JSON: an object from library names to lists of descriptors. A name that comes
again replaces its earlier list. -/
namespace Implementors.Registry

open Json

def writeList (layout : Layout) (depth : Nat) (list : List Descriptor) : List Char :=
  layout.list depth (Descriptor.write layout) list

/-- Entries as the members of an object, in their order. -/
def writeEntries (layout : Layout) (entries : List LibraryEntry) : List Char :=
  layout.object 0 (entries.map fun e => layout.member e.1 (writeList layout 1 e.2))

def write (layout : Layout) (r : Registry) : List Char := writeEntries layout r.entries

def listReader : Reader (List Descriptor) := .list Descriptor.reader

def readEntry (r : Registry) (name : String) : Reader Registry :=
  listReader.afterColon.map (r.set name)

def reader : Reader Registry := .object readEntry empty

def toJson (r : Registry) : String := String.ofList (r.write .compact)

def toPrettyJson (r : Registry) : String := String.ofList (r.write .pretty)

def ofJson (text : String) : Except Json.Error Registry := reader.readAll text.toList

end Implementors.Registry
