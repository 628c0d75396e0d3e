/-! Descriptors of implementors. -/
namespace Implementors

/-- One implementor of a documented trait: its rendered signature, whether it was synthesised
rather than written out, and the types that it mentions. -/
structure Descriptor where
  text : String
  synthetic : Bool := false
  types : List String := []
  deriving DecidableEq, Repr

end Implementors
