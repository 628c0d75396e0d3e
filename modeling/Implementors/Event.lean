import Implementors.Fragment

/-! What a hand-off leaves behind: its outcome, and the events that a page logs. -/
namespace Implementors

/-- Straight to the sink, or into the buffer, where `displaced` registries had to make room. -/
inductive Handoff
  | delivered
  | buffered (displaced : Nat)
  deriving DecidableEq, Repr

def Handoff.text : Handoff → String
  | delivered => "Delivered"
  | buffered displaced => "Buffered \x7b displaced: " ++ toString displaced ++ " \x7d"

inductive Level
  | debug
  | warn
  deriving DecidableEq, Repr

inductive Event
  | loaded (path : TraitPath) (libraries : Nat) (handoff : Handoff)
  | sinkBound (delivered : Nat)
  | overwritten (displaced : Nat)
  | dropped (displaced : Nat)
  | sinkIgnored (label : String)
  deriving DecidableEq, Repr

namespace Event

def level : Event → Level
  | loaded .. | sinkBound _ => .debug
  | _ => .warn

def message : Event → String
  | loaded .. => "loaded implementors fragment"
  | sinkBound _ => "implementor sink initialized"
  | overwritten _ =>
    "implementors registered before the sink was initialized were overwritten"
  | dropped _ => "dropping buffered implementors on policy change"
  | sinkIgnored label =>
    "ignoring `" ++ label ++ "`: an implementor sink is already initialized"

/-- The number of registries that an event reports as lost. -/
def displaced : Event → Option Nat
  | overwritten n | dropped n => some n
  | _ => none

end Event
end Implementors
