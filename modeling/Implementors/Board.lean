import Implementors.Event
import Implementors.Policy

/-! The board of a page, where fragments and the sink meet. Until a sink is bound, registries wait
in a buffer; from then on they go to the sink. The sink is bound once. A board knows its sink by a
handle and says in its outcome what is delivered to which handle. -/
namespace Implementors

inductive Binding (σ : Type)
  | waiting (pending : List Registry)
  | bound (sink : σ)
  deriving DecidableEq

structure Board (σ : Type) where
  binding : Binding σ := .waiting []
  policy : Policy := default
  deriving DecidableEq

/-- The state after an operation, its answer, and its effects in order. -/
structure Outcome (σ State Answer : Type) where
  state : State
  answer : Answer
  deliveries : List (σ × Registry) := []
  log : List Event := []

namespace Outcome

variable {σ State Answer : Type}

def mapState {Next : Type} (f : State → Next) (o : Outcome σ State Answer) :
    Outcome σ Next Answer :=
  ⟨f o.state, o.answer, o.deliveries, o.log⟩

def mapAnswer {Reply : Type} (f : Answer → Reply) (o : Outcome σ State Answer) :
    Outcome σ State Reply :=
  ⟨o.state, f o.answer, o.deliveries, o.log⟩

end Outcome

namespace Board

variable {σ : Type}

def withPolicy (p : Policy) : Board σ := { policy := p }

def isBound (b : Board σ) : Bool :=
  match b.binding with
  | .waiting _ => false
  | .bound _ => true

/-- Registries that wait for a sink, the oldest first. -/
def pending (b : Board σ) : List Registry :=
  match b.binding with
  | .waiting pending => pending
  | .bound _ => []

/-- An event about lost registries, if any are. -/
def lossOf (event : Nat → Event) : Nat → List Event
  | 0 => []
  | n + 1 => [event (n + 1)]

def register (b : Board σ) (r : Registry) : Outcome σ (Board σ) Handoff :=
  match b.binding with
  | .bound sink => { state := b, answer := .delivered, deliveries := [(sink, r)] }
  | .waiting pending =>
    match b.policy with
    | .lastWriteWins =>
      { state := { b with binding := .waiting [r] }
        answer := .buffered pending.length
        log := lossOf .overwritten pending.length }
    | .accumulate =>
      { state := { b with binding := .waiting (pending ++ [r]) }, answer := .buffered 0 }

/-- Registers a fragment's implementors and logs how they were handed on. -/
def load (b : Board σ) (f : Fragment) : Outcome σ (Board σ) Handoff :=
  let o := b.register f.implementors
  { o with log := o.log ++ [.loaded f.traitPath f.implementors.size o.answer] }

/-- A single slot keeps the newest of the registries that wait. -/
def setPolicy (b : Board σ) (p : Policy) : Outcome σ (Board σ) Unit :=
  match p, b.binding with
  | .lastWriteWins, .waiting pending =>
    let displaced := pending.length - 1
    { state := ⟨.waiting (pending.drop displaced), p⟩
      answer := ()
      log := lossOf .dropped displaced }
  | _, _ => { state := { b with policy := p }, answer := () }

/-- Takes everything that waits. -/
def drain (b : Board σ) : Outcome σ (Board σ) (List Registry) :=
  match b.binding with
  | .waiting pending => { state := { b with binding := .waiting [] }, answer := pending }
  | .bound _ => { state := b, answer := [] }

/-- Binds a sink and delivers what waits; gives the number of registries delivered. -/
def bind (b : Board σ) (sink : σ) : Outcome σ (Board σ) (Except Error Nat) :=
  match b.binding with
  | .bound _ => { state := b, answer := .error .sinkAlreadyBound }
  | .waiting pending =>
    { state := { b with binding := .bound sink }
      answer := .ok pending.length
      deliveries := pending.map fun r => (sink, r)
      log := [.sinkBound pending.length] }

/-- The operations on a board. -/
inductive Call (σ : Type)
  | register (r : Registry)
  | load (f : Fragment)
  | setPolicy (p : Policy)
  | drain
  | bind (sink : σ)

inductive Reply
  | done
  | handoff (h : Handoff)
  | drained (rs : List Registry)
  | bound (delivered : Nat)
  | refused (e : Error)

def Reply.ofBinding : Except Error Nat → Reply
  | .ok n => .bound n
  | .error e => .refused e

def step (b : Board σ) : Call σ → Outcome σ (Board σ) Reply
  | .register r => (b.register r).mapAnswer .handoff
  | .load f => (b.load f).mapAnswer .handoff
  | .setPolicy p => (b.setPolicy p).mapAnswer fun _ => .done
  | .drain => b.drain.mapAnswer .drained
  | .bind sink => (b.bind sink).mapAnswer .ofBinding

end Board
end Implementors
