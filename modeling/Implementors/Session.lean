import Implementors.Viewer

/-! Sessions: a host for a board, sinks that are shared by their numbers, and the steps that are
taken on them. -/
namespace Implementors

/-- What a sink does with the registries that it gets. -/
inductive SinkState
  | recorder (received : List Registry)
  | index (i : Index)
  | counter (count : Nat)
  | discard
  deriving DecidableEq

/-- A sink, with the name that warnings give to it. -/
structure Sink where
  label : String
  state : SinkState
  deriving DecidableEq

namespace Sink

def receive (s : Sink) (r : Registry) : Sink :=
  let state : SinkState :=
    match s.state with
    | .recorder received => .recorder (received ++ [r])
    | .index i => .index (i.receive r)
    | .counter n => .counter (n + 1)
    | .discard => .discard
  { s with state := state }

/-- How many registries a sink got, if it counts them. -/
def deliveries (s : Sink) : Option Nat :=
  match s.state with
  | .recorder received => some received.length
  | .index i => some i.deliveries
  | .counter n => some n
  | .discard => none

/-- The registries that a sink got, if it keeps them. -/
def received (s : Sink) : Option (List Registry) :=
  match s.state with
  | .recorder received => some received
  | .index i => some i.received
  | _ => none

def index? (s : Sink) : Option Index :=
  match s.state with
  | .index i => some i
  | _ => none

def inline (s : Sink) (types : List String) : Sink :=
  match s.state with
  | .index i => { s with state := .index (i.inline types) }
  | _ => s

end Sink

/-- Where the board of a session lives. -/
inductive Host
  | board (b : Board Nat)
  | page (p : Page Nat)
  | viewer (v : Viewer Nat)
  deriving DecidableEq

def Host.board? : Host → Option (Board Nat)
  | board b => some b
  | page p => p.board
  | viewer v => v.page.board

structure Session where
  host : Host
  sinks : List Sink
  deriving DecidableEq

namespace Session

inductive Step
  | call (c : Board.Call Nat)
  | loadScript (path : TraitPath) (source : String)
  | place (policy : Option Policy)
  | remove
  | inspect
  | install (plugin : Plugin Nat)
  | update
  | feed (sink : Nat) (r : Registry)
  | lists (sink : Nat)
  | inline (sink : Nat) (types : List String)

inductive Reply
  | done
  | board (reply : Board.Reply)
  | refused (e : Error)
  | removed (wasThere : Bool)
  | inspected (b : Board Nat)
  | lists (l : Lists)
  | noBoard
  | failed (fault : PageFault)
  | unsupported

def label (s : Session) (sink : Nat) : String := (s.sinks[sink]?.map Sink.label).getD ""

def modifySink (s : Session) (sink : Nat) (f : Sink → Sink) : Session :=
  { s with sinks := s.sinks.modify sink f }

def deliver (s : Session) (deliveries : List (Nat × Registry)) : Session :=
  deliveries.foldl (fun s d => s.modifySink d.1 (·.receive d.2)) s

/-- A fragment or a sink brings a page its board; all other operations are on the board itself. -/
def callPage (labelOf : Nat → String) (p : Page Nat) (c : Board.Call Nat) :
    Outcome Nat (Page Nat) Reply :=
  match c with
  | .load f => (p.load f).mapAnswer fun _ => .done
  | .bind sink => (p.bind sink (labelOf sink)).mapAnswer fun _ => .done
  | c => (p.onBoard (·.step c)).mapAnswer fun
    | none => .noBoard
    | some reply => .board reply

def callHost (s : Session) (c : Board.Call Nat) : Outcome Nat Host Reply :=
  match s.host with
  | .board b => ((b.step c).mapState .board).mapAnswer .board
  | .page p => (callPage s.label p c).mapState .page
  | .viewer v => (v.onPage (callPage s.label · c)).mapState .viewer

def placeBoard (b : Board Nat) : Host → Host
  | .board _ => .board b
  | .page p => .page (p.place b)
  | .viewer v => .viewer { v with page := v.page.place b }

def removeBoard : Host → Outcome Nat Host Reply
  | .board b => { state := .board b, answer := .unsupported }
  | .page p => (p.remove.mapState .page).mapAnswer .removed
  | .viewer v => ((v.onPage Page.remove).mapState .viewer).mapAnswer .removed

def inspect (host : Host) : Reply :=
  let page : Page Nat := ⟨host.board?⟩
  match page.getBoard with
  | .ok b => .inspected b
  | .error fault => .failed fault

def replyOfInstall : Except PageFault Unit → Reply
  | .ok _ => .done
  | .error fault => .failed fault

def onViewer (host : Host) (f : Viewer Nat → Outcome Nat (Viewer Nat) Reply) :
    Outcome Nat Host Reply :=
  match host with
  | .viewer v => (f v).mapState .viewer
  | host => { state := host, answer := .unsupported }

/-- The effects of an operation on the host reach the sinks. -/
def absorb (s : Session) (o : Outcome Nat Host Reply) : Session × Reply × List Event :=
  ({ s with host := o.state }.deliver o.deliveries, o.answer, o.log)

def lists (s : Session) (sink : Nat) : Reply :=
  match s.sinks[sink]?.bind Sink.index? with
  | some i => .lists i.lists
  | none => .unsupported

def step (s : Session) : Step → Session × Reply × List Event
  | .call c => s.absorb (s.callHost c)
  | .loadScript path source =>
    match Fragment.ofScript path source with
    | .error e => (s, .refused e, [])
    | .ok f => s.absorb (s.callHost (.load f))
  | .place policy =>
    ({ s with host := placeBoard { policy := policy.getD default } s.host }, .done, [])
  | .remove => s.absorb (removeBoard s.host)
  | .inspect => (s, inspect s.host, [])
  | .install plugin =>
    s.absorb (onViewer s.host fun v => (v.install plugin).mapAnswer replyOfInstall)
  | .update => s.absorb (onViewer s.host fun v => v.update.mapAnswer fun _ => .done)
  | .feed sink r => (s.modifySink sink (·.receive r), .done, [])
  | .lists sink => (s, s.lists sink, [])
  | .inline sink types => (s.modifySink sink (·.inline types), .done, [])

end Session
end Implementors
