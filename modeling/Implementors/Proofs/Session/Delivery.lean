import Implementors.Session
import Implementors.Proofs.Board.History

/-! What reaches the sinks of a session: each gets the registries delivered to its number, in their
order. -/
namespace Implementors

theorem Sink.foldl_receive_index (label : String) (i : Index) (rs : List Registry) :
    rs.foldl Sink.receive ⟨label, .index i⟩ = ⟨label, .index (rs.foldl Index.receive i)⟩ := by
  induction rs generalizing i with
  | nil => rfl
  | cons r rs ih => exact ih (i.receive r)

theorem map_append_append (o : Option (List Registry)) (rs qs : List Registry) :
    (o.map (· ++ rs)).map (· ++ qs) = o.map (· ++ (rs ++ qs)) := by
  cases o with
  | none => rfl
  | some old => exact congrArg some (List.append_assoc old rs qs)

theorem Sink.received_foldl (s : Sink) (rs : List Registry) :
    (rs.foldl Sink.receive s).received = s.received.map (· ++ rs) := by
  induction rs generalizing s with
  | nil => simp
  | cons r rs ih =>
    have hone : (s.receive r).received = s.received.map (· ++ [r]) := by
      obtain ⟨label, state⟩ := s
      cases state <;> rfl
    rw [List.foldl_cons, ih, hone, map_append_append]
    rfl

namespace Session

open Board

/-- The registries that a sink keeps. -/
def received (s : Session) (sink : Nat) : Option (List Registry) :=
  s.sinks[sink]?.bind Sink.received

def run (s : Session) (steps : List Step) : Session := steps.foldl (fun s t => (s.step t).1) s

theorem deliver_append (s : Session) (ds es : List (Nat × Registry)) :
    s.deliver (ds ++ es) = (s.deliver ds).deliver es := List.foldl_append

theorem deliver_sinks (s : Session) (ds : List (Nat × Registry)) (sink : Nat) :
    (s.deliver ds).sinks[sink]? = s.sinks[sink]?.map ((portion ds sink).foldl Sink.receive) := by
  induction ds generalizing s with
  | nil => simp [deliver, portion]
  | cons d ds ih =>
    change ((s.modifySink d.1 (·.receive d.2)).deliver ds).sinks[sink]? = _
    rw [ih, modifySink, List.getElem?_modify]
    by_cases h : d.1 = sink
    · simp [portion, h, Function.comp_def]
    · simp [portion, h]

theorem received_deliver (s : Session) (ds : List (Nat × Registry)) (sink : Nat) :
    (s.deliver ds).received sink = (s.received sink).map (· ++ portion ds sink) := by
  rw [received, deliver_sinks, received]
  cases s.sinks[sink]? with
  | none => rfl
  | some k => exact Sink.received_foldl k _

/-- Sinks do not depend on the host that delivers to them. -/
theorem deliver_with_host (s : Session) (host : Host) (ds : List (Nat × Registry)) :
    ({ s with host := host }).deliver ds = ⟨host, (s.deliver ds).sinks⟩ := by
  induction ds generalizing s with
  | nil => rfl
  | cons d ds ih => exact ih (s.modifySink d.1 (·.receive d.2))

theorem absorb_fst (s : Session) (o : Outcome Nat Host Reply) :
    (s.absorb o).1 = ⟨o.state, (s.deliver o.deliveries).sinks⟩ :=
  deliver_with_host s o.state o.deliveries

/-- A run of calls on a board is its run, with its deliveries made to the sinks. -/
theorem run_calls (b : Board Nat) (sinks : List Sink) (calls : List (Call Nat)) :
    run ⟨.board b, sinks⟩ (calls.map .call) =
      ⟨.board (b.run calls), (deliver ⟨.board b, sinks⟩ (deliveries (b.acts calls))).sinks⟩ := by
  induction calls generalizing b sinks with
  | nil => rfl
  | cons c cs ih =>
    let start : Session := ⟨.board b, sinks⟩
    let next := start.deliver (b.step c).deliveries
    have hnext : deliver ⟨.board (b.step c).state, sinks⟩ (b.step c).deliveries =
        ⟨.board (b.step c).state, next.sinks⟩ :=
      deliver_with_host start (.board (b.step c).state) (b.step c).deliveries
    have hrest := deliver_with_host next (.board (b.step c).state)
      (deliveries ((b.step c).state.acts cs))
    change run (deliver ⟨.board (b.step c).state, sinks⟩ (b.step c).deliveries) (cs.map .call) =
      ⟨_, (start.deliver ((b.step c).deliveries ++ _)).sinks⟩
    rw [hnext, ih, hrest, deliver_append]
    rfl

theorem received_run_calls (b : Board Nat) (sinks : List Sink) (calls : List (Call Nat))
    (sink : Nat) :
    (run ⟨.board b, sinks⟩ (calls.map .call)).received sink =
      (received ⟨.board b, sinks⟩ sink).map (· ++ Board.received (b.acts calls) sink) := by
  rw [run_calls]
  exact received_deliver ⟨.board b, sinks⟩ (deliveries (b.acts calls)) sink

/-- An index among the sinks gets what is delivered to its number. -/
theorem run_calls_index (b : Board Nat) (sinks : List Sink) (calls : List (Call Nat))
    {sink : Nat} {label : String} {i : Index}
    (hs : sinks[sink]? = some ⟨label, .index i⟩) :
    (run ⟨.board b, sinks⟩ (calls.map .call)).lists sink =
      .lists ((Board.received (b.acts calls) sink).foldl Index.receive i).lists := by
  have hk : (run ⟨.board b, sinks⟩ (calls.map .call)).sinks[sink]? =
      some ⟨label, .index ((Board.received (b.acts calls) sink).foldl Index.receive i)⟩ := by
    rw [run_calls, deliver_sinks, hs, Option.map_some, Sink.foldl_receive_index]
    rfl
  rw [lists, hk]
  rfl

end Session
end Implementors
