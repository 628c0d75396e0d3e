import Implementors.Proofs.Session.Delivery

/-! Hosts of a board. Fragments and sinks that come to a page or to a viewer do there what they do
on a bare board. The host makes its board when the first of them comes, and where a bare board
refuses a sink, it warns and goes on. -/
namespace Implementors

namespace Board

variable {σ : Type}

/-- The calls for which a host makes a board: a fragment comes, or a sink. -/
def Call.isArrival : Call σ → Bool
  | .load _ | .bind _ => true
  | .register _ | .setPolicy _ | .drain => false

/-- What a host says of an operation besides the board: it names a sink that is refused. -/
def Act.warnings (labelOf : σ → String) (a : Act σ) : List Event :=
  match a.call, a.outcome.answer with
  | .bind sink, .refused _ => [.sinkIgnored (labelOf sink)]
  | _, _ => []

end Board

namespace Session

open Board

/-- The events of a run, step by step. -/
def logs (s : Session) : List Step → List (List Event)
  | [] => []
  | t :: ts => (s.step t).2.2 :: logs (s.step t).1 ts

theorem label_deliver (s : Session) (ds : List (Nat × Registry)) :
    (s.deliver ds).label = s.label := by
  funext sink
  have hlabel (rs : List Registry) (k : Sink) : (rs.foldl Sink.receive k).label = k.label := by
    induction rs generalizing k with
    | nil => rfl
    | cons r rs ih => exact ih (k.receive r)
  rw [label, label, deliver_sinks, Option.map_map]
  congr 2
  funext k
  exact hlabel _ k

/-- The page in a host takes the calls on the host. -/
def Hosts (wrap : Page Nat → Host) : Prop :=
  ∀ p sinks c, callHost ⟨wrap p, sinks⟩ c =
    (callPage (label ⟨wrap p, sinks⟩) p c).mapState wrap

theorem hosts_page : Hosts .page := fun _ _ _ => rfl

theorem hosts_viewer (v : Viewer Nat) : Hosts fun p => .viewer { v with page := p } :=
  fun _ _ _ => rfl

/-- On a page, an arrival is an operation on the page's board, or on a new one. -/
theorem callPage_arrival (labelOf : Nat → String) (p : Page Nat) {c : Call Nat}
    (hc : c.isArrival = true) :
    callPage labelOf p c =
      { state := ⟨some (p.boardOrNew.step c).state⟩
        answer := .done
        deliveries := (p.boardOrNew.step c).deliveries
        log := (p.boardOrNew.step c).log ++ (p.boardOrNew.act c).warnings labelOf } := by
  cases c with
  | register r => exact absurd hc Bool.false_ne_true
  | setPolicy p => exact absurd hc Bool.false_ne_true
  | drain => exact absurd hc Bool.false_ne_true
  | load f =>
    have hnone : (p.boardOrNew.act (.load f)).warnings labelOf = [] := rfl
    rw [hnone, List.append_nil]
    rfl
  | bind sink =>
    simp only [callPage, Page.bind, Board.step, Board.bind, act, Act.warnings]
    cases p.boardOrNew.binding <;> rfl

theorem step_bare (b : Board Nat) (sinks : List Sink) (c : Call Nat) :
    (step ⟨.board b, sinks⟩ (.call c)).1 =
      ⟨.board (b.step c).state, (deliver ⟨.board b, sinks⟩ (b.step c).deliveries).sinks⟩ :=
  absorb_fst _ _

theorem step_arrival {wrap : Page Nat → Host} (hw : Hosts wrap) (p : Page Nat) (sinks : List Sink)
    {c : Call Nat} (hc : c.isArrival = true) :
    let o := p.boardOrNew.step c
    step ⟨wrap p, sinks⟩ (.call c) =
      (⟨wrap ⟨some o.state⟩, (deliver ⟨.board p.boardOrNew, sinks⟩ o.deliveries).sinks⟩, .done,
        o.log ++ (p.boardOrNew.act c).warnings (label ⟨wrap p, sinks⟩)) := by
  intro o
  let bare : Session := ⟨.board p.boardOrNew, sinks⟩
  have hsinks : deliver ⟨wrap ⟨some o.state⟩, sinks⟩ o.deliveries =
      ⟨wrap ⟨some o.state⟩, (bare.deliver o.deliveries).sinks⟩ := deliver_with_host bare _ _
  rw [step, hw, callPage_arrival _ _ hc, absorb, Outcome.mapState]
  exact congrArg (·, _, _) hsinks

/-- The page after some arrivals has a board as soon as there was one. -/
def pageAfter (p : Page Nat) (calls : List (Call Nat)) : Page Nat :=
  if calls.isEmpty then p else ⟨some (p.boardOrNew.run calls)⟩

theorem pageAfter_some (b : Board Nat) (calls : List (Call Nat)) :
    pageAfter ⟨some b⟩ calls = ⟨some (b.run calls)⟩ := by
  cases calls <;> rfl

/-- A run of arrivals in a host is the run on its bare board, but for the warnings. -/
theorem run_arrivals {wrap : Page Nat → Host} (hw : Hosts wrap) (p : Page Nat) (sinks : List Sink)
    {calls : List (Call Nat)} (hc : ∀ c ∈ calls, c.isArrival = true) :
    run ⟨wrap p, sinks⟩ (calls.map .call) =
        ⟨wrap (pageAfter p calls), (run ⟨.board p.boardOrNew, sinks⟩ (calls.map .call)).sinks⟩ ∧
      logs ⟨wrap p, sinks⟩ (calls.map .call) = (p.boardOrNew.acts calls).map fun a =>
        a.outcome.log ++ a.warnings (label ⟨wrap p, sinks⟩) := by
  induction calls generalizing p sinks with
  | nil => exact ⟨rfl, rfl⟩
  | cons c cs ih =>
    obtain ⟨hfirst, hrest⟩ := List.forall_mem_cons.mp hc
    let bare : Session := ⟨.board p.boardOrNew, sinks⟩
    let o := p.boardOrNew.step c
    let filled := (bare.deliver o.deliveries).sinks
    have hstep := step_arrival hw p sinks hfirst
    have hbare : (bare.step (.call c)).1 = ⟨.board o.state, filled⟩ := step_bare _ _ c
    have hlabel : label ⟨wrap ⟨some o.state⟩, filled⟩ = label ⟨wrap p, sinks⟩ :=
      label_deliver bare o.deliveries
    obtain ⟨hrun, hlogs⟩ := ih ⟨some o.state⟩ filled hrest
    constructor
    · change run (step ⟨wrap p, sinks⟩ (.call c)).1 (cs.map .call) =
        ⟨_, (run (bare.step (.call c)).1 (cs.map .call)).sinks⟩
      rw [hstep, hbare, hrun, pageAfter_some]
      rfl
    · change (step ⟨wrap p, sinks⟩ (.call c)).2.2 ::
        logs (step ⟨wrap p, sinks⟩ (.call c)).1 (cs.map .call) = _
      rw [hstep, hlogs, hlabel]
      rfl

theorem logs_board (b : Board Nat) (sinks : List Sink) (calls : List (Call Nat)) :
    logs ⟨.board b, sinks⟩ (calls.map .call) = (b.acts calls).map fun a => a.outcome.log := by
  induction calls generalizing b sinks with
  | nil => rfl
  | cons c cs ih =>
    change (b.step c).log :: logs (step ⟨.board b, sinks⟩ (.call c)).1 (cs.map .call) = _
    rw [step_bare, ih]
    rfl

/-- Fragments and sinks that come to a page without a board, or to a viewer without one, leave it
with the board, fill the sinks and are logged as on one bare board. There is no board only if
nothing came, and a refused sink is only warned of. -/
theorem hosts_simulate_board (v : Viewer Nat) (sinks : List Sink) (calls : List (Call Nat))
    (hc : ∀ c ∈ calls, c.isArrival = true) :
    let steps := calls.map Step.call
    let bare : Session := ⟨.board {}, sinks⟩
    let page : Session := ⟨.page {}, sinks⟩
    let viewer : Session := ⟨.viewer { v with page := {} }, sinks⟩
    let b : Board Nat := {}
    let left : Page Nat := ⟨if calls.isEmpty then none else some (b.run calls)⟩
    (bare.run steps).host = .board (b.run calls) ∧
      page.run steps = ⟨.page left, (bare.run steps).sinks⟩ ∧
      viewer.run steps = ⟨.viewer { v with page := left }, (bare.run steps).sinks⟩ ∧
      bare.logs steps = (b.acts calls).map (fun a => a.outcome.log) ∧
      page.logs steps =
        (b.acts calls).map (fun a => a.outcome.log ++ a.warnings bare.label) ∧
      viewer.logs steps = page.logs steps := by
  intro steps bare page viewer b left
  have hleft : pageAfter {} calls = left := by
    cases calls <;> rfl
  have hbare : (bare.run steps).host = .board (b.run calls) :=
    congrArg Session.host (run_calls b sinks calls)
  obtain ⟨hpage, hpageLogs⟩ := run_arrivals hosts_page {} sinks hc
  obtain ⟨hviewer, hviewerLogs⟩ := run_arrivals (hosts_viewer v) {} sinks hc
  rw [hleft] at hpage hviewer
  exact ⟨hbare, hpage, hviewer, logs_board b sinks calls, hpageLogs,
    hviewerLogs.trans hpageLogs.symm⟩

theorem hosts_simulate_board_two_sinks :
    let calls : List (Call Nat) :=
      [.load ⟨⟨[], "T"⟩, .empty⟩, .bind 1, .bind 0, .load ⟨⟨["m"], "U"⟩, .ofList [("a", [])]⟩]
    let sinks : List Sink := [⟨"first", .counter 0⟩, ⟨"second", .recorder []⟩]
    let page : Session := ⟨.page {}, sinks⟩
    (∀ c ∈ calls, c.isArrival = true) ∧
      (page.run (calls.map .call)).sinks =
        [⟨"first", .counter 0⟩, ⟨"second", .recorder [.empty, .ofList [("a", [])]]⟩] ∧
      page.logs (calls.map .call) =
        [[.loaded ⟨[], "T"⟩ 0 (.buffered 0)], [.sinkBound 1], [.sinkIgnored "first"],
          [.loaded ⟨["m"], "U"⟩ 1 .delivered]] := by
  intro calls sinks page
  have hc : ∀ c ∈ calls, c.isArrival = true := by decide
  obtain ⟨-, hpage, -, -, hlogs, -⟩ := hosts_simulate_board {} sinks calls hc
  exact ⟨hc, congrArg Session.sinks hpage, hlogs⟩

end Session
end Implementors
