import Implementors.Proofs.Board.Binding
import Implementors.Proofs.Session.Hosts

/-! When a viewer starts, in its first update, it binds the index that was installed by then, unless
the page has a sink already. From then on the index gets what comes in; an index that is not bound
by the first update gets nothing through the board. -/
namespace Implementors

namespace Session

open Board (Call)

/-- The board of the host, or the one that it would make. -/
def boardOrNew (s : Session) : Board Nat := s.host.board?.getD {}

/-- A call on a page is an operation on its board, or there is no board and nothing happens. -/
theorem callPage_board (labelOf : Nat → String) (p : Page Nat) (c : Call Nat) :
    (callPage labelOf p c).state.boardOrNew = (p.boardOrNew.step c).state ∧
        (callPage labelOf p c).deliveries = (p.boardOrNew.step c).deliveries ∨
      c.attempt = [] ∧ p.boardOrNew = {} ∧ (callPage labelOf p c).state = p ∧
        (callPage labelOf p c).deliveries = [] := by
  by_cases hc : c.isArrival = true
  · rw [callPage_arrival labelOf p hc]
    exact .inl ⟨rfl, rfl⟩
  · obtain ⟨_ | b⟩ := p
    · right
      cases c with
      | load f => exact absurd rfl hc
      | bind sink => exact absurd rfl hc
      | _ => exact ⟨rfl, rfl, rfl, rfl⟩
    · left
      cases c with
      | load f => exact absurd rfl hc
      | bind sink => exact absurd rfl hc
      | _ => exact ⟨rfl, rfl⟩

theorem callPage_dispatched (labelOf : Nat → String) (p : Page Nat) (c : Call Nat) :
    (callPage labelOf p c).state.boardOrNew.sink? =
        p.boardOrNew.sink?.or c.attempt.head? ∧
      (callPage labelOf p c).deliveries = p.boardOrNew.dispatched c.attempt c.registered := by
  rcases callPage_board labelOf p c with ⟨hs, hd⟩ | ⟨hc, hp, hs, hd⟩
  · rw [hs, hd]
    obtain ⟨hsink, hdel, -⟩ := Board.step_effects p.boardOrNew c
    exact ⟨hsink, hdel⟩
  · rw [hs, hd, hc, hp]
    exact ⟨rfl, rfl⟩

namespace Step

/-- The steps of a run in which this sink is not bound by hand, nor fed past the board. -/
inductive Spares (sink : Nat) : Step → Prop
  | call (c : Call Nat) (h : sink ∉ c.attempt) : Spares sink (.call c)
  | install (plugin : Plugin Nat) : Spares sink (.install plugin)
  | update : Spares sink .update

def isUpdate : Step → Bool
  | .update => true
  | _ => false

/-- The index that a step installs, if no other is installed. -/
def index? : Step → Option Nat
  | .install (.index sink) => some sink
  | _ => none

def registered : Step → List Registry
  | .call c => c.registered
  | _ => []

/-- The sinks that a step tries to bind. -/
def attempt (v : Viewer Nat) : Step → List Nat
  | .call c => c.attempt
  | .update => if v.isStarted then [] else v.index.toList
  | _ => []

end Step

def registered (steps : List Step) : List Registry := steps.flatMap Step.registered

/-- The index that a viewer has after some steps: the first that was installed, since it takes no
other. -/
def installed (steps : List Step) : Option Nat := steps.findSome? Step.index?

/-- What a step makes of a viewer. -/
structure StepsTo (v : Viewer Nat) (t : Step) (o : Outcome Nat (Viewer Nat) Reply) : Prop where
  sink? : o.state.page.boardOrNew.sink? = v.page.boardOrNew.sink?.or (t.attempt v).head?
  deliveries : o.deliveries = v.page.boardOrNew.dispatched (t.attempt v) t.registered
  index : o.state.index = v.index.or t.index?
  isStarted : o.state.isStarted = (v.isStarted || t.isUpdate)

theorem stepsTo_call (labelOf : Nat → String) (v : Viewer Nat) (c : Call Nat) :
    StepsTo v (.call c) (v.onPage (callPage labelOf · c)) := by
  obtain ⟨hsink, hdel⟩ := callPage_dispatched labelOf v.page c
  exact ⟨hsink, hdel, (Option.or_none).symm, (Bool.or_false _).symm⟩

theorem stepsTo_install (v : Viewer Nat) (plugin : Plugin Nat) :
    StepsTo v (.install plugin) ((v.install plugin).mapAnswer replyOfInstall) := by
  have hnone (b : Board Nat) : [] = b.dispatched [] [] := b.dispatched_nil.symm
  cases plugin with
  | policy p =>
    have hsink : ((v.page.board.getD (.withPolicy p)).setPolicy p).state.sink? =
        v.page.boardOrNew.sink? := by
      obtain ⟨hset, -⟩ := Board.step_effects (v.page.board.getD (.withPolicy p)) (.setPolicy p)
      refine hset.trans ?_
      obtain ⟨⟨_ | b⟩, _, _, _⟩ := v
      · rfl
      · exact Option.or_none
    rw [Viewer.install]
    split
    · exact ⟨Option.or_none.symm, hnone _, Option.or_none.symm, (Bool.or_false _).symm⟩
    · exact ⟨hsink.trans Option.or_none.symm, hnone _, Option.or_none.symm, (Bool.or_false _).symm⟩
  | index sink =>
    rw [Viewer.install]
    split
    · next h =>
      obtain ⟨old, ho⟩ := Option.isSome_iff_exists.mp h
      refine ⟨Option.or_none.symm, hnone _, ?_, (Bool.or_false _).symm⟩
      change v.index = v.index.or (some sink)
      rw [ho]
      rfl
    · next h =>
      have hi : v.index = none := Option.not_isSome_iff_eq_none.mp h
      refine ⟨Option.or_none.symm, hnone _, ?_, (Bool.or_false _).symm⟩
      change some sink = v.index.or (some sink)
      rw [hi]
      rfl

theorem stepsTo_update (v : Viewer Nat) :
    StepsTo v .update (v.update.mapAnswer fun _ => .done) := by
  have hnone (b : Board Nat) : [] = b.dispatched [] [] := b.dispatched_nil.symm
  obtain ⟨page, hasPolicy, index, isStarted⟩ := v
  cases isStarted with
  | true => exact ⟨Option.or_none.symm, hnone _, Option.or_none.symm, rfl⟩
  | false =>
    cases index with
    | none => exact ⟨Option.or_none.symm, hnone _, rfl, rfl⟩
    | some sink =>
      obtain ⟨hsink, hdel⟩ := callPage_dispatched (fun _ => Index.label) page (.bind sink)
      exact ⟨hsink, hdel, rfl, rfl⟩

/-- All that a step does to a session on a viewer. -/
theorem step_viewer {s : Session} {v : Viewer Nat} (hs : s.host = .viewer v) {sink : Nat}
    {t : Step} (ht : t.Spares sink) :
    ∃ o, (s.step t).1 = ⟨.viewer o.state, (s.deliver o.deliveries).sinks⟩ ∧ StepsTo v t o := by
  cases ht with
  | call c =>
    refine ⟨_, ?_, stepsTo_call s.label v c⟩
    rw [step, callHost, hs, absorb_fst]
    rfl
  | install plugin =>
    refine ⟨_, ?_, stepsTo_install v plugin⟩
    rw [step, hs, absorb_fst]
    rfl
  | update =>
    refine ⟨_, ?_, stepsTo_update v⟩
    rw [step, hs, absorb_fst]
    rfl

theorem boardOrNew_of_viewer {s : Session} {v : Viewer Nat} (hs : s.host = .viewer v) :
    s.boardOrNew = v.page.boardOrNew := by
  rw [boardOrNew, hs]
  rfl

/-- A run leaves the viewer with the first index that was installed, and started if there was an
update. -/
theorem run_viewer {s : Session} {v : Viewer Nat} (hs : s.host = .viewer v) {sink : Nat}
    {steps : List Step} (ht : ∀ t ∈ steps, t.Spares sink) :
    ∃ next : Viewer Nat, (s.run steps).host = .viewer next ∧
      next.index = v.index.or (installed steps) ∧
      next.isStarted = (v.isStarted || steps.any Step.isUpdate) := by
  induction steps generalizing s v with
  | nil => exact ⟨v, hs, Option.or_none.symm, (Bool.or_false _).symm⟩
  | cons t ts ih =>
    obtain ⟨hfirst, hrest⟩ := List.forall_mem_cons.mp ht
    obtain ⟨o, hstep, ho⟩ := step_viewer hs hfirst
    have hhost : (s.step t).1.host = .viewer o.state := congrArg Session.host hstep
    obtain ⟨next, hnext, hindex, hstarted⟩ := ih hhost hrest
    refine ⟨next, hnext, ?_, ?_⟩
    · have hcons : installed (t :: ts) = t.index?.or (installed ts) := by
        rw [installed, List.findSome?_cons]
        cases t.index? <;> rfl
      rw [hindex, ho.index, hcons, Option.or_assoc]
    · rw [hstarted, ho.isStarted, List.any_cons, Bool.or_assoc]

theorem step_received {s : Session} {v : Viewer Nat} (hs : s.host = .viewer v) {sink : Nat}
    {t : Step} (ht : t.Spares sink) :
    (s.step t).1.boardOrNew.sink? = s.boardOrNew.sink?.or (t.attempt v).head? ∧
      (s.step t).1.received sink = (s.received sink).map
        (· ++ Board.portion (s.boardOrNew.dispatched (t.attempt v) t.registered) sink) := by
  obtain ⟨o, hstep, ho⟩ := step_viewer hs ht
  have hreceived := received_deliver s o.deliveries sink
  rw [hstep, boardOrNew_of_viewer hs, ← ho.deliveries]
  exact ⟨ho.sink?, hreceived⟩

/-- A step that does not bind a sink gives it nothing. -/
theorem step_quiet {s : Session} {v : Viewer Nat} (hs : s.host = .viewer v) {sink : Nat} {t : Step}
    (ht : t.Spares sink) (hb : s.boardOrNew.sink? ≠ some sink)
    (ha : sink ∈ t.attempt v → s.boardOrNew.sink? ≠ none) :
    (s.step t).1.boardOrNew.sink? ≠ some sink ∧ (s.step t).1.received sink = s.received sink := by
  obtain ⟨hsink, hreceived⟩ := step_received hs ht
  constructor
  · rw [hsink]
    cases hk : s.boardOrNew.sink? with
    | some other =>
      rw [Option.some_or]
      exact hk ▸ hb
    | none =>
      rw [Option.none_or]
      intro hh
      exact ha (List.mem_of_head? hh) hk
  · rw [hreceived, Board.portion_dispatched_other hb ha]
    simp

/-- A bound sink stays bound and gets what comes in. -/
theorem step_served {s : Session} {v : Viewer Nat} (hs : s.host = .viewer v) {sink : Nat} {t : Step}
    (ht : t.Spares sink) (hb : s.boardOrNew.sink? = some sink) :
    (s.step t).1.boardOrNew.sink? = some sink ∧
      (s.step t).1.received sink = (s.received sink).map (· ++ t.registered) := by
  obtain ⟨hsink, hreceived⟩ := step_received hs ht
  rw [hsink, hreceived, Board.portion_dispatched_bound hb, hb]
  exact ⟨rfl, rfl⟩

theorem run_quiet {s : Session} {v : Viewer Nat} (hs : s.host = .viewer v) {sink : Nat}
    {steps : List Step} (ht : ∀ t ∈ steps, t.Spares sink)
    (hu : v.isStarted = true ∨ steps.any Step.isUpdate = false)
    (hb : s.boardOrNew.sink? ≠ some sink) :
    (s.run steps).boardOrNew.sink? ≠ some sink ∧
      (s.run steps).received sink = s.received sink := by
  induction steps generalizing s v with
  | nil => exact ⟨hb, rfl⟩
  | cons t ts ih =>
    obtain ⟨hfirst, hrest⟩ := List.forall_mem_cons.mp ht
    rw [List.any_cons, Bool.or_eq_false_iff] at hu
    have hattempt : sink ∉ t.attempt v := by
      cases hfirst with
      | call c hc => exact hc
      | install plugin => exact List.not_mem_nil
      | update =>
        have hstarted : v.isStarted = true := hu.resolve_right fun h => nomatch h.1
        rw [Step.attempt, if_pos hstarted]
        exact List.not_mem_nil
    obtain ⟨o, hstep, ho⟩ := step_viewer hs hfirst
    have hhost : (s.step t).1.host = .viewer o.state := congrArg Session.host hstep
    have hnext : o.state.isStarted = true ∨ ts.any Step.isUpdate = false := by
      rw [ho.isStarted]
      rcases hu with h | ⟨-, h⟩
      · exact .inl (h ▸ Bool.true_or _)
      · exact .inr h
    obtain ⟨hsink, hreceived⟩ := step_quiet hs hfirst hb fun h => absurd h hattempt
    obtain ⟨hlate, hsame⟩ := ih hhost hrest hnext hsink
    exact ⟨hlate, hsame.trans hreceived⟩

theorem run_served {s : Session} {v : Viewer Nat} (hs : s.host = .viewer v) {sink : Nat}
    {steps : List Step} (ht : ∀ t ∈ steps, t.Spares sink)
    (hb : s.boardOrNew.sink? = some sink) :
    (s.run steps).boardOrNew.sink? = some sink ∧
      (s.run steps).received sink = (s.received sink).map (· ++ registered steps) := by
  induction steps generalizing s v with
  | nil => exact ⟨hb, by simp [registered, run]⟩
  | cons t ts ih =>
    obtain ⟨hfirst, hrest⟩ := List.forall_mem_cons.mp ht
    obtain ⟨o, hstep, -⟩ := step_viewer hs hfirst
    have hhost : (s.step t).1.host = .viewer o.state := congrArg Session.host hstep
    obtain ⟨hsink, hreceived⟩ := step_served hs hfirst hb
    obtain ⟨hlate, hgained⟩ := ih hhost hrest hsink
    refine ⟨hlate, ?_⟩
    change ((s.step t).1.run ts).received sink =
      (s.received sink).map (· ++ (t.registered ++ registered ts))
    rw [hgained, hreceived, map_append_append]

/-- The update that starts a viewer binds its index if no sink is bound, and gives it what waits. -/
theorem step_start {s : Session} {v : Viewer Nat} (hs : s.host = .viewer v)
    (hv : v.isStarted = false) {sink : Nat} (hi : v.index = some sink)
    (hb : s.boardOrNew.sink? = none) :
    (s.step .update).1.boardOrNew.sink? = some sink ∧
      (s.step .update).1.received sink =
        (s.received sink).map (· ++ s.boardOrNew.pending) := by
  have hattempt : Step.update.attempt v = [sink] := by
    rw [Step.attempt, hv, hi]
    rfl
  have hspares : Step.update.Spares sink := .update
  obtain ⟨hsink, hreceived⟩ := step_received hs hspares
  rw [hattempt] at hsink hreceived
  rw [hsink, hreceived, Board.portion_dispatched_new hb, hb]
  exact ⟨rfl, rfl⟩

/-- An update of a viewer that runs already changes nothing. -/
theorem step_update_of_started {s : Session} {v : Viewer Nat} (hs : s.host = .viewer v)
    (hv : v.isStarted = true) : s.step .update = (s, .done, []) := by
  obtain ⟨host, sinks⟩ := s
  obtain rfl : host = .viewer v := hs
  have hupdate : v.update = { state := v, answer := () } := if_pos hv
  simp only [step, onViewer, hupdate]
  rfl

/-- A run from the first update on, in which the index is bound by this update or not at all. -/
theorem run_from_start {s : Session} {v : Viewer Nat} (hs : s.host = .viewer v)
    (hv : v.isStarted = false) {i : Nat} (hb : s.boardOrNew.sink? ≠ some i) {rest : List Step}
    (ht : ∀ t ∈ rest, t.Spares i) :
    let binds := v.index = some i ∧ s.boardOrNew.sink? = none
    let late := s.run (.update :: rest)
    (late.boardOrNew.sink? = some i ↔ binds) ∧
      (binds → late.received i =
        (s.received i).map (· ++ (s.boardOrNew.pending ++ registered rest))) ∧
      (¬ binds → late.received i = s.received i) := by
  intro binds late
  have hspares : Step.update.Spares i := .update
  obtain ⟨o, hstep, ho⟩ := step_viewer hs hspares
  have hhost : (s.step .update).1.host = .viewer o.state := congrArg Session.host hstep
  have hstarted : o.state.isStarted = true := by
    rw [ho.isStarted]
    exact Bool.or_true _
  by_cases hbinds : binds
  · obtain ⟨hindex, hnone⟩ := hbinds
    obtain ⟨hsink, hgot⟩ := step_start hs hv hindex hnone
    obtain ⟨hlate, hreceived⟩ := run_served hhost ht hsink
    refine ⟨⟨fun _ => ⟨hindex, hnone⟩, fun _ => hlate⟩, fun _ => ?_,
      fun h => absurd ⟨hindex, hnone⟩ h⟩
    change ((s.step .update).1.run rest).received i = _
    rw [hreceived, hgot, map_append_append]
  · have hquiet : i ∈ Step.update.attempt v → s.boardOrNew.sink? ≠ none := by
      intro hi hnone
      rw [Step.attempt, hv, if_neg Bool.false_ne_true] at hi
      exact hbinds ⟨Option.mem_toList.mp hi, hnone⟩
    obtain ⟨hsink, hsame⟩ := step_quiet hs hspares hb hquiet
    obtain ⟨hlate, hreceived⟩ := run_quiet hhost ht (.inl hstarted) hsink
    exact ⟨⟨fun h => absurd h hlate, fun h => absurd h hbinds⟩, fun h => absurd h hbinds,
      fun _ => hreceived.trans hsame⟩

/-- Behind an update, a further one changes nothing. -/
theorem step_update_again {s : Session} {v : Viewer Nat} (hs : s.host = .viewer v) {sink : Nat}
    {steps : List Step} (ht : ∀ t ∈ steps, t.Spares sink) (hu : .update ∈ steps) :
    (s.run steps).step .update = (s.run steps, .done, []) := by
  obtain ⟨next, hnext, -, hstarted⟩ := run_viewer hs ht
  apply step_update_of_started hnext
  rw [hstarted, List.any_eq_true.mpr ⟨.update, hu, rfl⟩]
  exact Bool.or_true _

theorem run_append (s : Session) (ts us : List Step) : s.run (ts ++ us) = (s.run ts).run us :=
  List.foldl_append

theorem no_update_before (steps : List Step) :
    (steps.takeWhile fun t => !t.isUpdate).any Step.isUpdate = false := by
  rw [List.any_eq_false]
  intro t hm hu
  have hkeep := List.all_eq_true.mp List.all_takeWhile t hm
  rw [hu] at hkeep
  exact Bool.false_ne_true hkeep

theorem first_update {steps rest : List Step} {t : Step}
    (h : (steps.dropWhile fun t => !t.isUpdate) = t :: rest) : t = .update := by
  have hhead := List.head?_dropWhile_not (fun t : Step => !t.isUpdate) steps
  rw [h] at hhead
  cases t with
  | update => rfl
  | _ => exact absurd hhead.symm Bool.false_ne_true

/-- In a run of a viewer in which an index is not bound by hand, it is bound exactly if it was
installed before the first update and that update found no sink bound. It then gets what waited
just before this update and all that comes in afterwards, in order, and otherwise nothing. Later
updates do nothing at all. -/
theorem index_bound_at_start (sinks : List Sink) (i : Nat) (steps : List Step)
    (ht : ∀ t ∈ steps, t.Spares i) :
    let start : Session := ⟨.viewer {}, sinks⟩
    let before := steps.takeWhile fun t => !t.isUpdate
    let after := steps.dropWhile fun t => !t.isUpdate
    let early := start.run before
    let late := start.run steps
    let binds := after ≠ [] ∧ installed before = some i ∧ early.boardOrNew.sink? = none
    (late.boardOrNew.sink? = some i ↔ binds) ∧
      (binds → late.received i =
        (start.received i).map (· ++ (early.boardOrNew.pending ++ registered after))) ∧
      (¬ binds → late.received i = start.received i) ∧
      ∀ earlier later, steps = earlier ++ .update :: later → .update ∈ earlier →
        (start.run earlier).step .update = (start.run earlier, .done, []) := by
  intro start before after early late binds
  have hsplit : before ++ after = steps := List.takeWhile_append_dropWhile
  obtain ⟨htb, hta⟩ := List.forall_mem_append.mp (hsplit ▸ ht)
  have hno : before.any Step.isUpdate = false := no_update_before steps
  have hfree : start.boardOrNew.sink? ≠ some i := nofun
  obtain ⟨v, hv, hindex, hstarted⟩ := run_viewer (s := start) rfl htb
  obtain ⟨hearly, hsame⟩ := run_quiet (s := start) rfl htb (.inr hno) hfree
  have hlate : late = early.run after := by
    change start.run steps = (start.run before).run after
    rw [← run_append, hsplit]
  have hagain : ∀ earlier later, steps = earlier ++ .update :: later → .update ∈ earlier →
      (start.run earlier).step .update = (start.run earlier, .done, []) := by
    intro earlier later he hu
    have hte : ∀ t ∈ earlier, t.Spares i := fun t hm => ht t (he ▸ List.mem_append_left _ hm)
    exact step_update_again (s := start) rfl hte hu
  cases ha : after with
  | nil =>
    have hbinds : ¬ binds := fun h => h.1 ha
    rw [ha] at hlate
    have hend : late = early := hlate
    rw [hend]
    exact ⟨⟨fun h => absurd h hearly, fun h => absurd h hbinds⟩, fun h => absurd h hbinds,
      fun _ => hsame, hagain⟩
  | cons t rest =>
    obtain rfl : t = .update := first_update ha
    rw [ha] at hlate hta
    have hnot : v.isStarted = false := by
      rw [hstarted, hno]
      rfl
    have hinstalled : v.index = installed before := hindex
    have hbinds : binds ↔ v.index = some i ∧ early.boardOrNew.sink? = none := by
      rw [hinstalled]
      exact ⟨fun h => h.2, fun h => ⟨ha ▸ List.cons_ne_nil _ _, h⟩⟩
    obtain ⟨hbound, hgot, hmissed⟩ :=
      run_from_start hv hnot hearly (List.forall_mem_cons.mp hta).2
    rw [hlate, ← hsame, hbinds]
    exact ⟨hbound, hgot, hmissed, hagain⟩

theorem index_bound_at_start_queue :
    let steps : List Step :=
      [.call (.load ⟨⟨[], "T"⟩, .empty⟩), .install (.policy .accumulate), .install (.index 0),
        .call (.load ⟨⟨["m"], "U"⟩, .ofList [("a", [])]⟩), .update, .install (.index 1),
        .call (.bind 1), .call (.register .empty), .update]
    let start : Session :=
      ⟨.viewer {}, [⟨Index.label, .index {}⟩, ⟨"other", .recorder []⟩]⟩
    (∀ t ∈ steps, t.Spares 0) ∧ (start.run steps).boardOrNew.sink? = some 0 ∧
      (start.run steps).received 0 = some [.empty, .ofList [("a", [])], .empty] := by
  intro steps start
  have ht : ∀ t ∈ steps, t.Spares 0 := by
    simp only [steps, List.forall_mem_cons, List.not_mem_nil, false_implies, implies_true, and_true]
    exact ⟨.call _ (by decide), .install _, .install _, .call _ (by decide), .update, .install _,
      .call _ (by decide), .call _ (by decide), .update⟩
  obtain ⟨hbound, hgot, -, -⟩ := index_bound_at_start start.sinks 0 steps ht
  have hsink : (start.run steps).boardOrNew.sink? = some 0 :=
    hbound.mpr ⟨List.cons_ne_nil _ _, rfl, rfl⟩
  exact ⟨ht, hsink, hgot (hbound.mp hsink)⟩

end Session
end Implementors
