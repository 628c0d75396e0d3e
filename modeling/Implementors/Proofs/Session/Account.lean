import Implementors.Proofs.Session.Growth
import Implementors.Proofs.Session.Startup
import Mathlib.Algebra.GroupWithZero.Nat
import Mathlib.Data.List.Forall2

/-! The log of a page is a full account of it. Each fragment is told of once, each delivery is
counted where it happens, and what makes room for others is counted in a warning. -/
namespace Implementors

namespace Event

/-- The trait path and the number of libraries of a fragment that was loaded. -/
def loaded? : Event → Option (TraitPath × Nat)
  | loaded path libraries _ => some (path, libraries)
  | _ => none

/-- The number of registries that an event reports as delivered. -/
def delivered : Event → Nat
  | loaded _ _ .delivered => 1
  | sinkBound n => n
  | _ => 0

def isBinding : Event → Bool
  | sinkBound _ => true
  | _ => false

end Event

def deliveredIn (log : List Event) : Nat := (log.map Event.delivered).sum

def displacedIn (log : List Event) : Nat := (log.filterMap Event.displaced).sum

def bindingsIn (log : List Event) : Nat := log.countP Event.isBinding

theorem deliveredIn_append (log more : List Event) :
    deliveredIn (log ++ more) = deliveredIn log + deliveredIn more := by
  rw [deliveredIn, List.map_append, List.sum_append]
  rfl

theorem displacedIn_append (log more : List Event) :
    displacedIn (log ++ more) = displacedIn log + displacedIn more := by
  rw [displacedIn, List.filterMap_append, List.sum_append]
  rfl

theorem bindingsIn_append (log more : List Event) :
    bindingsIn (log ++ more) = bindingsIn log + bindingsIn more := List.countP_append

namespace Board

variable {σ : Type}

namespace Call

/-- A registry that comes without a fragment is not told of. -/
def isBare : Call σ → Bool
  | .register _ => true
  | _ => false

def fragments : Call σ → List Fragment
  | .load f => [f]
  | _ => []

end Call

def fragments (calls : List (Call σ)) : List Fragment := calls.flatMap Call.fragments

theorem registered_length {c : Call σ} (hc : c.isBare = false) :
    c.registered.length = c.fragments.length := by
  cases c with
  | register r => exact absurd hc nofun
  | _ => rfl

/-- What the log may tell of a call. A warning of what a load overwrites stands right before the
load's own event, which tells the same number. -/
inductive Told : Call σ → List Event → Prop
  | load (f : Fragment) (h : Handoff) :
      Told (.load f) (lossOf .overwritten h.displaced ++
        [.loaded f.traitPath f.implementors.size h])
  | setPolicy (p : Policy) (n : Nat) : Told (.setPolicy p) (lossOf .dropped n)
  | drain : Told .drain []
  | bound (sink : σ) (n : Nat) : Told (.bind sink) [.sinkBound n]
  | ignored (sink : σ) (label : String) : Told (.bind sink) [.sinkIgnored label]

/-- Events that tell of `n` lost registries and of nothing else. -/
structure TellsLoss (n : Nat) (log : List Event) : Prop where
  loaded : log.filterMap Event.loaded? = []
  delivered : deliveredIn log = 0
  displaced : displacedIn log = n
  displaced_pos : ∀ m ∈ log.filterMap Event.displaced, 0 < m
  bindings : bindingsIn log = 0

theorem tellsLoss_nil : TellsLoss 0 [] := ⟨rfl, rfl, rfl, nofun, rfl⟩

theorem tellsLoss_lossOf {event : Nat → Event} (h : event = .overwritten ∨ event = .dropped)
    (n : Nat) : TellsLoss n (lossOf event n) := by
  cases n with
  | zero => exact tellsLoss_nil
  | succ n =>
    have hpos : ∀ m ∈ [n + 1], 0 < m := List.forall_mem_singleton.mpr n.succ_pos
    rcases h with rfl | rfl <;> exact ⟨rfl, rfl, rfl, hpos, rfl⟩

namespace Told

variable {c : Call σ} {log : List Event}

theorem loaded_eq (h : Told c log) :
    log.filterMap Event.loaded? = c.fragments.map fun f => (f.traitPath, f.implementors.size) := by
  cases h with
  | load f h =>
    rw [List.filterMap_append, (tellsLoss_lossOf (.inl rfl) h.displaced).loaded]
    rfl
  | setPolicy p n => exact (tellsLoss_lossOf (.inr rfl) n).loaded
  | _ => rfl

theorem displaced_pos (h : Told c log) : ∀ n ∈ log.filterMap Event.displaced, 0 < n := by
  cases h with
  | load f h =>
    intro n hn
    rw [List.filterMap_append] at hn
    have hloss := (List.mem_append.mp hn).resolve_right List.not_mem_nil
    exact (tellsLoss_lossOf (.inl rfl) h.displaced).displaced_pos n hloss
  | setPolicy p n => exact (tellsLoss_lossOf (.inr rfl) n).displaced_pos
  | _ => exact nofun

theorem bindings_eq_zero (h : Told c log) (hc : c.attempt = []) : bindingsIn log = 0 := by
  cases h with
  | load f h =>
    rw [bindingsIn_append, (tellsLoss_lossOf (.inl rfl) h.displaced).bindings]
    rfl
  | setPolicy p n => exact (tellsLoss_lossOf (.inr rfl) n).bindings
  | drain => rfl
  | bound sink n => exact absurd hc (List.cons_ne_nil sink [])
  | ignored sink label => exact absurd hc (List.cons_ne_nil sink [])

end Told

theorem loaded_of_told {calls : List (Call σ)} {logs : List (List Event)}
    (h : List.Forall₂ Told calls logs) :
    logs.flatten.filterMap Event.loaded? =
      (fragments calls).map fun f => (f.traitPath, f.implementors.size) := by
  induction h with
  | nil => rfl
  | cons hc _ ih =>
    rw [List.flatten_cons, List.filterMap_append, hc.loaded_eq, ih, ← List.map_append]
    rfl

theorem displaced_pos_of_told {calls : List (Call σ)} {logs : List (List Event)}
    (h : List.Forall₂ Told calls logs) : ∀ n ∈ logs.flatten.filterMap Event.displaced, 0 < n := by
  induction h with
  | nil => exact nofun
  | cons hc _ ih =>
    rw [List.flatten_cons, List.filterMap_append]
    exact List.forall_mem_append.mpr ⟨hc.displaced_pos, ih⟩

theorem register_told (b : Board σ) (r : Registry) (path : TraitPath) (libraries : Nat) :
    (b.register r).log = lossOf .overwritten (b.register r).answer.displaced ∧
      (b.register r).deliveries.length =
        (Event.loaded path libraries (b.register r).answer).delivered := by
  obtain ⟨rs | sink, policy⟩ := b
  · cases policy <;> exact ⟨rfl, rfl⟩
  · exact ⟨rfl, rfl⟩

theorem setPolicy_told (b : Board σ) (p : Policy) :
    (b.step (.setPolicy p)).log = lossOf .dropped (b.act (.setPolicy p)).lossCount := by
  rw [act_setPolicy_dropped]
  obtain ⟨rs | sink, policy⟩ := b
  · cases p <;> rfl
  · cases p <;> rfl

theorem drain_told (b : Board σ) : (b.step .drain).log = [] := by
  obtain ⟨rs | sink, policy⟩ := b <;> rfl

theorem warnings_of_no_attempt (labelOf : σ → String) (b : Board σ) {c : Call σ}
    (hc : c.attempt = []) : (b.act c).warnings labelOf = [] := by
  cases c with
  | bind sink => exact absurd hc (List.cons_ne_nil sink [])
  | _ => rfl

/-- With the warnings of its host, an operation is told of as it should be. -/
theorem step_told (labelOf : σ → String) (b : Board σ) {c : Call σ} (hc : c.isBare = false) :
    Told c ((b.step c).log ++ (b.act c).warnings labelOf) := by
  cases c with
  | register r => exact absurd hc nofun
  | load f =>
    obtain ⟨hlog, -⟩ := b.register_told f.implementors f.traitPath f.implementors.size
    rw [warnings_of_no_attempt labelOf b rfl, List.append_nil, step, load, Outcome.mapAnswer, hlog]
    exact .load f _
  | setPolicy p =>
    rw [warnings_of_no_attempt labelOf b rfl, List.append_nil, setPolicy_told]
    exact .setPolicy p _
  | drain =>
    rw [warnings_of_no_attempt labelOf b rfl, List.append_nil, drain_told]
    exact .drain
  | bind sink =>
    obtain ⟨rs | other, policy⟩ := b
    · exact .bound sink rs.length
    · exact .ignored sink (labelOf sink)

/-- The log of an operation counts what it delivers and what it loses. -/
theorem step_counts (b : Board σ) {c : Call σ} (hc : c.isBare = false) :
    deliveredIn (b.step c).log = (b.step c).deliveries.length ∧
      displacedIn (b.step c).log = (b.act c).lossCount := by
  cases c with
  | register r => exact absurd hc nofun
  | load f =>
    obtain ⟨hlog, hdel⟩ := b.register_told f.implementors f.traitPath f.implementors.size
    have hloss := tellsLoss_lossOf (.inl rfl) (b.register f.implementors).answer.displaced
    rw [step, load, Outcome.mapAnswer, hlog, deliveredIn_append, displacedIn_append,
      hloss.delivered, hloss.displaced, hdel]
    exact ⟨Nat.zero_add _, rfl⟩
  | setPolicy p =>
    have hloss := tellsLoss_lossOf (.inr rfl) (b.act (.setPolicy p)).lossCount
    obtain ⟨hdel, -⟩ := setPolicy_flow b p
    rw [setPolicy_told, hloss.delivered, hloss.displaced]
    exact ⟨(congrArg List.length hdel).symm, rfl⟩
  | drain =>
    obtain ⟨hdel, -⟩ := drain_flow b
    rw [drain_told]
    exact ⟨(congrArg List.length hdel).symm, rfl⟩
  | bind sink =>
    obtain ⟨rs | other, policy⟩ := b
    · refine ⟨?_, rfl⟩
      change rs.length + 0 = (rs.map fun r => (sink, r)).length
      rw [List.length_map, Nat.add_zero]
    · exact ⟨rfl, rfl⟩

theorem warnings_tell_no_loss (labelOf : σ → String) (a : Act σ) :
    TellsLoss 0 (a.warnings labelOf) := by
  unfold Act.warnings
  split
  · exact ⟨rfl, rfl, rfl, nofun, rfl⟩
  · exact tellsLoss_nil

/-- A binding is told of when the board gets its sink. -/
theorem step_bindings (b : Board σ) {c : Call σ} (hc : c.isBare = false) :
    bindingsIn (b.step c).log + b.sink?.toList.length =
      (b.step c).state.sink?.toList.length := by
  by_cases ha : c.attempt = []
  · obtain ⟨hsink, -⟩ := step_effects b c
    have htold := step_told (fun _ => "") b hc
    rw [warnings_of_no_attempt _ b ha, List.append_nil] at htold
    rw [htold.bindings_eq_zero ha, hsink, ha, Nat.zero_add, List.head?_nil, Option.or_none]
  · cases c with
    | bind sink => obtain ⟨rs | other, policy⟩ := b <;> rfl
    | _ => exact absurd rfl ha

/-- All that an operation delivers goes to the sink that is bound after it. -/
theorem deliveries_step (b : Board σ) (c : Call σ) :
    (b.step c).deliveries = [] ∨ ∃ (sink : σ) (rs : List Registry),
      (b.step c).state.sink? = some sink ∧ (b.step c).deliveries = rs.map fun r => (sink, r) := by
  obtain ⟨rs | sink, policy⟩ := b
  · by_cases ha : c.attempt = []
    · exact .inl (step_of_waiting rfl ha).2
    · cases c with
      | bind sink => exact .inr ⟨sink, rs, rfl, rfl⟩
      | _ => exact absurd rfl ha
  · rw [step_of_bound]
    exact .inr ⟨sink, c.registered, rfl, rfl⟩

theorem portion_step [DecidableEq σ] (b : Board σ) (c : Call σ) (sink : σ) :
    portion (b.step c).deliveries sink =
      if (b.step c).state.sink? = some sink then (b.step c).deliveries.map Prod.snd else [] := by
  rcases deliveries_step b c with hd | ⟨bound, rs, hs, hd⟩
  · rw [hd]
    exact (ite_self []).symm
  · rw [hd, hs, List.map_map]
    by_cases h : bound = sink
    · rw [h, portion_self, if_pos rfl]
      exact (List.map_id rs).symm
    · rw [portion_other rs (Ne.symm h), if_neg fun he => h (Option.some.inj he)]

end Board

namespace Session

open Board (Call Told attempts fragments)

/-- What a reply gives to the caller of the registries that waited. -/
def Reply.drained : Reply → List Registry
  | .board (.drained rs) => rs
  | _ => []

/-- What is drained in a run. -/
def drained (s : Session) : List Step → List Registry
  | [] => []
  | t :: ts => (s.step t).2.1.drained ++ drained (s.step t).1 ts

/-- A call on a page is told of and answered as on its board, or there is no board and nothing
happens. -/
theorem callPage_told (labelOf : Nat → String) (p : Page Nat) (c : Call Nat) :
    let b := p.boardOrNew
    let o := callPage labelOf p c
    (o.state.boardOrNew = (b.step c).state ∧ o.deliveries = (b.step c).deliveries ∧
        o.log = (b.step c).log ++ (b.act c).warnings labelOf ∧
        o.answer.drained = (b.act c).drained) ∨
      c.isArrival = false ∧ b = {} ∧ o = { state := p, answer := .noBoard } := by
  by_cases hc : c.isArrival = true
  · rw [callPage_arrival labelOf p hc]
    refine .inl ⟨rfl, rfl, rfl, ?_⟩
    cases c with
    | bind sink => exact (Board.act_bind p.boardOrNew sink).1.symm
    | load f => rfl
    | _ => exact absurd hc Bool.false_ne_true
  · obtain ⟨_ | b⟩ := p
    · right
      cases c with
      | load f => exact absurd rfl hc
      | bind sink => exact absurd rfl hc
      | _ => exact ⟨rfl, rfl, rfl⟩
    · left
      cases c with
      | load f => exact absurd rfl hc
      | bind sink => exact absurd rfl hc
      | _ => exact ⟨rfl, rfl, (List.append_nil _).symm, rfl⟩

/-- How the calls of a run, its log and what was drained account for all that happened between two
sessions. -/
structure Account (before after : Session) (calls : List (Call Nat)) (logs : List (List Event))
    (drained : List Registry) : Prop where
  told : List.Forall₂ Told calls logs
  balance : before.boardOrNew.pending.length + (fragments calls).length =
    deliveredIn logs.flatten + drained.length + after.boardOrNew.pending.length +
      displacedIn logs.flatten
  bindings : bindingsIn logs.flatten + before.boardOrNew.sink?.toList.length =
    after.boardOrNew.sink?.toList.length
  bound : after.boardOrNew.sink? = before.boardOrNew.sink?.or (attempts calls).head?
  handed : ∃ rs : List Registry, rs.length = deliveredIn logs.flatten ∧
    (after.boardOrNew.sink? = none → rs = []) ∧
    ∀ sink, before.Gains after sink (if after.boardOrNew.sink? = some sink then rs else [])

theorem Account.nil (s : Session) : s.Account s [] [] [] where
  told := .nil
  balance := by simp [fragments, deliveredIn, displacedIn]
  bindings := by simp [bindingsIn]
  bound := Option.or_none.symm
  handed := by
    refine ⟨[], rfl, fun _ => rfl, fun sink => ?_⟩
    rw [ite_self]
    exact gains_of_sinks_eq rfl sink

theorem Account.stays {before after : Session} {calls : List (Call Nat)}
    {logs : List (List Event)} {drained : List Registry}
    (h : before.Account after calls logs drained) (sink : Nat)
    (hk : before.boardOrNew.sink? = some sink) : after.boardOrNew.sink? = some sink := by
  rw [h.bound, hk]
  rfl

/-- What a bound sink gets first and what it gets later, it gets in all; a session that has no sink
at the end had none before. -/
theorem handed_append {s t u : Session} {rs qs : List Registry}
    (hstays : ∀ sink, t.boardOrNew.sink? = some sink → u.boardOrNew.sink? = some sink)
    (hrs : t.boardOrNew.sink? = none → rs = []) (hqs : u.boardOrNew.sink? = none → qs = [])
    (hfirst : ∀ sink, s.Gains t sink (if t.boardOrNew.sink? = some sink then rs else []))
    (hlater : ∀ sink, t.Gains u sink (if u.boardOrNew.sink? = some sink then qs else [])) :
    (u.boardOrNew.sink? = none → rs ++ qs = []) ∧
      ∀ sink, s.Gains u sink (if u.boardOrNew.sink? = some sink then rs ++ qs else []) := by
  cases ht : t.boardOrNew.sink? with
  | none =>
    rw [hrs ht]
    refine ⟨hqs, fun sink => ?_⟩
    have htrans := (hfirst sink).trans (hlater sink)
    rw [ht, if_neg (Option.some_ne_none sink).symm] at htrans
    exact htrans
  | some k =>
    have hu := hstays k ht
    refine ⟨fun hn => absurd (hu.symm.trans hn) (Option.some_ne_none k), fun sink => ?_⟩
    have htrans := (hfirst sink).trans (hlater sink)
    rw [ht, hu] at htrans
    rw [hu]
    by_cases hk : some k = some sink
    · rw [if_pos hk, if_pos hk] at htrans
      rw [if_pos hk]
      exact htrans
    · rw [if_neg hk, if_neg hk] at htrans
      rw [if_neg hk]
      exact htrans

theorem Account.cons {s t u : Session} {c : Call Nat} {cs : List (Call Nat)} {log : List Event}
    {logs : List (List Event)} {rs qs : List Registry} (h : s.Account t [c] [log] rs)
    (h' : t.Account u cs logs qs) : s.Account u (c :: cs) (log :: logs) (rs ++ qs) := by
  have hlog : [log].flatten = log := List.append_nil log
  have hfragments : fragments (c :: cs) = fragments [c] ++ fragments cs := by simp [fragments]
  constructor
  case told => exact .cons (List.forall₂_cons.mp h.told).1 h'.told
  case balance =>
    have hfirst := h.balance
    have hlater := h'.balance
    rw [hlog] at hfirst
    rw [List.flatten_cons, deliveredIn_append, displacedIn_append, hfragments]
    simp only [List.length_append]
    omega
  case bindings =>
    have hfirst := h.bindings
    have hlater := h'.bindings
    rw [hlog] at hfirst
    rw [List.flatten_cons, bindingsIn_append]
    omega
  case bound =>
    have hattempts : attempts (c :: cs) = attempts [c] ++ attempts cs :=
      congrArg (· ++ attempts cs) (List.append_nil c.attempt).symm
    rw [h'.bound, h.bound, hattempts, List.head?_append, Option.or_assoc]
  case handed =>
    obtain ⟨got, hgot, hnone, hgains⟩ := h.handed
    obtain ⟨got', hgot', hnone', hgains'⟩ := h'.handed
    rw [hlog] at hgot
    refine ⟨got ++ got', ?_, handed_append h'.stays hnone hnone' hgains hgains'⟩
    rw [List.flatten_cons, deliveredIn_append, List.length_append, hgot, hgot']

/-- What is told and handed on by an operation on a board, with the warnings of its host. -/
theorem account_of_step (labelOf : Nat → String) {s t : Session} {b : Board Nat} {c : Call Nat}
    (hc : c.isBare = false) (hs : s.boardOrNew = b) (ht : t.boardOrNew = (b.step c).state)
    (hgains : ∀ sink, s.Gains t sink (Board.portion (b.step c).deliveries sink)) :
    s.Account t [c] [(b.step c).log ++ (b.act c).warnings labelOf] (b.act c).drained := by
  have hflow := Board.length_flow b c
  have hhanded : (b.act c).handedOn.length = (b.act c).drained.length +
      (b.step c).deliveries.length := by
    rw [Board.Act.handedOn, List.length_append, List.length_map]
    rfl
  obtain ⟨hdelivered, hdisplaced⟩ := Board.step_counts b hc
  have hwarns := Board.warnings_tell_no_loss labelOf (b.act c)
  have hbindings := Board.step_bindings b hc
  obtain ⟨hsink, -⟩ := Board.step_effects b c
  constructor
  case told => exact .cons (Board.step_told labelOf b hc) .nil
  case balance =>
    rw [hs, ht, List.flatten_singleton, deliveredIn_append, displacedIn_append, hwarns.delivered,
      hwarns.displaced, hdelivered, hdisplaced, fragments, List.flatMap_singleton,
      ← Board.registered_length hc]
    omega
  case bindings =>
    rw [hs, ht, List.flatten_singleton, bindingsIn_append, hwarns.bindings]
    exact hbindings
  case bound => rw [ht, hsink, hs, attempts, List.flatMap_singleton]
  case handed =>
    refine ⟨(b.step c).deliveries.map Prod.snd, ?_, fun hn => ?_, fun sink => ?_⟩
    · rw [List.flatten_singleton, deliveredIn_append, hwarns.delivered, hdelivered, List.length_map]
      rfl
    · rcases Board.deliveries_step b c with hd | ⟨bound, rs, hk, -⟩
      · rw [hd]
        rfl
      · rw [ht, hk] at hn
        exact absurd hn (Option.some_ne_none bound)
    · rw [ht, ← Board.portion_step]
      exact hgains sink

/-- Without a board, nothing is told and nothing happens. -/
theorem account_of_noBoard (s : Session) {c : Call Nat} (hc : c.isBare = false)
    (ha : c.isArrival = false) : s.Account s [c] [[]] [] := by
  have hquiet := Account.nil s
  have hfragments : fragments [c] = [] := by
    cases c with
    | load f => exact absurd ha nofun
    | _ => rfl
  have hattempts : attempts [c] = [] := by
    cases c with
    | bind sink => exact absurd ha nofun
    | _ => rfl
  refine ⟨.cons ?_ .nil, ?_, hquiet.bindings, hattempts ▸ hquiet.bound, hquiet.handed⟩
  · cases c with
    | register r => exact absurd hc nofun
    | load f => exact absurd ha nofun
    | bind sink => exact absurd ha nofun
    | setPolicy p => exact .setPolicy p 0
    | drain => exact .drain
  · rw [hfragments]
    exact hquiet.balance

section

variable {wrap : Page Nat → Host} (hw : Hosts wrap) (hb : ∀ p, (wrap p).board? = p.board)

include hw hb

theorem step_account (p : Page Nat) (sinks : List Sink) {c : Call Nat} (hc : c.isBare = false) :
    let s : Session := ⟨wrap p, sinks⟩
    ∃ (q : Page Nat) (filled : List Sink) (reply : Reply) (log : List Event),
      s.step (.call c) = (⟨wrap q, filled⟩, reply, log) ∧
        s.Account ⟨wrap q, filled⟩ [c] [log] reply.drained := by
  intro s
  have hboard (q : Page Nat) (filled : List Sink) :
      boardOrNew ⟨wrap q, filled⟩ = q.boardOrNew := by
    rw [boardOrNew, hb]
    rfl
  let o := callPage s.label p c
  have hstep : s.step (.call c) =
      (⟨wrap o.state, (s.deliver o.deliveries).sinks⟩, o.answer, o.log) := by
    have hhost : s.callHost c = o.mapState wrap := hw p sinks c
    rw [step, hhost, absorb]
    exact congrArg (·, _, _) (deliver_with_host s (wrap o.state) o.deliveries)
  refine ⟨_, _, _, _, hstep, ?_⟩
  rcases callPage_told s.label p c with ⟨hs, hd, hl, hr⟩ | ⟨ha, -, ho⟩
  · have hgains (sink : Nat) := deliver_sinks s o.deliveries sink
    rw [hl, hr]
    exact account_of_step s.label hc (hboard p sinks) ((hboard _ _).trans hs) (hd ▸ hgains)
  · rw [show o = _ from ho]
    exact account_of_noBoard s hc ha

/-- The account of a run, from the accounts of its steps. -/
theorem run_account (p : Page Nat) (sinks : List Sink) {calls : List (Call Nat)}
    (hc : ∀ c ∈ calls, c.isBare = false) :
    let s : Session := ⟨wrap p, sinks⟩
    let steps := calls.map Step.call
    s.Account (s.run steps) calls (s.logs steps) (s.drained steps) := by
  induction calls generalizing p sinks with
  | nil => exact Account.nil _
  | cons c cs ih =>
    obtain ⟨hfirst, hrest⟩ := List.forall_mem_cons.mp hc
    obtain ⟨q, filled, reply, log, hstep, haccount⟩ := step_account hw hb p sinks hfirst
    have hlater := haccount.cons (ih q filled hrest)
    simp only [List.map_cons, run, List.foldl_cons, logs, drained, hstep] at hlater ⊢
    exact hlater

end

/-- What the log of a page, or of a viewer, tells of a run of calls, whether the page starts with a
board or without one. Each load is told of once, with its trait path and its libraries, right behind
the warning of what it overwrote. The sink that was tried first is bound, and its binding is told
of. What the events report as delivered is what this sink gets, and nothing if none is bound; no
other sink gets anything. All that was loaded is delivered, drained, still waiting, or counted in a
warning. -/
theorem log_accounts (start : Option Policy) (v : Viewer Nat) (host : Host) (sinks : List Sink)
    (calls : List (Call Nat)) (hc : ∀ c ∈ calls, c.isBare = false)
    (hh : host = .page ⟨start.map .withPolicy⟩ ∨
      host = .viewer { v with page := ⟨start.map .withPolicy⟩ }) :
    let steps := calls.map Step.call
    let s : Session := ⟨host, sinks⟩
    let late := s.run steps
    let log := (s.logs steps).flatten
    log.filterMap Event.loaded? =
        (fragments calls).map (fun f => (f.traitPath, f.implementors.size)) ∧
      List.Forall₂ Told calls (s.logs steps) ∧
      late.boardOrNew.sink? = (attempts calls).head? ∧
      bindingsIn log = late.boardOrNew.sink?.toList.length ∧
      (∃ rs : List Registry, rs.length = deliveredIn log ∧
        (late.boardOrNew.sink? = none → rs = []) ∧
        ∀ sink, s.Gains late sink (if late.boardOrNew.sink? = some sink then rs else [])) ∧
      (∀ n ∈ log.filterMap Event.displaced, 0 < n) ∧
      (fragments calls).length =
        deliveredIn log + (s.drained steps).length + late.boardOrNew.pending.length +
          displacedIn log := by
  intro steps s late log
  have haccount : s.Account late calls (s.logs steps) (s.drained steps) := by
    rcases hh with rfl | rfl
    · exact run_account hosts_page (fun _ => rfl) _ sinks hc
    · exact run_account (hosts_viewer v) (fun _ => rfl) _ sinks hc
  have hstart : s.boardOrNew.pending = [] ∧ s.boardOrNew.sink? = none := by
    rcases hh with rfl | rfl <;> cases start <;> exact ⟨rfl, rfl⟩
  have hbound := haccount.bound
  have hbalance := haccount.balance
  have hbindings := haccount.bindings
  rw [hstart.1, List.length_nil, Nat.zero_add] at hbalance
  rw [hstart.2] at hbound hbindings
  exact ⟨Board.loaded_of_told haccount.told, haccount.told, hbound, hbindings, haccount.handed,
    Board.displaced_pos_of_told haccount.told, hbalance⟩

/-- A viewer that binds its sink behind losses of both kinds, and a page that binds none. -/
theorem log_accounts_all_ways :
    let f (name : String) : Fragment := ⟨⟨[], name⟩, .ofList [(name, [])]⟩
    let calls : List (Call Nat) :=
      [.drain, .load (f "z"), .drain, .load (f "a"), .load (f "b"), .setPolicy .accumulate,
        .load (f "c"), .setPolicy .lastWriteWins, .bind 0, .bind 1, .load (f "d")]
    let steps := calls.map Step.call
    let s : Session := ⟨.viewer {}, [⟨"first", .recorder []⟩, ⟨"second", .counter 0⟩]⟩
    let log := (s.logs steps).flatten
    let quiet : List (Call Nat) :=
      [.load (f "a"), .load (f "b"), .drain, .load (f "c"), .setPolicy .lastWriteWins,
        .load (f "d")]
    let idle := quiet.map Step.call
    let t : Session := ⟨.page ⟨some (.withPolicy .accumulate)⟩, s.sinks⟩
    let told := (t.logs idle).flatten
    (∀ c ∈ calls, c.isBare = false) ∧
      log = [.loaded ⟨[], "z"⟩ 1 (.buffered 0), .loaded ⟨[], "a"⟩ 1 (.buffered 0), .overwritten 1,
        .loaded ⟨[], "b"⟩ 1 (.buffered 1), .loaded ⟨[], "c"⟩ 1 (.buffered 0), .dropped 1,
        .sinkBound 1, .sinkIgnored "second", .loaded ⟨[], "d"⟩ 1 .delivered] ∧
      (s.run steps).boardOrNew.sink? = some 0 ∧ bindingsIn log = 1 ∧
      (∃ rs : List Registry, rs.length = 2 ∧ s.Gains (s.run steps) 0 rs ∧
        s.Gains (s.run steps) 1 []) ∧
      (fragments calls).length = 2 + 1 + 0 + 2 ∧
      (∀ c ∈ quiet, c.isBare = false) ∧
      told = [.loaded ⟨[], "a"⟩ 1 (.buffered 0), .loaded ⟨[], "b"⟩ 1 (.buffered 0),
        .loaded ⟨[], "c"⟩ 1 (.buffered 0), .overwritten 1, .loaded ⟨[], "d"⟩ 1 (.buffered 1)] ∧
      (t.run idle).boardOrNew.sink? = none ∧ bindingsIn told = 0 ∧ deliveredIn told = 0 ∧
      (∀ sink, t.Gains (t.run idle) sink []) ∧ (fragments quiet).length = 0 + 2 + 1 + 1 := by
  intro f calls steps s log quiet idle t told
  have hc : ∀ c ∈ calls, c.isBare = false := by decide
  have hlog : log = [.loaded ⟨[], "z"⟩ 1 (.buffered 0), .loaded ⟨[], "a"⟩ 1 (.buffered 0),
      .overwritten 1, .loaded ⟨[], "b"⟩ 1 (.buffered 1), .loaded ⟨[], "c"⟩ 1 (.buffered 0),
      .dropped 1, .sinkBound 1, .sinkIgnored "second", .loaded ⟨[], "d"⟩ 1 .delivered] := by
    decide +kernel
  have hdrained : (s.drained steps).length = 1 := by decide +kernel
  have hwaiting : (s.run steps).boardOrNew.pending.length = 0 := by decide +kernel
  have hdelivered : deliveredIn log = 2 := by
    rw [hlog]
    rfl
  have hdisplaced : displacedIn log = 2 := by
    rw [hlog]
    rfl
  obtain ⟨-, -, hbound, hbindings, ⟨rs, hrs, -, hgains⟩, -, hbalance⟩ :=
    log_accounts none {} (.viewer {}) s.sinks calls hc (.inr rfl)
  change (s.run steps).boardOrNew.sink? = some 0 at hbound
  change bindingsIn log = (s.run steps).boardOrNew.sink?.toList.length at hbindings
  change _ = deliveredIn log + (s.drained steps).length +
    (s.run steps).boardOrNew.pending.length + displacedIn log at hbalance
  change ∀ sink, s.Gains (s.run steps) sink
    (if (s.run steps).boardOrNew.sink? = some sink then rs else []) at hgains
  rw [hbound] at hbindings hgains
  rw [hdelivered, hdrained, hwaiting, hdisplaced] at hbalance
  have hquiet : ∀ c ∈ quiet, c.isBare = false := by decide
  have htold : told = [.loaded ⟨[], "a"⟩ 1 (.buffered 0), .loaded ⟨[], "b"⟩ 1 (.buffered 0),
      .loaded ⟨[], "c"⟩ 1 (.buffered 0), .overwritten 1,
      .loaded ⟨[], "d"⟩ 1 (.buffered 1)] := by decide +kernel
  have hreturned : (t.drained idle).length = 2 := by decide +kernel
  have hkept : (t.run idle).boardOrNew.pending.length = 1 := by decide +kernel
  have hlost : displacedIn told = 1 := by
    rw [htold]
    rfl
  obtain ⟨-, -, hfree, hunbound, ⟨qs, hqs, hnone, hnothing⟩, -, hcount⟩ :=
    log_accounts (some .accumulate) {} t.host s.sinks quiet hquiet (.inl rfl)
  change (t.run idle).boardOrNew.sink? = none at hfree
  change bindingsIn told = (t.run idle).boardOrNew.sink?.toList.length at hunbound
  change qs.length = deliveredIn told at hqs
  change _ = deliveredIn told + (t.drained idle).length +
    (t.run idle).boardOrNew.pending.length + displacedIn told at hcount
  change ∀ sink, t.Gains (t.run idle) sink
    (if (t.run idle).boardOrNew.sink? = some sink then qs else []) at hnothing
  obtain rfl : qs = [] := hnone hfree
  rw [hfree] at hunbound
  rw [← hqs, hreturned, hkept, hlost] at hcount
  simp only [ite_self] at hnothing
  exact ⟨hc, hlog, hbound, hbindings, ⟨rs, hrs.trans hdelivered, hgains 0, hgains 1⟩, hbalance,
    hquiet, htold, hfree, hunbound, hqs.symm, hnothing, hcount⟩

end Session
end Implementors
