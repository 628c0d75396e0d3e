import Implementors.Proofs.Board.Arrival
import Implementors.Proofs.Board.Conservation

/-! A board is bound once. The first attempt to bind a sink succeeds and delivers what waits; all
later ones are refused and change nothing. From the first on, whatever comes in goes straight to
the sink that was bound by it, under any policy. -/
namespace Implementors.Board

variable {σ : Type}

namespace Call

/-- The sink that a call tries to bind. -/
def attempt : Call σ → List σ
  | .bind sink => [sink]
  | .register _ | .load _ | .setPolicy _ | .drain => []

def setsPolicy : Call σ → Bool
  | .setPolicy _ => true
  | _ => false

def policyAfter (before : Policy) : Call σ → Policy
  | .setPolicy p => p
  | _ => before

/-- The answer of a board that has a sink. -/
def answerWhenBound : Call σ → Reply
  | .register _ | .load _ => .handoff .delivered
  | .setPolicy _ => .done
  | .drain => .drained []
  | .bind _ => .refused .sinkAlreadyBound

/-- The log of a board that has a sink. -/
def logWhenBound : Call σ → List Event
  | .load f => [.loaded f.traitPath f.implementors.size .delivered]
  | _ => []

end Call

def attempts (calls : List (Call σ)) : List σ := calls.flatMap Call.attempt

def withoutPolicies (calls : List (Call σ)) : List (Call σ) := calls.filter fun c => !c.setsPolicy

@[simp] theorem attempts_cons (c : Call σ) (cs : List (Call σ)) :
    attempts (c :: cs) = c.attempt ++ attempts cs := rfl

@[simp] theorem registered_cons (c : Call σ) (cs : List (Call σ)) :
    registered (c :: cs) = c.registered ++ registered cs := rfl

theorem registered_withoutPolicies (calls : List (Call σ)) :
    registered (withoutPolicies calls) = registered calls := by
  induction calls with
  | nil => rfl
  | cons c cs ih =>
    cases c with
    | setPolicy p => exact ih
    | register r => exact congrArg (r :: ·) ih
    | load f => exact congrArg (f.implementors :: ·) ih
    | drain => exact ih
    | bind sink => exact ih

/-- All that an operation does on a board that has a sink. -/
theorem step_of_bound (sink : σ) (policy : Policy) (c : Call σ) :
    (⟨.bound sink, policy⟩ : Board σ).step c =
      { state := ⟨.bound sink, c.policyAfter policy⟩
        answer := c.answerWhenBound
        deliveries := c.registered.map fun r => (sink, r)
        log := c.logWhenBound } := by
  cases c with
  | setPolicy p => cases p <;> rfl
  | _ => rfl

def sink? (b : Board σ) : Option σ :=
  match b.binding with
  | .waiting _ => none
  | .bound sink => some sink

/-- A sink that is bound gets what comes in; else the one that is bound now gets what waits. -/
def dispatched (b : Board σ) (attempted : List σ) (incoming : List Registry) :
    List (σ × Registry) :=
  match b.sink? with
  | some sink => incoming.map fun r => (sink, r)
  | none => attempted.flatMap fun sink => b.pending.map fun r => (sink, r)

/-- What an operation does besides its answer, its log and its work on the buffer. -/
theorem step_effects (b : Board σ) (c : Call σ) :
    (b.step c).state.sink? = b.sink?.or c.attempt.head? ∧
      (b.step c).deliveries = b.dispatched c.attempt c.registered ∧
      (b.step c).state.policy = c.policyAfter b.policy := by
  obtain ⟨rs | sink, policy⟩ := b
  · cases c with
    | register r => cases policy <;> exact ⟨rfl, rfl, rfl⟩
    | load f => cases policy <;> exact ⟨rfl, rfl, rfl⟩
    | setPolicy p => cases p <;> exact ⟨rfl, rfl, rfl⟩
    | drain => exact ⟨rfl, rfl, rfl⟩
    | bind sink => exact ⟨rfl, (List.append_nil _).symm, rfl⟩
  · rw [step_of_bound]
    exact ⟨rfl, rfl, rfl⟩

theorem sink?_eq_none_iff {b : Board σ} : b.sink? = none ↔ b.isBound = false := by
  obtain ⟨rs | sink, policy⟩ := b
  · exact iff_of_true rfl rfl
  · exact iff_of_false nofun nofun

/-- Without an attempt to bind a sink, a board keeps waiting and delivers nothing. -/
theorem step_of_waiting {b : Board σ} (hb : b.isBound = false) {c : Call σ} (hc : c.attempt = []) :
    (b.step c).state.isBound = false ∧ (b.step c).deliveries = [] := by
  obtain ⟨hsink, hdel, -⟩ := step_effects b c
  have hnone : b.sink? = none := sink?_eq_none_iff.mpr hb
  rw [hc, hnone] at hsink
  rw [hc, dispatched, hnone] at hdel
  exact ⟨sink?_eq_none_iff.mp hsink, hdel⟩

theorem exists_waiting {b : Board σ} (hb : b.isBound = false) :
    ∃ rs, b = ⟨.waiting rs, b.policy⟩ := by
  obtain ⟨rs | sink, policy⟩ := b
  · exact ⟨rs, rfl⟩
  · exact absurd hb nofun

/-- A board that waits binds the sink and delivers to it what waits. -/
theorem step_bind_of_waiting {b : Board σ} (hb : b.isBound = false) (sink : σ) :
    b.step (.bind sink) =
      { state := ⟨.bound sink, b.policy⟩
        answer := .bound b.pending.length
        deliveries := b.pending.map fun r => (sink, r)
        log := [.sinkBound b.pending.length] } := by
  obtain ⟨rs, hw⟩ := exists_waiting hb
  rw [hw]
  rfl

theorem dispatched_nil (b : Board σ) : b.dispatched [] [] = [] := by
  rw [dispatched]
  cases b.sink? <;> rfl

theorem portion_dispatched_bound [DecidableEq σ] {b : Board σ} {sink : σ}
    (hb : b.sink? = some sink) (attempted : List σ) (incoming : List Registry) :
    portion (b.dispatched attempted incoming) sink = incoming := by
  rw [dispatched, hb]
  exact portion_self incoming sink

theorem portion_dispatched_new [DecidableEq σ] {b : Board σ} (hb : b.sink? = none) (sink : σ)
    (incoming : List Registry) : portion (b.dispatched [sink] incoming) sink = b.pending := by
  rw [dispatched, hb]
  change portion ([sink].flatMap _) sink = _
  rw [List.flatMap_singleton]
  exact portion_self b.pending sink

/-- A sink gets nothing if another is bound, or if none is and it is not tried. -/
theorem portion_dispatched_other [DecidableEq σ] {b : Board σ} {sink : σ}
    (hb : b.sink? ≠ some sink) {attempted : List σ} (ha : sink ∈ attempted → b.sink? ≠ none)
    (incoming : List Registry) : portion (b.dispatched attempted incoming) sink = [] := by
  rw [dispatched]
  cases hk : b.sink? with
  | some other =>
    have hne : sink ≠ other := by
      rintro rfl
      exact hb hk
    exact portion_other incoming hne
  | none =>
    apply portion_eq_nil
    intro d hd
    obtain ⟨tried, ht, hd⟩ := List.mem_flatMap.mp hd
    obtain ⟨r, -, rfl⟩ := List.mem_map.mp hd
    rintro rfl
    exact ha ht hk

/-- An operation that finds a sink and leaves it in its place. What comes in goes to this sink, and
an attempt to bind another one changes nothing. -/
structure Act.Serves (sink : σ) (a : Act σ) : Prop where
  found : a.before.binding = .bound sink
  kept : a.outcome.state.binding = .bound sink
  isBound : a.outcome.state.isBound = true
  pending : a.outcome.state.pending = []
  answer : a.outcome.answer = a.call.answerWhenBound
  deliveries : a.outcome.deliveries = a.call.registered.map fun r => (sink, r)
  refusal : ∀ other, a.call = .bind other → a.outcome.state = a.before ∧ a.outcome.log = []

theorem act_serves (sink : σ) (policy : Policy) (c : Call σ) :
    (act ⟨.bound sink, policy⟩ c).Serves sink := by
  have hstep := step_of_bound sink policy c
  constructor
  case found => rfl
  case refusal =>
    intro other hc
    obtain rfl : c = .bind other := hc
    exact ⟨rfl, rfl⟩
  all_goals simp only [act, hstep, isBound, Board.pending]

theorem acts_serve {b : Board σ} {sink : σ} (hb : b.binding = .bound sink)
    (calls : List (Call σ)) : ∀ a ∈ b.acts calls, a.Serves sink := by
  induction calls generalizing b with
  | nil =>
    intro a ha
    exact absurd ha List.not_mem_nil
  | cons c cs ih =>
    obtain ⟨binding, policy⟩ := b
    obtain rfl : binding = .bound sink := hb
    have hfirst := act_serves sink policy c
    intro a ha
    rcases List.mem_cons.mp ha with rfl | ha
    · exact hfirst
    · exact ih hfirst.kept a ha

/-- A bound board delivers all that comes in, and nothing else. -/
theorem deliveries_of_bound {b : Board σ} {sink : σ} (hb : b.binding = .bound sink)
    (calls : List (Call σ)) :
    deliveries (b.acts calls) = (registered calls).map fun r => (sink, r) := by
  induction calls generalizing b with
  | nil => rfl
  | cons c cs ih =>
    obtain ⟨binding, policy⟩ := b
    obtain rfl : binding = .bound sink := hb
    have hstep := step_of_bound sink policy c
    rw [deliveries_cons, registered_cons, List.map_append, hstep, ih rfl]

theorem bindReplies_of_bound {b : Board σ} {sink : σ} (hb : b.binding = .bound sink)
    (calls : List (Call σ)) :
    bindReplies (b.acts calls) = (attempts calls).map fun _ => .refused .sinkAlreadyBound := by
  induction calls generalizing b with
  | nil => rfl
  | cons c cs ih =>
    obtain ⟨binding, policy⟩ := b
    obtain rfl : binding = .bound sink := hb
    have hrest := ih (act_serves sink policy c).kept
    cases c with
    | bind other => exact congrArg (Reply.refused .sinkAlreadyBound :: ·) hrest
    | _ => exact hrest

/-- Until a run tries to bind a sink, its board waits, delivers nothing and answers no attempt. -/
theorem acts_before_attempt {b : Board σ} (hb : b.isBound = false) {calls : List (Call σ)}
    (hc : attempts calls = []) :
    (b.run calls).isBound = false ∧ bindReplies (b.acts calls) = [] ∧
      ∀ a ∈ b.acts calls, a.outcome.state.isBound = false ∧ a.outcome.deliveries = [] := by
  induction calls generalizing b with
  | nil => exact ⟨hb, rfl, fun a ha => absurd ha List.not_mem_nil⟩
  | cons c cs ih =>
    obtain ⟨hfirst, hrest⟩ := List.append_eq_nil_iff.mp (attempts_cons c cs ▸ hc)
    obtain ⟨hs, hd⟩ := step_of_waiting hb hfirst
    obtain ⟨hrun, hreplies, hacts⟩ := ih hs hrest
    refine ⟨hrun, ?_, ?_⟩
    · cases c with
      | bind sink => exact absurd hfirst (List.cons_ne_nil sink [])
      | _ => exact hreplies
    · intro a ha
      rcases List.mem_cons.mp ha with rfl | ha
      · exact ⟨hs, hd⟩
      · exact hacts a ha

/-- What a run delivers in which the sink is the first that is tried. -/
theorem deliveries_of_first {b : Board σ} (hb : b.isBound = false) {before : List (Call σ)}
    (hfirst : attempts before = []) (sink : σ) (after : List (Call σ)) :
    deliveries (b.acts (before ++ .bind sink :: after)) =
      ((b.run before).pending ++ registered after).map fun r => (sink, r) := by
  obtain ⟨hfound, -, hbefore⟩ := acts_before_attempt hb hfirst
  have hnone : deliveries (b.acts before) = [] :=
    List.flatMap_eq_nil_iff.mpr fun a ha => (hbefore a ha).2
  have hsplit : deliveries (b.acts (before ++ .bind sink :: after)) =
      deliveries (b.acts before) ++ deliveries ((b.run before).acts (.bind sink :: after)) := by
    rw [acts_append]
    exact List.flatMap_append
  rw [hsplit, hnone, deliveries_cons, step_bind_of_waiting hfound, deliveries_of_bound rfl,
    List.nil_append, List.map_append]

theorem bindReplies_of_first {b : Board σ} (hb : b.isBound = false) {before : List (Call σ)}
    (hfirst : attempts before = []) (sink : σ) (after : List (Call σ)) :
    bindReplies (b.acts (before ++ .bind sink :: after)) =
      .bound (b.run before).pending.length ::
        (attempts after).map fun _ => .refused .sinkAlreadyBound := by
  obtain ⟨hfound, hnone, -⟩ := acts_before_attempt hb hfirst
  have hstep := step_bind_of_waiting hfound sink
  have hbound : ((b.run before).step (.bind sink)).state.binding = .bound sink := by rw [hstep]
  have hanswer : ((b.run before).step (.bind sink)).answer =
      .bound (b.run before).pending.length := by rw [hstep]
  have hsplit : bindReplies (b.acts (before ++ .bind sink :: after)) =
      bindReplies (b.acts before) ++ ((b.run before).step (.bind sink)).answer ::
        bindReplies (((b.run before).step (.bind sink)).state.acts after) := by
    rw [acts_append, bindReplies, List.filterMap_append]
    rfl
  rw [hsplit, hnone, hanswer, bindReplies_of_bound hbound, List.nil_append]

/-- In any run, the first attempt to bind a sink succeeds and delivers in order what waits then,
and every other is refused. The sink that it binds stays bound and gets each registry that comes in
afterwards, whatever the policies, and no other sink ever gets any. -/
theorem bound_once [DecidableEq σ] (p : Policy) (before after : List (Call σ)) (sink : σ)
    (hfirst : attempts before = []) :
    let start : Board σ := withPolicy p
    let found := start.run before
    let first := found.act (.bind sink)
    let later := first.outcome.state.acts after
    let h := start.acts (before ++ .bind sink :: after)
    h = start.acts before ++ first :: later ∧
      (∀ a ∈ start.acts before, a.outcome.state.isBound = false ∧ a.outcome.deliveries = []) ∧
      bindReplies h = .bound found.pending.length ::
        (attempts after).map (fun _ => .refused .sinkAlreadyBound) ∧
      first.outcome.deliveries = found.pending.map (fun r => (sink, r)) ∧
      first.outcome.state.binding = .bound sink ∧
      (∀ a ∈ later, a.Serves sink) ∧
      deliveries later = deliveries (first.outcome.state.acts (withoutPolicies after)) ∧
      received h sink = found.pending ++ registered after ∧
      ∀ other, other ≠ sink → received h other = [] := by
  intro start found first later h
  have hwaits : start.isBound = false := rfl
  obtain ⟨hfound, -, hbefore⟩ := acts_before_attempt hwaits hfirst
  have hbind : first.outcome = _ := step_bind_of_waiting hfound sink
  have hbound : first.outcome.state.binding = .bound sink := by rw [hbind]
  have hdel : first.outcome.deliveries = found.pending.map fun r => (sink, r) := by rw [hbind]
  have hpolicies : deliveries later =
      deliveries (first.outcome.state.acts (withoutPolicies after)) := by
    rw [deliveries_of_bound hbound, deliveries_of_bound hbound, registered_withoutPolicies]
  have hall : deliveries h = (found.pending ++ registered after).map fun r => (sink, r) :=
    deliveries_of_first hwaits hfirst sink after
  have hother : ∀ other, other ≠ sink → received h other = [] := by
    intro other hne
    rw [received, hall, portion_other _ hne]
  exact ⟨acts_append start before _, hbefore, bindReplies_of_first hwaits hfirst sink after, hdel,
    hbound, acts_serve hbound after, hpolicies, received_of_deliveries hall, hother⟩

theorem bound_once_slot :
    let before : List (Call Nat) := [.load ⟨⟨[], "T"⟩, .empty⟩, .register (.ofList [("a", [])])]
    let after : List (Call Nat) :=
      [.bind 5, .setPolicy .accumulate, .register .empty, .drain, .bind 4]
    let h := (withPolicy .lastWriteWins).acts (before ++ .bind 4 :: after)
    attempts before = [] ∧
      bindReplies h =
        [.bound 1, .refused .sinkAlreadyBound, .refused .sinkAlreadyBound] ∧
      received h 4 = [.ofList [("a", [])], .empty] ∧ received h 5 = [] := by
  intro before after h
  have hfirst : attempts before = [] := rfl
  obtain ⟨-, -, hreplies, -, -, -, -, hsink, hother⟩ :=
    bound_once .lastWriteWins before after 4 hfirst
  exact ⟨hfirst, hreplies, hsink, hother 5 (by decide)⟩

end Implementors.Board
