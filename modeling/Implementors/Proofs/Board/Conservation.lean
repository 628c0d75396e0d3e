import Implementors.Proofs.Board.History
import Mathlib.Algebra.GroupWithZero.Nat

/-! No registry is duplicated or reordered, and none is lost without being counted. What an
operation loses is the front of what waits; the rest of it and what comes in is handed on or still
waits afterwards. -/
namespace Implementors.Board

variable {σ : Type}

theorem register_flow (b : Board σ) (r : Registry) :
    (b.register r).answer.displaced ≤ b.pending.length ∧
      b.pending ++ [r] = b.pending.take (b.register r).answer.displaced ++
        ((b.register r).deliveries.map Prod.snd ++ (b.register r).state.pending) := by
  obtain ⟨rs | sink, policy⟩ := b
  · cases policy with
    | lastWriteWins => simp [register, pending, Handoff.displaced]
    | accumulate => simp [register, pending, Handoff.displaced]
  · exact ⟨Nat.le_refl 0, rfl⟩

/-- A change to a single slot loses all that waits but the newest. -/
theorem setPolicy_flow (b : Board σ) (p : Policy) :
    (b.setPolicy p).deliveries = [] ∧
      b.pending = b.pending.take (if p = .lastWriteWins then b.pending.length - 1 else 0) ++
        (b.setPolicy p).state.pending := by
  obtain ⟨rs | sink, policy⟩ := b
  · cases p with
    | lastWriteWins => exact ⟨rfl, (List.take_append_drop _ rs).symm⟩
    | accumulate => exact ⟨rfl, rfl⟩
  · cases p <;> exact ⟨rfl, rfl⟩

theorem drain_flow (b : Board σ) :
    b.drain.deliveries = [] ∧ b.pending = b.drain.answer ++ b.drain.state.pending := by
  obtain ⟨rs | sink, policy⟩ := b
  · exact ⟨rfl, (List.append_nil rs).symm⟩
  · exact ⟨rfl, rfl⟩

theorem bind_flow (b : Board σ) (sink : σ) :
    b.pending = (b.bind sink).deliveries.map Prod.snd ++ (b.bind sink).state.pending := by
  obtain ⟨rs | bound, policy⟩ := b
  · simp [bind, pending, Function.comp_def]
  · rfl

namespace Act

/-- What an answer counts as displaced or a change of policy drops. -/
def lossCount (a : Act σ) : Nat := a.displaced + a.dropped

def lost (a : Act σ) : List Registry := a.before.pending.take a.lossCount

end Act

theorem act_setPolicy_dropped (b : Board σ) (p : Policy) :
    (b.act (.setPolicy p)).lossCount =
      if p = .lastWriteWins then b.pending.length - 1 else 0 := by
  cases p <;> simp [Act.lossCount, act, Act.displaced, Act.dropped, step, Outcome.mapAnswer]

theorem act_bind (b : Board σ) (sink : σ) :
    (b.act (.bind sink)).drained = [] ∧ (b.act (.bind sink)).lossCount = 0 := by
  obtain ⟨rs | bound, policy⟩ := b <;> exact ⟨rfl, rfl⟩

/-- Each operation splits what waits and what comes in into what it loses, what it hands on and
what waits afterwards, in this order. -/
theorem flow (b : Board σ) (c : Call σ) :
    (b.act c).lossCount ≤ b.pending.length ∧
      b.pending ++ c.registered =
        (b.act c).lost ++ ((b.act c).handedOn ++ (b.step c).state.pending) := by
  cases c with
  | register r => exact register_flow b r
  | load f => exact register_flow b f.implementors
  | setPolicy p =>
    obtain ⟨hd, hp⟩ := setPolicy_flow b p
    have hh : (b.act (.setPolicy p)).handedOn = [] := by
      change [] ++ (b.setPolicy p).deliveries.map Prod.snd = []
      rw [hd]
      rfl
    rw [Act.lost, act_setPolicy_dropped, hh, Call.registered, List.append_nil]
    exact ⟨by split <;> omega, hp⟩
  | drain =>
    obtain ⟨hd, hp⟩ := drain_flow b
    have hh : (b.act .drain).handedOn = b.drain.answer := by
      change b.drain.answer ++ b.drain.deliveries.map Prod.snd = _
      rw [hd, List.map_nil, List.append_nil]
    rw [hh, Call.registered, List.append_nil]
    exact ⟨Nat.zero_le _, hp⟩
  | bind sink =>
    obtain ⟨hd, hl⟩ := act_bind b sink
    rw [Act.lost, Act.handedOn, hd, hl, Call.registered, List.append_nil]
    exact ⟨Nat.zero_le _, bind_flow b sink⟩

theorem length_flow (b : Board σ) (c : Call σ) :
    b.pending.length + c.registered.length =
      (b.act c).handedOn.length + (b.step c).state.pending.length + (b.act c).lossCount := by
  obtain ⟨hle, hf⟩ := flow b c
  have hl : (b.act c).lost.length = (b.act c).lossCount := List.length_take_of_le hle
  have h := congrArg List.length hf
  simp only [List.length_append, hl] at h
  omega

/-- Nothing is lost while registries accumulate. -/
theorem lossCount_eq_zero (b : Board σ) (c : Call σ) (hb : b.policy ≠ .lastWriteWins)
    (hs : (b.step c).state.policy ≠ .lastWriteWins) : (b.act c).lossCount = 0 := by
  obtain ⟨rs | sink, policy⟩ := b
  · cases policy with
    | lastWriteWins => exact absurd rfl hb
    | accumulate =>
      cases c with
      | setPolicy p =>
        cases p with
        | lastWriteWins => exact absurd rfl hs
        | accumulate => rfl
      | _ => rfl
  · cases c with
    | setPolicy p => cases p <;> rfl
    | _ => rfl

/-- A bound board stays bound to its sink, gives nothing to drain, binds no other sink, and
delivers to its own alone. -/
theorem step_bound (sink : σ) (policy : Policy) (c : Call σ) :
    let b : Board σ := ⟨.bound sink, policy⟩
    (b.step c).state.binding = .bound sink ∧ (b.act c).drained = [] ∧
      (b.act c).boundSink = [] ∧ ∀ d ∈ (b.step c).deliveries, d.1 = sink := by
  cases c with
  | register r => exact ⟨rfl, rfl, rfl, List.forall_mem_singleton.mpr rfl⟩
  | load f => exact ⟨rfl, rfl, rfl, List.forall_mem_singleton.mpr rfl⟩
  | setPolicy p => cases p <;> exact ⟨rfl, rfl, rfl, nofun⟩
  | drain => exact ⟨rfl, rfl, rfl, nofun⟩
  | bind other => exact ⟨rfl, rfl, rfl, nofun⟩

theorem acts_bound {b : Board σ} {sink : σ} (hb : b.binding = .bound sink) (calls : List (Call σ)) :
    drained (b.acts calls) = [] ∧ boundSinks (b.acts calls) = [] ∧
      ∀ d ∈ deliveries (b.acts calls), d.1 = sink := by
  induction calls generalizing b with
  | nil => exact ⟨rfl, rfl, nofun⟩
  | cons c cs ih =>
    obtain ⟨binding, policy⟩ := b
    obtain rfl : binding = .bound sink := hb
    obtain ⟨hs, hd, hk, hsink⟩ := step_bound sink policy c
    obtain ⟨ihd, ihk, ihsink⟩ := ih hs
    refine ⟨?_, ?_, fun d hm => ?_⟩
    · simp only [acts, drained, List.flatMap_cons] at ihd ⊢
      rw [hd, ihd]
      rfl
    · simp only [acts, boundSinks, List.flatMap_cons] at ihk ⊢
      rw [hk, ihk]
      rfl
    · rcases List.mem_append.mp hm with hm | hm
      · exact hsink d hm
      · exact ihsink d hm

/-- What a run hands on or leaves waiting. -/
def kept (b : Board σ) (calls : List (Call σ)) : List Registry :=
  drained (b.acts calls) ++ (deliveries (b.acts calls)).map Prod.snd ++ (b.run calls).pending

theorem drained_cons (b : Board σ) (c : Call σ) (cs : List (Call σ)) :
    drained (b.acts (c :: cs)) = (b.act c).drained ++ drained ((b.step c).state.acts cs) := rfl

theorem deliveries_cons (b : Board σ) (c : Call σ) (cs : List (Call σ)) :
    deliveries (b.acts (c :: cs)) =
      (b.step c).deliveries ++ deliveries ((b.step c).state.acts cs) := rfl

theorem boundSinks_cons (b : Board σ) (c : Call σ) (cs : List (Call σ)) :
    boundSinks (b.acts (c :: cs)) =
      (b.act c).boundSink ++ boundSinks ((b.step c).state.acts cs) := rfl

/-- Only a board with a sink delivers, and it is bound from then on. -/
theorem delivers_or_not (b : Board σ) (c : Call σ) :
    (b.step c).deliveries = [] ∨ ∃ sink, (b.step c).state.binding = .bound sink := by
  obtain ⟨rs | sink, policy⟩ := b
  · cases c with
    | register r => cases policy <;> exact .inl rfl
    | load f => cases policy <;> exact .inl rfl
    | setPolicy p => cases p <;> exact .inl rfl
    | drain => exact .inl rfl
    | bind sink => exact .inr ⟨sink, rfl⟩
  · exact .inr ⟨sink, (step_bound sink policy c).1⟩

/-- A run keeps what its first operation hands on, before what the others keep. -/
theorem kept_cons (b : Board σ) (c : Call σ) (cs : List (Call σ)) :
    kept b (c :: cs) = (b.act c).handedOn ++ kept (b.step c).state cs := by
  change drained (b.acts (c :: cs)) ++ (deliveries (b.acts (c :: cs))).map Prod.snd ++
    ((b.step c).state.run cs).pending = _
  rw [drained_cons, deliveries_cons, kept]
  change _ = (b.act c).drained ++ (b.step c).deliveries.map Prod.snd ++ _
  -- the first operation delivers nothing, or the others drain nothing
  rcases delivers_or_not b c with hd | ⟨sink, hb⟩
  · simp [hd]
  · simp [(acts_bound hb cs).1]

theorem kept_sublist (b : Board σ) (calls : List (Call σ)) :
    (kept b calls).Sublist (b.pending ++ registered calls) := by
  induction calls generalizing b with
  | nil => simp [kept, acts, drained, deliveries, run, registered]
  | cons c cs ih =>
    have hr : registered (c :: cs) = c.registered ++ registered cs := rfl
    rw [kept_cons, hr, ← List.append_assoc, (flow b c).2, List.append_assoc, List.append_assoc]
    refine List.Sublist.trans ?_ (List.sublist_append_right _ _)
    exact (ih (b.step c).state).append_left _

/-- What comes in is kept, displaced or dropped. -/
theorem kept_length (b : Board σ) (calls : List (Call σ)) :
    b.pending.length + (registered calls).length =
      (kept b calls).length + ((b.acts calls).map Act.displaced).sum +
        ((b.acts calls).map Act.dropped).sum := by
  induction calls generalizing b with
  | nil => simp [kept, acts, drained, deliveries, run, registered]
  | cons c cs ih =>
    have hr : registered (c :: cs) = c.registered ++ registered cs := rfl
    have hf := length_flow b c
    have hs := ih (b.step c).state
    rw [Act.lossCount] at hf
    simp only [kept_cons, hr, acts, List.map_cons, List.sum_cons, List.length_append]
    omega

/-- From a waiting board on, at most one binding succeeds, and all deliveries go to its sink. -/
theorem boundSinks_of_waiting {b : Board σ} {rs : List Registry} (hb : b.binding = .waiting rs)
    (calls : List (Call σ)) :
    boundSinks (b.acts calls) = [] ∧ deliveries (b.acts calls) = [] ∨
      ∃ sink, boundSinks (b.acts calls) = [sink] ∧
        ∀ d ∈ deliveries (b.acts calls), d.1 = sink := by
  induction calls generalizing b rs with
  | nil => exact .inl ⟨rfl, rfl⟩
  | cons c cs ih =>
    obtain ⟨binding, policy⟩ := b
    obtain rfl : binding = .waiting rs := hb
    rw [boundSinks_cons, deliveries_cons]
    cases c with
    | register r => cases policy <;> exact ih rfl
    | load f => cases policy <;> exact ih rfl
    | setPolicy p => cases p <;> exact ih rfl
    | drain => exact ih rfl
    | bind sink =>
      let bound : Board σ := ⟨.bound sink, policy⟩
      have hb : bound.binding = .bound sink := rfl
      obtain ⟨-, hk, hsink⟩ := acts_bound hb cs
      refine .inr ⟨sink, congrArg (sink :: ·) hk, fun d hd => ?_⟩
      rcases List.mem_append.mp hd with hd | hd
      · obtain ⟨r, -, rfl⟩ := List.mem_map.mp hd
        rfl
      · exact hsink d hd

/-- All that a run delivers is what its bound sink receives. -/
theorem received_boundSinks [DecidableEq σ] {b : Board σ} {rs : List Registry}
    (hb : b.binding = .waiting rs) (calls : List (Call σ)) :
    (boundSinks (b.acts calls)).flatMap (received (b.acts calls)) =
      (deliveries (b.acts calls)).map Prod.snd := by
  rcases boundSinks_of_waiting hb calls with ⟨hk, hd⟩ | ⟨sink, hk, hsink⟩
  · rw [hk, hd]
    rfl
  · rw [hk, List.flatMap_singleton, received, portion_eq_map hsink]

/-- A run during which a single slot is never in force loses nothing. -/
theorem losses_eq_zero (b : Board σ) (calls : List (Call σ))
    (h : .lastWriteWins ∉ policies b (b.acts calls)) :
    ((b.acts calls).map Act.displaced).sum = 0 ∧ ((b.acts calls).map Act.dropped).sum = 0 := by
  induction calls generalizing b with
  | nil => exact ⟨rfl, rfl⟩
  | cons c cs ih =>
    have hp : policies b (b.acts (c :: cs)) =
        b.policy :: policies (b.step c).state ((b.step c).state.acts cs) := rfl
    rw [hp, List.mem_cons, not_or] at h
    obtain ⟨hb, hs⟩ := h
    have hnext : (b.step c).state.policy ≠ .lastWriteWins := fun he =>
      hs (he ▸ List.mem_cons_self)
    have hz := lossCount_eq_zero b c (Ne.symm hb) hnext
    obtain ⟨hdis, hdrop⟩ := ih (b.step c).state hs
    rw [Act.lossCount] at hz
    simp only [acts, List.map_cons, List.sum_cons]
    omega

theorem kept_eq (b : Board σ) (calls : List (Call σ))
    (h : .lastWriteWins ∉ policies b (b.acts calls)) :
    kept b calls = b.pending ++ registered calls := by
  obtain ⟨hdis, hdrop⟩ := losses_eq_zero b calls h
  have hl := kept_length b calls
  refine (kept_sublist b calls).eq_of_length ?_
  rw [List.length_append]
  omega

/-- Every registry that comes in is drained, delivered to the one bound sink, still waiting, or
counted as lost, once and in order; none is lost unless a single slot was in force. -/
theorem conservation [DecidableEq σ] (p : Policy) (calls : List (Call σ)) :
    let b : Board σ := withPolicy p
    let h := b.acts calls
    let kept := drained h ++ (boundSinks h).flatMap (received h) ++ (b.run calls).pending
    (boundSinks h).length ≤ 1 ∧ kept.Sublist (registered calls) ∧
      (registered calls).length =
        kept.length + (h.map Act.displaced).sum + (h.map Act.dropped).sum ∧
      (.lastWriteWins ∉ policies b h → kept = registered calls) := by
  intro b h kept
  have hw : b.binding = .waiting [] := rfl
  have hk : kept = Board.kept b calls := by
    change drained h ++ (boundSinks h).flatMap (received h) ++ _ = _
    rw [received_boundSinks hw calls]
    rfl
  refine ⟨?_, ?_, ?_, fun hp => ?_⟩
  · rcases boundSinks_of_waiting hw calls with ⟨hs, -⟩ | ⟨sink, hs, -⟩
    · exact hs ▸ Nat.zero_le 1
    · exact hs ▸ Nat.le_refl 1
  · exact hk ▸ kept_sublist b calls
  · have hl := kept_length b calls
    rw [← hk] at hl
    exact (Nat.zero_add _).symm.trans hl
  · exact hk ▸ kept_eq b calls hp

theorem conservation_queue :
    let calls : List (Call Nat) :=
      [.register .empty, .drain, .register (Registry.ofList [("a", [])]), .bind 4,
        .load ⟨⟨[], "T"⟩, .empty⟩, .bind 5, .drain]
    let b : Board Nat := withPolicy .accumulate
    let h := b.acts calls
    .lastWriteWins ∉ policies b h ∧
      drained h ++ (boundSinks h).flatMap (received h) ++ (b.run calls).pending =
        registered calls :=
  ⟨by decide, (conservation .accumulate _).2.2.2 (by decide)⟩

end Implementors.Board
