import Implementors.Proofs.Board.Binding
import Mathlib.Data.List.DropRight

/-! However often the policy changed before, a single slot holds what it would have held from the
start: the registry that came in last since everything was drained. -/
namespace Implementors.Board

variable {σ : Type}

namespace Call

def isDrain : Call σ → Bool
  | .drain => true
  | _ => false

/-- The newest registry after a call, from the one before it. -/
def newestAfter (before : Option Registry) : Call σ → Option Registry
  | .register r => some r
  | .load f => some f.implementors
  | .drain => none
  | .setPolicy _ | .bind _ => before

end Call

/-- The calls behind the last drain; all of them if there is none. -/
def sinceDrain (calls : List (Call σ)) : List (Call σ) := calls.rtakeWhile fun c => !c.isDrain

/-- The registry that came in last since the last drain. -/
def newest (calls : List (Call σ)) : Option Registry := (registered (sinceDrain calls)).getLast?

theorem registered_append (cs ds : List (Call σ)) :
    registered (cs ++ ds) = registered cs ++ registered ds := List.flatMap_append

theorem newest_concat (cs : List (Call σ)) (c : Call σ) :
    newest (cs ++ [c]) = c.newestAfter (newest cs) := by
  have hdrain : sinceDrain (cs ++ [Call.drain]) = [] :=
    List.rtakeWhile_concat_neg _ _ _ Bool.false_ne_true
  have hother (hc : c.isDrain = false) : registered (sinceDrain (cs ++ [c])) =
      registered (sinceDrain cs) ++ c.registered := by
    rw [sinceDrain, List.rtakeWhile_concat_pos _ _ _ (by simp [hc]), registered_append]
    exact congrArg _ (List.append_nil c.registered)
  cases c with
  | register r =>
    rw [newest, hother rfl]
    exact List.getLast?_concat
  | load f =>
    rw [newest, hother rfl]
    exact List.getLast?_concat
  | drain =>
    rw [newest, hdrain]
    rfl
  | setPolicy p =>
    rw [newest, hother rfl, Call.registered, List.append_nil]
    rfl
  | bind sink =>
    rw [newest, hother rfl, Call.registered, List.append_nil]
    rfl

theorem withoutPolicies_concat (cs : List (Call σ)) (c : Call σ) :
    withoutPolicies (cs ++ [c]) = withoutPolicies cs ++ withoutPolicies [c] := List.filter_append ..

theorem newest_withoutPolicies (calls : List (Call σ)) :
    newest (withoutPolicies calls) = newest calls := by
  induction calls using List.reverseRecOn with
  | nil => rfl
  | append_singleton cs c ih =>
    rw [withoutPolicies_concat, newest_concat]
    cases c with
    | setPolicy p =>
      change newest (withoutPolicies cs ++ []) = newest cs
      rw [List.append_nil, ih]
    | _ =>
      change newest (withoutPolicies cs ++ [_]) = _
      rw [newest_concat, ih]

theorem attempts_withoutPolicies (calls : List (Call σ)) :
    attempts (withoutPolicies calls) = attempts calls := by
  induction calls with
  | nil => rfl
  | cons c cs ih =>
    cases c with
    | bind sink => exact congrArg (sink :: ·) ih
    | _ => exact ih

theorem policy_withoutPolicies (b : Board σ) (calls : List (Call σ)) :
    (b.run (withoutPolicies calls)).policy = b.policy := by
  induction calls generalizing b with
  | nil => rfl
  | cons c cs ih =>
    cases c with
    | setPolicy p => exact ih b
    | _ => exact (ih _).trans (step_effects b _).2.2

theorem run_concat (b : Board σ) (cs : List (Call σ)) (c : Call σ) :
    b.run (cs ++ [c]) = ((b.run cs).step c).state := List.foldl_concat ..

/-- A waiting board whose last registry is the newest. A single slot holds no other, and neither
does a board from which everything was drained. -/
def EndsWith (b : Board σ) (newest : Option Registry) : Prop :=
  ∃ older, b.binding = .waiting (older ++ newest.toList) ∧
    (b.policy = .lastWriteWins ∨ newest = none → older = [])

theorem step_endsWith {b : Board σ} {o : Option Registry} (h : b.EndsWith o) {c : Call σ}
    (hc : c.attempt = []) : (b.step c).state.EndsWith (c.newestAfter o) := by
  obtain ⟨older, hb, hold⟩ := h
  obtain ⟨binding, policy⟩ := b
  obtain rfl : binding = .waiting (older ++ o.toList) := hb
  have hregister (r : Registry) :
      ((⟨.waiting (older ++ o.toList), policy⟩ : Board σ).register r).state.EndsWith (some r) := by
    cases policy with
    | lastWriteWins => exact ⟨[], rfl, fun _ => rfl⟩
    | accumulate => exact ⟨older ++ o.toList, rfl, nofun⟩
  cases c with
  | register r => exact hregister r
  | load f => exact hregister f.implementors
  | drain => exact ⟨[], rfl, fun _ => rfl⟩
  | bind sink => exact absurd hc (List.cons_ne_nil sink [])
  | setPolicy p =>
    cases p with
    | accumulate => exact ⟨older, rfl, fun h => hold (.inr (h.resolve_left nofun))⟩
    | lastWriteWins =>
      -- the slot keeps the last registry of the queue, which is the newest one
      have hkeep : (older ++ o.toList).drop ((older ++ o.toList).length - 1) = o.toList := by
        cases o with
        | none =>
          rw [hold (.inr rfl)]
          rfl
        | some r => simp
      exact ⟨[], congrArg Binding.waiting hkeep, fun _ => rfl⟩

theorem run_endsWith (p : Policy) {calls : List (Call σ)} (hc : attempts calls = []) :
    ((withPolicy p).run calls).EndsWith (newest calls) := by
  induction calls using List.reverseRecOn with
  | nil => exact ⟨[], rfl, fun _ => rfl⟩
  | append_singleton cs c ih =>
    have hsplit : attempts cs ++ c.attempt = [] := by
      rw [← hc, attempts, attempts, List.flatMap_append, List.flatMap_singleton]
    obtain ⟨hcs, hlast⟩ := List.append_eq_nil_iff.mp hsplit
    rw [run_concat, newest_concat]
    exact step_endsWith (ih hcs) hlast

theorem eq_slot_of_endsWith {b : Board σ} {o : Option Registry} (h : b.EndsWith o)
    (hp : b.policy = .lastWriteWins) : b = ⟨.waiting o.toList, .lastWriteWins⟩ := by
  obtain ⟨older, hb, hold⟩ := h
  obtain ⟨binding, policy⟩ := b
  obtain rfl : policy = .lastWriteWins := hp
  obtain rfl : binding = _ := hb
  rw [hold (.inl rfl), List.nil_append]

/-- Whatever it finds, an operation leaves no more than one registry in a single slot. -/
theorem step_pending_le_one (b : Board σ) (c : Call σ)
    (hp : (b.step c).state.policy = .lastWriteWins) : (b.step c).state.pending.length ≤ 1 := by
  rw [(step_effects b c).2.2] at hp
  obtain ⟨rs | sink, policy⟩ := b
  · have hregister (r : Registry) (hl : policy = .lastWriteWins) :
        ((⟨.waiting rs, policy⟩ : Board σ).register r).state.pending.length ≤ 1 := by
      rw [hl]
      exact Nat.le_refl 1
    cases c with
    | register r => exact hregister r hp
    | load f => exact hregister f.implementors hp
    | drain => exact Nat.zero_le 1
    | bind sink => exact Nat.zero_le 1
    | setPolicy p =>
      obtain rfl : p = .lastWriteWins := hp
      change (rs.drop (rs.length - 1)).length ≤ 1
      rw [List.length_drop]
      omega
  · rw [step_of_bound]
    exact Nat.zero_le 1

theorem run_pending_le_one {b : Board σ} (hb : b.policy = .lastWriteWins → b.pending.length ≤ 1)
    (calls : List (Call σ)) (hp : (b.run calls).policy = .lastWriteWins) :
    (b.run calls).pending.length ≤ 1 := by
  induction calls generalizing b with
  | nil => exact hb hp
  | cons c cs ih => exact ih (step_pending_le_one b c) hp

theorem register_of_waiting {b : Board σ} (hb : b.isBound = false) (hp : b.policy = .lastWriteWins)
    (r : Registry) : (b.register r).answer = .buffered b.pending.length := by
  obtain ⟨rs, hw⟩ := exists_waiting hb
  rw [hw, hp]
  rfl

/-- A run that ends with a single slot leaves in it what a single slot without any change of policy
has there: the newest registry since the last drain. -/
theorem single_slot (p : Policy) (calls : List (Call σ))
    (hp : ((withPolicy p).run calls : Board σ).policy = .lastWriteWins) :
    let b : Board σ := (withPolicy p).run calls
    let slot : Board σ := (withPolicy .lastWriteWins).run (withoutPolicies calls)
    (attempts calls = [] →
      b.pending = slot.pending ∧
        b.pending = (registered (sinceDrain calls)).getLast?.toList ∧
        (∀ r, (b.register r).answer = .buffered b.pending.length) ∧
        ∀ sink later, deliveries (b.acts (.bind sink :: later)) =
          deliveries (slot.acts (.bind sink :: later))) ∧
      b.pending.length ≤ 1 ∧ ∀ c, (b.act c).displaced ≤ 1 := by
  intro b slot
  have hstart : (withPolicy p : Board σ).pending.length ≤ 1 := Nat.zero_le 1
  have hle : b.pending.length ≤ 1 := run_pending_le_one (fun _ => hstart) calls hp
  refine ⟨fun hc => ?_, hle, fun c => ?_⟩
  · have hslot : attempts (withoutPolicies calls) = [] := (attempts_withoutPolicies calls).trans hc
    have hb : b = ⟨.waiting (newest calls).toList, .lastWriteWins⟩ :=
      eq_slot_of_endsWith (run_endsWith p hc) hp
    have hs : slot = ⟨.waiting (newest (withoutPolicies calls)).toList, .lastWriteWins⟩ :=
      eq_slot_of_endsWith (run_endsWith .lastWriteWins hslot) (policy_withoutPolicies _ calls)
    rw [newest_withoutPolicies] at hs
    have heq : b = slot := hb.trans hs.symm
    have hwaits : b.isBound = false := hb ▸ rfl
    refine ⟨congrArg Board.pending heq, congrArg Board.pending hb,
      register_of_waiting hwaits hp, fun sink later => ?_⟩
    rw [heq]
  · obtain ⟨hlost, -⟩ := flow b c
    have hd : (b.act c).displaced ≤ (b.act c).lossCount := Nat.le_add_right _ _
    omega

theorem single_slot_after_queue :
    let calls : List (Call Nat) :=
      [.register .empty, .drain, .setPolicy .accumulate, .register (.ofList [("a", [])]),
        .load ⟨⟨[], "T"⟩, .ofList [("b", [])]⟩, .setPolicy .lastWriteWins]
    let b : Board Nat := (withPolicy .lastWriteWins).run calls
    b.policy = .lastWriteWins ∧ attempts calls = [] ∧
      b.pending = [.ofList [("b", [])]] ∧ (b.register .empty).answer = .buffered 1 := by
  intro calls b
  have hp : b.policy = .lastWriteWins := rfl
  obtain ⟨hfree, -⟩ := single_slot .lastWriteWins calls hp
  obtain ⟨-, hpending, hanswer, -⟩ := hfree rfl
  refine ⟨hp, rfl, hpending, ?_⟩
  rw [hanswer]
  exact congrArg (fun rs => Handoff.buffered rs.length) hpending

end Implementors.Board
