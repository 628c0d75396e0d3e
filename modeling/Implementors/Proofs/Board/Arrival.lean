import Implementors.Proofs.Board.History
import Implementors.Proofs.Session.Delivery

/-! Fragments and the sink may come in any order. A queue delivers the same registries wherever
among the loads its sink is bound; a single slot loses those before the last that it buffered. -/
namespace Implementors

open Board

/-- What a policy leaves of registries that come in while nothing is bound. -/
def Policy.keep : Policy → List Registry → List Registry
  | .accumulate, rs => rs
  | .lastWriteWins, rs => rs.drop (rs.length - 1)

namespace Board

variable {σ : Type}

/-- The first `k` fragments are loaded before the sink is bound, the others after. -/
def schedule (fs : List Fragment) (k : Nat) (sink : σ) : List (Call σ) :=
  (fs.take k).map .load ++ .bind sink :: (fs.drop k).map .load

/-- The answers to the bindings of a run. -/
def bindReplies (h : List (Act σ)) : List Reply :=
  h.filterMap fun a =>
    match a.call with
    | .bind _ => some a.outcome.answer
    | _ => none

/-- A waiting board that kept what came in goes on doing so. -/
theorem load_kept (p : Policy) (seen : List Registry) (f : Fragment) :
    let b : Board σ := ⟨.waiting (p.keep seen), p⟩
    (b.load f).state = ⟨.waiting (p.keep (seen ++ [f.implementors])), p⟩ ∧
      (b.load f).deliveries = [] := by
  cases p with
  | accumulate => exact ⟨rfl, rfl⟩
  | lastWriteWins =>
    have hk : Policy.lastWriteWins.keep (seen ++ [f.implementors]) = [f.implementors] := by
      simp [Policy.keep]
    rw [hk]
    exact ⟨rfl, rfl⟩

/-- Loads that find no sink leave what the policy keeps, and nothing reaches a sink. -/
theorem loads_kept (p : Policy) (seen : List Registry) (fs : List Fragment) :
    let b : Board σ := ⟨.waiting (p.keep seen), p⟩
    b.run (fs.map .load) = ⟨.waiting (p.keep (seen ++ fs.map Fragment.implementors)), p⟩ ∧
      deliveries (b.acts (fs.map .load)) = [] := by
  induction fs generalizing seen with
  | nil => exact ⟨by simp [run], rfl⟩
  | cons f fs ih =>
    intro b
    obtain ⟨hs, hd⟩ := @load_kept σ p seen f
    obtain ⟨hrun, hdel⟩ := ih (seen ++ [f.implementors])
    have hstep : (b.step (.load f)).state =
        ⟨.waiting (p.keep (seen ++ [f.implementors])), p⟩ := hs
    constructor
    · change ((b.step (.load f)).state).run (fs.map .load) = _
      rw [hstep, hrun, List.append_assoc]
      rfl
    · change (b.load f).deliveries ++ deliveries ((b.step (.load f)).state.acts (fs.map .load)) = []
      rw [hstep, hdel, hd]
      rfl

/-- Loads that find a sink reach it one by one. -/
theorem loads_bound (p : Policy) (sink : σ) (fs : List Fragment) :
    let b : Board σ := ⟨.bound sink, p⟩
    deliveries (b.acts (fs.map .load)) = fs.map fun f => (sink, f.implementors) := by
  induction fs with
  | nil => rfl
  | cons f fs ih => exact congrArg ((sink, f.implementors) :: ·) ih

theorem bindReplies_loads (b : Board σ) (fs : List Fragment) :
    bindReplies (b.acts (fs.map .load)) = [] := by
  induction fs generalizing b with
  | nil => rfl
  | cons f fs ih => exact ih (b.step (.load f)).state

/-- What a schedule delivers, and what its binding answers. -/
theorem schedule_outcome (p : Policy) (fs : List Fragment) (k : Nat) (sink : σ) :
    let h := (withPolicy p).acts (schedule fs k sink)
    let kept := p.keep ((fs.take k).map Fragment.implementors)
    bindReplies h = [.bound kept.length] ∧
      deliveries h = (kept ++ (fs.drop k).map Fragment.implementors).map fun r => (sink, r) := by
  intro h kept
  let start : Board σ := withPolicy p
  let bound : Board σ := ⟨.bound sink, p⟩
  have hstart : start = ⟨.waiting (p.keep []), p⟩ := by cases p <;> rfl
  obtain ⟨hrun, hdel⟩ := @loads_kept σ p [] (fs.take k)
  rw [← hstart, List.nil_append] at hrun
  rw [← hstart] at hdel
  have hacts : h = start.acts ((fs.take k).map .load) ++
      act ⟨.waiting kept, p⟩ (.bind sink) :: bound.acts ((fs.drop k).map .load) := by
    change start.acts (_ ++ _ :: _) = _
    rw [acts_append, hrun]
    rfl
  constructor
  · have hb := bindReplies_loads bound (fs.drop k)
    have hs := bindReplies_loads start (fs.take k)
    simp only [bindReplies] at hb hs ⊢
    rw [hacts, List.filterMap_append, List.filterMap_cons, hs, hb]
    rfl
  · have hd := loads_bound p sink (fs.drop k)
    simp only [deliveries] at hdel hd ⊢
    rw [hacts, List.flatMap_append, List.flatMap_cons, hdel, hd, List.map_append, List.map_map]
    rfl

theorem received_of_deliveries [DecidableEq σ] {h : List (Act σ)} {sink : σ} {rs : List Registry}
    (hd : deliveries h = rs.map fun r => (sink, r)) : received h sink = rs := by
  rw [received, hd, portion_self]

/-- Wherever among the loads the sink is bound, a queue delivers all registries in their order, so
an index keeps them behind what it had and shows the same lists. A single slot delivers the last of
those before, and all after. -/
theorem received_schedule [DecidableEq σ] (fs : List Fragment) (k : Nat) (hk : k ≤ fs.length)
    (sink : σ) (i : Index) :
    let rs := fs.map Fragment.implementors
    let queue := (withPolicy .accumulate).acts (schedule fs k sink)
    let slot := (withPolicy .lastWriteWins).acts (schedule fs k sink)
    let viewed := Session.run ⟨.board (withPolicy .accumulate), [⟨Index.label, .index i⟩]⟩
      ((schedule fs k 0).map .call)
    bindReplies queue = [.bound k] ∧ received queue sink = rs ∧
      viewed.received 0 = some (i.received ++ rs) ∧
      viewed.lists 0 = .lists (rs.foldl Index.receive i).lists ∧
      bindReplies slot = [.bound (min k 1)] ∧ received slot sink = rs.drop (k - 1) := by
  intro rs queue slot viewed
  have htake : ((fs.take k).map Fragment.implementors).length = k := by
    rw [List.length_map, List.length_take_of_le hk]
  have hsplit : (fs.take k).map Fragment.implementors ++ (fs.drop k).map Fragment.implementors =
      rs := by
    rw [← List.map_append, List.take_append_drop]
  obtain ⟨hqueue, hqueued⟩ := schedule_outcome .accumulate fs k sink
  obtain ⟨hslot, hslotted⟩ := schedule_outcome .lastWriteWins fs k sink
  obtain ⟨-, hviewed⟩ := schedule_outcome .accumulate fs k 0
  simp only [Policy.keep, htake, hsplit] at hqueue hqueued hviewed
  simp only [Policy.keep, List.length_drop, htake] at hslot hslotted
  refine ⟨hqueue, received_of_deliveries hqueued, ?_, ?_, ?_, ?_⟩
  · rw [Session.received_run_calls, received_of_deliveries hviewed]
    rfl
  · have hs : [(⟨Index.label, .index i⟩ : Sink)][0]? = some ⟨Index.label, .index i⟩ := rfl
    rw [Session.run_calls_index _ _ _ hs, received_of_deliveries hviewed]
  · have hmin : k - (k - 1) = min k 1 := by omega
    rw [← hmin]
    exact hslot
  · have hdrop : ((fs.take k).map Fragment.implementors).drop (k - 1) ++
        (fs.drop k).map Fragment.implementors = rs.drop (k - 1) := by
      rw [← hsplit, List.drop_append_of_le_length (by omega)]
    rw [← hdrop]
    exact received_of_deliveries hslotted

theorem received_schedule_two :
    let fs : List Fragment :=
      [⟨⟨[], "T"⟩, .empty⟩, ⟨⟨[], "T"⟩, Registry.ofList [("a", [])]⟩, ⟨⟨["m"], "U"⟩, .empty⟩]
    let rs := fs.map Fragment.implementors
    let queue := (withPolicy .accumulate).acts (schedule fs 2 3)
    let slot := (withPolicy .lastWriteWins).acts (schedule fs 2 3)
    let viewed := Session.run ⟨.board (withPolicy .accumulate), [⟨Index.label, .index {}⟩]⟩
      ((schedule fs 2 0).map .call)
    2 ≤ fs.length ∧ bindReplies queue = [.bound 2] ∧ received queue 3 = rs ∧
      viewed.received 0 = some rs ∧ viewed.lists 0 = .lists (rs.foldl Index.receive {}).lists ∧
      bindReplies slot = [.bound 1] ∧ received slot 3 = rs.drop 1 :=
  ⟨by decide, received_schedule _ 2 (by decide) 3 {}⟩

end Board
end Implementors
