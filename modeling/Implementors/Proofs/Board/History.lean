import Implementors.Board

/-! Runs of a board, and what can be told from them: which registries came in, where each went,
and how many were lost. -/
namespace Implementors

def Handoff.displaced : Handoff → Nat
  | delivered => 0
  | buffered n => n

namespace Board

variable {σ : Type}

/-- One operation of a run: the board that it finds, the operation, and what comes of it. -/
structure Act (σ : Type) where
  before : Board σ
  call : Call σ
  outcome : Outcome σ (Board σ) Reply

def act (b : Board σ) (c : Call σ) : Act σ := ⟨b, c, b.step c⟩

def acts (b : Board σ) : List (Call σ) → List (Act σ)
  | [] => []
  | c :: cs => b.act c :: acts (b.step c).state cs

/-- The board after a run. -/
def run (b : Board σ) (calls : List (Call σ)) : Board σ :=
  calls.foldl (fun b c => (b.step c).state) b

theorem acts_append (b : Board σ) (cs ds : List (Call σ)) :
    b.acts (cs ++ ds) = b.acts cs ++ (b.run cs).acts ds := by
  induction cs generalizing b with
  | nil => rfl
  | cons c cs ih => exact congrArg (b.act c :: ·) (ih (b.step c).state)

/-- The registry that a call hands to the board. -/
def Call.registered : Call σ → List Registry
  | .register r => [r]
  | .load f => [f.implementors]
  | .setPolicy _ | .drain | .bind _ => []

def registered (calls : List (Call σ)) : List Registry := calls.flatMap Call.registered

namespace Act

def drained (a : Act σ) : List Registry :=
  match a.outcome.answer with
  | .drained rs => rs
  | _ => []

/-- The sink that is bound by this operation. -/
def boundSink (a : Act σ) : List σ :=
  match a.call, a.outcome.answer with
  | .bind sink, .bound _ => [sink]
  | _, _ => []

/-- The registries that its answer tells to be displaced. -/
def displaced (a : Act σ) : Nat :=
  match a.outcome.answer with
  | .handoff h => h.displaced
  | _ => 0

/-- The registries but one that a change to a single slot finds. -/
def dropped (a : Act σ) : Nat :=
  match a.call with
  | .setPolicy .lastWriteWins => a.before.pending.length - 1
  | _ => 0

/-- What leaves the board by this operation, to its caller or to its sink. -/
def handedOn (a : Act σ) : List Registry := a.drained ++ a.outcome.deliveries.map Prod.snd

end Act

def drained (h : List (Act σ)) : List Registry := h.flatMap Act.drained

def deliveries (h : List (Act σ)) : List (σ × Registry) := h.flatMap fun a => a.outcome.deliveries

/-- What a sink gets of some deliveries. -/
def portion [DecidableEq σ] (ds : List (σ × Registry)) (sink : σ) : List Registry :=
  (ds.filter fun d => d.1 = sink).map Prod.snd

theorem portion_eq_map [DecidableEq σ] {ds : List (σ × Registry)} {sink : σ}
    (h : ∀ d ∈ ds, d.1 = sink) : portion ds sink = ds.map Prod.snd := by
  rw [portion, List.filter_eq_self.mpr fun d hd => decide_eq_true (h d hd)]

theorem portion_self [DecidableEq σ] (rs : List Registry) (sink : σ) :
    portion (rs.map fun r => (sink, r)) sink = rs := by
  rw [portion_eq_map]
  · rw [List.map_map]
    exact List.map_id rs
  · intro d hm
    obtain ⟨r, -, rfl⟩ := List.mem_map.mp hm
    rfl

theorem portion_eq_nil [DecidableEq σ] {ds : List (σ × Registry)} {sink : σ}
    (h : ∀ d ∈ ds, d.1 ≠ sink) : portion ds sink = [] := by
  rw [portion, List.filter_eq_nil_iff.mpr, List.map_nil]
  intro d hd he
  exact h d hd (of_decide_eq_true he)

theorem portion_other [DecidableEq σ] (rs : List Registry) {sink other : σ} (hne : other ≠ sink) :
    portion (rs.map fun r => (sink, r)) other = [] := by
  apply portion_eq_nil
  intro d hd
  obtain ⟨r, -, rfl⟩ := List.mem_map.mp hd
  exact hne.symm

/-- What a sink received through the board. -/
def received [DecidableEq σ] (h : List (Act σ)) (sink : σ) : List Registry :=
  portion (deliveries h) sink

/-- The sinks whose binding succeeded. -/
def boundSinks (h : List (Act σ)) : List σ := h.flatMap Act.boundSink

/-- The policies in force at the start and after each operation. -/
def policies (b : Board σ) (h : List (Act σ)) : List Policy :=
  b.policy :: h.map fun a => a.outcome.state.policy

end Board
end Implementors
