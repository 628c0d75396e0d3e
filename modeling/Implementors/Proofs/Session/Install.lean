import Implementors.Proofs.Board.Slot
import Implementors.Proofs.Session.Startup

/-! What the policy plugin does to the board that it finds when it is installed. The sink stays, and
so does all that waits, unless the plugin makes a single slot of a queue: then only the newest
registry stays. -/
namespace Implementors

theorem Policy.keep_eq_self_iff (p : Policy) (rs : List Registry) :
    p.keep rs = rs ↔ p = .accumulate ∨ rs.length ≤ 1 := by
  cases p with
  | accumulate => exact iff_of_true rfl (.inl rfl)
  | lastWriteWins =>
    show rs.drop (rs.length - 1) = rs ↔ _
    constructor
    · intro h
      have hlength := congrArg List.length h
      rw [List.length_drop] at hlength
      right
      omega
    · intro h
      have hle : rs.length ≤ 1 := h.resolve_left nofun
      have hzero : rs.length - 1 = 0 := by omega
      rw [hzero, List.drop_zero]

namespace Board

variable {σ : Type}

/-- A single slot holds no more than one registry. -/
def FitsPolicy (b : Board σ) : Prop := b.policy = .lastWriteWins → b.pending.length ≤ 1

theorem fitsPolicy_of_pending_nil {b : Board σ} (hb : b.pending = []) : b.FitsPolicy := by
  intro _
  rw [hb]
  exact Nat.zero_le 1

theorem setPolicy_of_waiting (rs : List Registry) (before p : Policy) :
    (⟨.waiting rs, before⟩ : Board σ).setPolicy p =
      { state := ⟨.waiting (p.keep rs), p⟩
        answer := ()
        log := lossOf .dropped (rs.length - (p.keep rs).length) } := by
  cases p with
  | accumulate =>
    rw [Policy.keep, Nat.sub_self]
    rfl
  | lastWriteWins =>
    have hlost : rs.length - (rs.drop (rs.length - 1)).length = rs.length - 1 := by
      rw [List.length_drop]
      omega
    rw [Policy.keep, hlost]
    rfl

theorem setPolicy_of_bound (sink : σ) (before p : Policy) :
    (⟨.bound sink, before⟩ : Board σ).setPolicy p =
      { state := ⟨.bound sink, p⟩, answer := () } := by
  cases p <;> rfl

/-- All that a change of the policy does to a board. -/
theorem setPolicy_effects (b : Board σ) (p : Policy) :
    (b.setPolicy p).state.policy = p ∧ (b.setPolicy p).state.sink? = b.sink? ∧
      (b.setPolicy p).state.pending = p.keep b.pending ∧ (b.setPolicy p).deliveries = [] ∧
      (b.setPolicy p).log =
        lossOf .dropped (b.pending.length - (b.setPolicy p).state.pending.length) := by
  obtain ⟨rs | sink, before⟩ := b
  · rw [setPolicy_of_waiting]
    exact ⟨rfl, rfl, rfl, rfl, rfl⟩
  · rw [setPolicy_of_bound]
    refine ⟨rfl, rfl, ?_, rfl, rfl⟩
    exact ((p.keep_eq_self_iff []).mpr (.inr (Nat.zero_le 1))).symm

theorem setPolicy_state_eq_iff (b : Board σ) (p : Policy) :
    (b.setPolicy p).state = { b with policy := p } ↔ p = .accumulate ∨ b.pending.length ≤ 1 := by
  obtain ⟨rs | sink, before⟩ := b
  · rw [setPolicy_of_waiting, ← p.keep_eq_self_iff]
    constructor
    · intro h
      exact Binding.waiting.inj (congrArg Board.binding h)
    · intro h
      exact congrArg (fun kept => (⟨.waiting kept, p⟩ : Board σ)) h
  · rw [setPolicy_of_bound]
    exact iff_of_true rfl (.inr (Nat.zero_le 1))

end Board

namespace Session

open Board (Call)

def Step.installsPolicy : Step → Bool
  | .install (.policy _) => true
  | _ => false

/-- A viewer before the policy plugin comes. -/
structure Unplugged (v : Viewer Nat) : Prop where
  hasPolicyPlugin : v.hasPolicyPlugin = false
  fitsPolicy : v.page.boardOrNew.FitsPolicy

theorem fitsPolicy_callPage {p : Page Nat} (hp : p.boardOrNew.FitsPolicy) (labelOf : Nat → String)
    (c : Call Nat) : (callPage labelOf p c).state.boardOrNew.FitsPolicy := by
  rcases callPage_board labelOf p c with ⟨hs, -⟩ | ⟨-, -, hs, -⟩
  · rw [hs]
    exact Board.step_pending_le_one p.boardOrNew c
  · rw [hs]
    exact hp

theorem unplugged_callPage {v : Viewer Nat} (hv : Unplugged v) (labelOf : Nat → String)
    (c : Call Nat) : Unplugged { v with page := (callPage labelOf v.page c).state } :=
  ⟨hv.hasPolicyPlugin, fitsPolicy_callPage hv.fitsPolicy labelOf c⟩

theorem unplugged_update {v : Viewer Nat} (hv : Unplugged v) : Unplugged v.update.state := by
  obtain ⟨page, hasPolicy, index, isStarted⟩ := v
  cases isStarted with
  | true => exact hv
  | false =>
    cases index with
    | none => exact ⟨hv.hasPolicyPlugin, hv.fitsPolicy⟩
    | some sink =>
      have hbind := fitsPolicy_callPage hv.fitsPolicy (fun _ => Index.label) (.bind sink)
      exact ⟨hv.hasPolicyPlugin, hbind⟩

theorem unplugged_install_index {v : Viewer Nat} (hv : Unplugged v) (sink : Nat) :
    Unplugged (v.install (.index sink)).state := by
  rw [Viewer.install]
  split
  · exact hv
  · exact ⟨hv.hasPolicyPlugin, hv.fitsPolicy⟩

theorem absorb_host (s : Session) (o : Outcome Nat Host Reply) : (s.absorb o).1.host = o.state :=
  congrArg Session.host (absorb_fst s o)

/-- No step but the installation itself brings the plugin, and none leaves more than one registry in
a single slot. -/
theorem step_unplugged {s : Session} {v : Viewer Nat} (hs : s.host = .viewer v) (hv : Unplugged v)
    {t : Step} (ht : t.installsPolicy = false) :
    ∃ next, (s.step t).1.host = .viewer next ∧ Unplugged next := by
  have hcall (c : Call Nat) : (s.absorb (s.callHost c)).1.host =
      .viewer { v with page := (callPage s.label v.page c).state } := by
    rw [absorb_host, callHost, hs]
    rfl
  have hviewer (f : Viewer Nat → Outcome Nat (Viewer Nat) Reply) :
      (s.absorb (onViewer s.host f)).1.host = .viewer (f v).state := by
    rw [absorb_host, hs]
    rfl
  cases t with
  | call c => exact ⟨_, hcall c, unplugged_callPage hv s.label c⟩
  | loadScript path source =>
    rw [step]
    cases Fragment.ofScript path source with
    | error e => exact ⟨v, hs, hv⟩
    | ok f => exact ⟨_, hcall (.load f), unplugged_callPage hv s.label (.load f)⟩
  | place policy =>
    rw [step, hs]
    exact ⟨_, rfl, hv.hasPolicyPlugin, Board.fitsPolicy_of_pending_nil rfl⟩
  | remove =>
    rw [step, absorb_host, hs]
    exact ⟨_, rfl, hv.hasPolicyPlugin, Board.fitsPolicy_of_pending_nil rfl⟩
  | inspect => exact ⟨v, hs, hv⟩
  | install plugin =>
    cases plugin with
    | policy p => exact absurd ht.symm Bool.false_ne_true
    | index sink => exact ⟨_, hviewer _, unplugged_install_index hv sink⟩
  | update => exact ⟨_, hviewer _, unplugged_update hv⟩
  | feed sink r => exact ⟨v, hs, hv⟩
  | lists sink => exact ⟨v, hs, hv⟩
  | inline sink types => exact ⟨v, hs, hv⟩

theorem run_unplugged {s : Session} {v : Viewer Nat} (hs : s.host = .viewer v) (hv : Unplugged v)
    {steps : List Step} (ht : ∀ t ∈ steps, t.installsPolicy = false) :
    ∃ next, (s.run steps).host = .viewer next ∧ Unplugged next := by
  induction steps generalizing s v with
  | nil => exact ⟨v, hs, hv⟩
  | cons t ts ih =>
    obtain ⟨hfirst, hrest⟩ := List.forall_mem_cons.mp ht
    obtain ⟨next, hhost, hnext⟩ := step_unplugged hs hv hfirst
    exact ih hhost hnext hrest

/-- The plugin sets the policy of the board, or of the one that it makes. -/
theorem step_install_policy {s : Session} {v : Viewer Nat} (hs : s.host = .viewer v)
    (hv : Unplugged v) (p : Policy) :
    s.step (.install (.policy p)) =
      (⟨.viewer { v with page := ⟨some (s.boardOrNew.setPolicy p).state⟩, hasPolicyPlugin := true },
          s.sinks⟩, .done, (s.boardOrNew.setPolicy p).log) := by
  have hmade : (v.page.board.getD (.withPolicy p)).setPolicy p = s.boardOrNew.setPolicy p := by
    rw [boardOrNew_of_viewer hs]
    obtain ⟨⟨_ | b⟩, _, _, _⟩ := v
    · cases p <;> rfl
    · rfl
  have hplain : ¬ v.hasPolicyPlugin = true := by
    rw [hv.hasPolicyPlugin]
    exact Bool.false_ne_true
  have hinstall : v.install (.policy p) =
      { state := { v with page := ⟨some (s.boardOrNew.setPolicy p).state⟩, hasPolicyPlugin := true }
        answer := .ok ()
        log := (s.boardOrNew.setPolicy p).log } := by
    rw [Viewer.install, if_neg hplain, hmade]
  rw [step, hs, onViewer, hinstall]
  rfl

/-- When the policy plugin is installed for the first time, it finds the board that the steps before
have left, or an empty one. The sink stays bound, nothing is delivered, and what waits stays as far
as the policy keeps it. So only the policy changes, unless a queue with several registries becomes a
single slot. -/
theorem install_policy_keeps (sinks : List Sink) (steps : List Step) (p : Policy)
    (ht : ∀ t ∈ steps, t.installsPolicy = false) :
    let start : Session := ⟨.viewer {}, sinks⟩
    let found := start.run steps
    let b := found.boardOrNew
    ∃ (v : Viewer Nat) (after : Board Nat) (log : List Event), found.host = .viewer v ∧
      found.step (.install (.policy p)) =
        (⟨.viewer { v with page := ⟨some after⟩, hasPolicyPlugin := true }, found.sinks⟩, .done,
          log) ∧
      after.policy = p ∧ after.sink? = b.sink? ∧ after.pending = p.keep b.pending ∧
      log = Board.lossOf .dropped (b.pending.length - after.pending.length) ∧
      (after = { b with policy := p } ↔
        ¬ (p = .lastWriteWins ∧ b.policy = .accumulate ∧ 2 ≤ b.pending.length)) := by
  intro start found b
  have hstart : Unplugged {} := ⟨rfl, fun _ => Nat.zero_le 1⟩
  obtain ⟨v, hv, hplain⟩ := run_unplugged (s := start) rfl hstart ht
  have hfits : b.FitsPolicy := by
    have hboard : b = v.page.boardOrNew := boardOrNew_of_viewer hv
    rw [hboard]
    exact hplain.fitsPolicy
  obtain ⟨hpolicy, hsink, hpending, -, hlog⟩ := b.setPolicy_effects p
  refine ⟨v, _, _, hv, step_install_policy hv hplain p, hpolicy, hsink, hpending, hlog, ?_⟩
  rw [b.setPolicy_state_eq_iff p]
  constructor
  · rintro (rfl | hle) ⟨hp, -, hlong⟩
    · exact absurd hp nofun
    · omega
  · intro h
    cases p with
    | accumulate => exact .inl rfl
    | lastWriteWins =>
      right
      cases hb : b.policy with
      | lastWriteWins => exact hfits hb
      | accumulate =>
        by_contra hlong
        exact h ⟨rfl, hb, by omega⟩

theorem install_policy_keeps_queue :
    let steps : List Step :=
      [.place (some .accumulate), .call (.load ⟨⟨[], "T"⟩, .empty⟩), .install (.index 0),
        .call (.register (.ofList [("a", [])]))]
    let start : Session := ⟨.viewer {}, []⟩
    let b := (start.run steps).boardOrNew
    (∀ t ∈ steps, t.installsPolicy = false) ∧ b.pending = [.empty, .ofList [("a", [])]] ∧
      ∃ after, after.pending = b.pending ∧
        ((start.run steps).step (.install (.policy .accumulate))).1.host.board? = some after := by
  intro steps start b
  have ht : ∀ t ∈ steps, t.installsPolicy = false := by decide
  obtain ⟨v, after, log, -, hstep, -, -, hpending, -, -⟩ :=
    install_policy_keeps [] steps .accumulate ht
  refine ⟨ht, rfl, after, hpending, ?_⟩
  rw [hstep]
  rfl

/-- A queue with two registries becomes a single slot, and the older one is gone. -/
theorem install_policy_drops :
    let steps : List Step :=
      [.call (.load ⟨⟨[], "T"⟩, .ofList [("a", [])]⟩), .call (.setPolicy .accumulate),
        .call (.load ⟨⟨[], "U"⟩, .ofList [("b", [])]⟩)]
    let start : Session := ⟨.viewer {}, []⟩
    let found := start.run steps
    let late := (found.step (.install (.policy .lastWriteWins))).1
    (∀ t ∈ steps, t.installsPolicy = false) ∧
      found.boardOrNew.pending = [.ofList [("a", [])], .ofList [("b", [])]] ∧
      late.boardOrNew.pending = [.ofList [("b", [])]] ∧
      late.boardOrNew.pending ≠ found.boardOrNew.pending := by
  intro steps start found late
  have hfound : found.boardOrNew.pending = [.ofList [("a", [])], .ofList [("b", [])]] := rfl
  have hlate : late.boardOrNew.pending = [.ofList [("b", [])]] := rfl
  refine ⟨by decide, hfound, hlate, ?_⟩
  rw [hfound, hlate]
  intro h
  exact absurd (congrArg List.length h) (by decide)

end Session
end Implementors
