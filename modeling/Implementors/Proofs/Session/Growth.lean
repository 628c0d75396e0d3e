import Implementors.Proofs.Index.Assembly
import Implementors.Proofs.Session.Delivery

/-! The lists of an index in a session. Whatever the session does, an index only gets further
registries, by hand or through a board, and its lists only grow behind what they showed. -/
namespace Implementors.Session

def index? (s : Session) (sink : Nat) : Option Index := s.sinks[sink]?.bind Sink.index?

/-- The steps that do not add to the types that the page shows inline. -/
def Step.keepsInlined (sink : Nat) : Step → Bool
  | .inline other _ => other != sink
  | _ => true

/-- All that happens to a sink from one session to another is that it gets some registries. -/
def Gains (before after : Session) (sink : Nat) (rs : List Registry) : Prop :=
  after.sinks[sink]? = before.sinks[sink]?.map (rs.foldl Sink.receive)

theorem gains_of_sinks_eq {before after : Session} (h : after.sinks = before.sinks) (sink : Nat) :
    before.Gains after sink [] := by
  rw [Gains, h]
  exact Option.map_id'.symm

theorem Gains.trans {s t u : Session} {sink : Nat} {rs qs : List Registry} (h : s.Gains t sink rs)
    (h' : t.Gains u sink qs) : s.Gains u sink (rs ++ qs) := by
  rw [Gains] at *
  rw [h', h, Option.map_map]
  congr 1
  funext k
  exact List.foldl_append.symm

theorem gains_absorb (s : Session) (o : Outcome Nat Host Reply) (sink : Nat) :
    s.Gains (s.absorb o).1 sink (Board.portion o.deliveries sink) := by
  rw [Gains, absorb_fst]
  exact deliver_sinks s o.deliveries sink

/-- A step on one sink does nothing to another. -/
theorem gains_modifySink_other (s : Session) {other sink : Nat} (h : other ≠ sink)
    (f : Sink → Sink) : s.Gains (s.modifySink other f) sink [] := by
  rw [Gains, modifySink, List.getElem?_modify]
  simp only [if_neg h]
  rfl

theorem gains_feed (s : Session) (other sink : Nat) (r : Registry) :
    s.Gains (s.modifySink other (·.receive r)) sink (Board.portion [(other, r)] sink) := by
  by_cases h : other = sink
  · have hone : Board.portion [(other, r)] sink = [r] := h ▸ Board.portion_self [r] other
    rw [Gains, modifySink, List.getElem?_modify, hone]
    simp only [if_pos h]
    rfl
  · have hnone : Board.portion [(other, r)] sink = [] := Board.portion_other [r] (Ne.symm h)
    rw [hnone]
    exact gains_modifySink_other s h _

/-- What a step hands to sinks, by hand or through a board. -/
def handedOver (s : Session) : Step → List (Nat × Registry)
  | .call c => (s.callHost c).deliveries
  | .loadScript path source =>
    match Fragment.ofScript path source with
    | .error _ => []
    | .ok f => (s.callHost (.load f)).deliveries
  | .remove => (removeBoard s.host).deliveries
  | .install plugin =>
    (onViewer s.host fun v => (v.install plugin).mapAnswer replyOfInstall).deliveries
  | .update => (onViewer s.host fun v => v.update.mapAnswer fun _ => .done).deliveries
  | .feed sink r => [(sink, r)]
  | .place _ | .inspect | .lists _ | .inline _ _ => []

theorem step_gains_portion (s : Session) {sink : Nat} {t : Step}
    (ht : t.keepsInlined sink = true) :
    s.Gains (s.step t).1 sink (Board.portion (s.handedOver t) sink) := by
  cases t with
  | call c => exact gains_absorb s _ sink
  | loadScript path source =>
    rw [step, handedOver]
    cases Fragment.ofScript path source with
    | error e => exact gains_of_sinks_eq rfl sink
    | ok f => exact gains_absorb s _ sink
  | place policy => exact gains_of_sinks_eq rfl sink
  | remove => exact gains_absorb s _ sink
  | inspect => exact gains_of_sinks_eq rfl sink
  | install plugin => exact gains_absorb s _ sink
  | update => exact gains_absorb s _ sink
  | feed other r => exact gains_feed s other sink r
  | lists other => exact gains_of_sinks_eq rfl sink
  | inline other types =>
    have hne : other ≠ sink := bne_iff_ne.mp ht
    exact gains_modifySink_other s hne _

theorem step_gains (s : Session) {sink : Nat} {t : Step} (ht : t.keepsInlined sink = true) :
    ∃ rs, s.Gains (s.step t).1 sink rs := ⟨_, s.step_gains_portion ht⟩

theorem run_gains (s : Session) {sink : Nat} {steps : List Step}
    (ht : ∀ t ∈ steps, t.keepsInlined sink = true) : ∃ rs, s.Gains (s.run steps) sink rs := by
  induction steps generalizing s with
  | nil => exact ⟨[], gains_of_sinks_eq rfl sink⟩
  | cons t ts ih =>
    obtain ⟨hfirst, hrest⟩ := List.forall_mem_cons.mp ht
    obtain ⟨rs, hstep⟩ := step_gains s hfirst
    obtain ⟨qs, hrun⟩ := ih (s.step t).1 hrest
    exact ⟨rs ++ qs, hstep.trans hrun⟩

theorem index?_eq_some_iff {s : Session} {sink : Nat} {i : Index} :
    s.index? sink = some i ↔ ∃ label, s.sinks[sink]? = some ⟨label, .index i⟩ := by
  constructor
  · intro hi
    obtain ⟨⟨label, state⟩, hk, hs⟩ := Option.bind_eq_some_iff.mp hi
    cases state with
    | index found =>
      obtain rfl : found = i := Option.some.inj hs
      exact ⟨label, hk⟩
    | _ => exact absurd hs.symm (Option.some_ne_none i)
  · rintro ⟨label, hk⟩
    exact Option.bind_eq_some_iff.mpr ⟨_, hk, rfl⟩

theorem index?_of_gains {before after : Session} {sink : Nat} {rs : List Registry}
    (h : before.Gains after sink rs) {i : Index} (hi : before.index? sink = some i) :
    after.index? sink = some (rs.foldl Index.receive i) := by
  obtain ⟨label, hk⟩ := index?_eq_some_iff.mp hi
  apply index?_eq_some_iff.mpr
  refine ⟨label, ?_⟩
  rw [h, hk, Option.map_some, Sink.foldl_receive_index]

/-- Further registries leave in place what an index shows, however many come. In a session, nothing
but further registries ever comes to an index, as long as nothing is added to its inlined types. -/
theorem lists_only_grow (s : Session) (sink : Nat) (i : Index) (steps : List Step)
    (hi : s.index? sink = some i) (ht : ∀ t ∈ steps, t.keepsInlined sink = true) :
    (∀ rs : List Registry, (rs.foldl Index.receive i).lists.Extends i.lists) ∧
      ∃ j : Index, (s.run steps).index? sink = some j ∧ j.ownLibrary = i.ownLibrary ∧
        j.inlined = i.inlined ∧ i.received <+: j.received ∧
        (s.run steps).lists sink = .lists j.lists ∧ j.lists.Extends i.lists := by
  refine ⟨i.lists_foldl_receive_extends, ?_⟩
  obtain ⟨rs, hgains⟩ := run_gains s ht
  have hj := index?_of_gains hgains hi
  have hlists : (s.run steps).lists sink = .lists (rs.foldl Index.receive i).lists := by
    rw [lists]
    rw [index?] at hj
    rw [hj]
  refine ⟨_, hj, ?_, ?_, ?_, hlists, i.lists_foldl_receive_extends rs⟩
  · rw [Index.foldl_receive]
  · rw [Index.foldl_receive]
  · rw [Index.foldl_receive]
    exact List.prefix_append _ _

theorem lists_only_grow_board :
    let shown : Descriptor := ⟨"c", true, ["C"]⟩
    let fed : Registry := .ofList [("dep", [⟨"b", true, ["B"]⟩, ⟨"d", true, ["D"]⟩])]
    let waiting : Registry := .ofList [("a", [⟨"e", false, []⟩])]
    let late : Registry := .ofList [("a", [⟨"again", true, ["C"]⟩])]
    let i : Index := { inlined := ["B"], received := [.ofList [("dep", [shown])]] }
    let s : Session := ⟨.board {}, [⟨Index.label, .index i⟩]⟩
    let steps : List Step :=
      [.feed 0 fed, .call (.register waiting), .call (.bind 0), .call (.register late)]
    s.index? 0 = some i ∧ (∀ t ∈ steps, t.keepsInlined 0 = true) ∧
      i.lists = ⟨[], [⟨"dep", shown⟩]⟩ ∧
      (s.run steps).lists 0 = .lists
        ⟨[⟨"a", ⟨"e", false, []⟩⟩], [⟨"dep", shown⟩, ⟨"dep", ⟨"d", true, ["D"]⟩⟩]⟩ := by
  intro shown fed waiting late i s steps
  have hi : s.index? 0 = some i := rfl
  have ht : ∀ t ∈ steps, t.keepsInlined 0 = true := by decide
  obtain ⟨-, j, hj, -, -, -, hlists, -⟩ := lists_only_grow s 0 i steps hi ht
  have hall : (s.run steps).index? 0 = some ([fed, waiting, late].foldl Index.receive i) := rfl
  obtain rfl : j = [fed, waiting, late].foldl Index.receive i :=
    Option.some.inj (hj.symm.trans hall)
  exact ⟨hi, ht, rfl, hlists⟩

end Implementors.Session
