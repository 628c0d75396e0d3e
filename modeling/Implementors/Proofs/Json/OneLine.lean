import Implementors.Registry.Wire

/-! Texts in one line. Literals escape the line feed, and the compact layout adds none; whatever is
refused in such a text is refused on line one. -/
namespace Implementors

namespace Json

theorem Reader.readAll_line {α : Type} {reader : Reader α} {text : List Char} {error : Error}
    (hn : '\n' ∉ text) (h : reader.readAll text = .error error) : error.line = 1 := by
  unfold readAll at h
  split at h
  · simp only [Except.error.injEq] at h
    exact h ▸ Fault.within_line hn _
  · split at h
    · simp at h
    · simp only [Except.error.injEq] at h
      exact h ▸ Fault.within_line hn _

theorem hexDigit_ne_feed {n : Nat} (h : n < 16) : hexDigit n ≠ '\n' := by
  have : ∀ k : Fin 16, hexDigit k ≠ '\n' := by decide
  exact this ⟨n, h⟩

theorem no_feed_escape (c : Char) : '\n' ∉ escape c := by
  unfold escape
  split
  iterate 7 decide
  · next hn _ _ =>
    split
    · next hc =>
      have hhigh := (hexDigit_ne_feed (show c.toNat / 16 < 16 by omega)).symm
      have hlow := (hexDigit_ne_feed (show c.toNat % 16 < 16 by omega)).symm
      simp [hhigh, hlow]
    · simpa using Ne.symm hn

theorem no_feed_quote (s : String) : '\n' ∉ quote s := by
  have hs : '\n' ∉ s.toList.flatMap escape := by
    intro hm
    obtain ⟨c, -, hc⟩ := List.mem_flatMap.mp hm
    exact no_feed_escape c hc
  simp [quote, hs]

namespace Layout

theorem no_feed_bracketed {opening closing : Char} (ho : opening ≠ '\n') (hc : closing ≠ '\n')
    (depth : Nat) {items : List (List Char)} (h : ∀ item ∈ items, '\n' ∉ item) :
    '\n' ∉ compact.bracketed depth opening closing items := by
  cases items with
  | nil => simp [bracketed, ho.symm, hc.symm]
  | cons item items =>
    obtain ⟨hi, hs⟩ := List.forall_mem_cons.mp h
    simpa [bracketed, compact, ho.symm, hc.symm, hi] using hs

theorem no_feed_list {α : Type} (depth : Nat) {write : Nat → α → List Char} {as : List α}
    (h : ∀ a ∈ as, '\n' ∉ write (depth + 1) a) : '\n' ∉ compact.list depth write as := by
  refine no_feed_bracketed (by decide) (by decide) depth fun item hm => ?_
  obtain ⟨a, ha, rfl⟩ := List.mem_map.mp hm
  exact h a ha

theorem no_feed_object (depth : Nat) {members : List (List Char)} (h : ∀ m ∈ members, '\n' ∉ m) :
    '\n' ∉ compact.object depth members :=
  no_feed_bracketed (by decide) (by decide) depth h

theorem no_feed_member (key : String) {value : List Char} (h : '\n' ∉ value) :
    '\n' ∉ compact.member key value := by
  simp [member, compact, no_feed_quote, h]

end Layout
end Json

open Json

theorem Descriptor.no_feed_write (depth : Nat) (d : Descriptor) :
    '\n' ∉ d.write .compact depth := by
  have htypes : '\n' ∉ Layout.compact.list (depth + 1) (fun _ => quote) d.types :=
    Layout.no_feed_list (depth + 1) fun t _ => no_feed_quote t
  have hflag : '\n' ∉ Layout.boolean d.synthetic := by
    cases d.synthetic <;> decide
  refine Layout.no_feed_object depth ?_
  simp only [List.forall_mem_cons]
  exact ⟨Layout.no_feed_member "text" (no_feed_quote d.text),
    Layout.no_feed_member "synthetic" hflag, Layout.no_feed_member "types" htypes, nofun⟩

theorem Registry.no_feed_writeList (depth : Nat) (list : List Descriptor) :
    '\n' ∉ writeList .compact depth list :=
  Layout.no_feed_list depth fun d _ => d.no_feed_write (depth + 1)

end Implementors
