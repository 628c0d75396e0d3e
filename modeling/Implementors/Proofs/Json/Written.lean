import Implementors.Json.Layout
import Implementors.Proofs.Json.Takes

/-! Written lists and objects are taken for what was written, in every layout that adds nothing
but blanks. -/
namespace Implementors.Json.Layout

structure Plain (layout : Layout) : Prop where
  lineBreak : ∀ n, Blanks (layout.lineBreak n)
  colon : ∃ before after,
    Blanks before ∧ Blanks after ∧ layout.colon = before ++ ':' :: after

theorem plain_compact : compact.Plain := ⟨fun _ => rfl, [], [], rfl, rfl, rfl⟩

theorem plain_pretty : pretty.Plain := by
  refine ⟨fun n => ?_, [], [' '], rfl, rfl, rfl⟩
  refine List.all_eq_true.mpr fun c hc => ?_
  rcases List.mem_cons.mp hc with rfl | hc
  · rfl
  · exact List.eq_of_mem_replicate hc ▸ rfl

variable {α β : Type} {layout : Layout}

/-- The further items between brackets, and the closing one. -/
def furtherItems (layout : Layout) (depth : Nat) (closing : Char) (items : List (List Char)) :
    List Char :=
  items.flatMap (fun next => ',' :: layout.lineBreak (depth + 1) ++ next) ++
    (layout.lineBreak depth ++ [closing])

theorem bracketed_cons (depth : Nat) (opening closing : Char) (item : List Char)
    (items : List (List Char)) :
    layout.bracketed depth opening closing (item :: items) =
      opening :: (layout.lineBreak (depth + 1) ++
        (item ++ furtherItems layout depth closing items)) := by
  simp [bracketed, furtherItems]

theorem furtherItems_cons (depth : Nat) (closing : Char) (item : List Char)
    (items : List (List Char)) :
    furtherItems layout depth closing (item :: items) =
      ',' :: (layout.lineBreak (depth + 1) ++ (item ++ furtherItems layout depth closing items)) := by
  simp [furtherItems]

theorem elementsText_further (hl : layout.Plain) (depth : Nat) {element : Reader α}
    {write : α → List Char} (as : List α) (h : ∀ a ∈ as, element.Takes (write a) a) :
    ElementsText element false (furtherItems layout depth ']' (as.map write)) as := by
  induction as with
  | nil => exact .done (hl.lineBreak depth)
  | cons a as ih =>
    obtain ⟨ha, has⟩ := List.forall_mem_cons.mp h
    rw [List.map_cons, furtherItems_cons]
    exact .next blanks_nil (hl.lineBreak (depth + 1)) ha (ih has)

theorem takes_list (hl : layout.Plain) (depth : Nat) {element : Reader α}
    {write : Nat → α → List Char} (as : List α)
    (h : ∀ a ∈ as, element.Takes (write (depth + 1) a) a) :
    (Reader.list element).Takes (layout.list depth write as) as := by
  cases as with
  | nil => exact Reader.takes_list (.done blanks_nil)
  | cons a as =>
    obtain ⟨ha, has⟩ := List.forall_mem_cons.mp h
    rw [list, List.map_cons, bracketed_cons]
    exact Reader.takes_list
      (.first (hl.lineBreak (depth + 1)) ha (elementsText_further hl depth as has))

/-- Written members that a reader of members takes one after the other, from one value to
another. -/
inductive Folds (layout : Layout) (member : β → String → Reader β) :
    β → List (String × List Char) → β → Prop
  | nil (b : β) : Folds layout member b [] b
  | cons {b c d : β} {key : String} {value : List Char} {members : List (String × List Char)}
      (hv : ∀ rest, (member b key).run (layout.colon ++ (value ++ rest)) = .ok (c, rest))
      (hs : Folds layout member c members d) : Folds layout member b ((key, value) :: members) d

theorem run_afterColon (hl : layout.Plain) {reader : Reader α} {text : List Char} {a : α}
    (h : reader.Takes text a) (rest : List Char) :
    reader.afterColon.run (layout.colon ++ (text ++ rest)) = .ok (a, rest) := by
  obtain ⟨before, after, hb, ha, hc⟩ := hl.colon
  rw [hc, List.append_assoc, List.cons_append]
  exact h.afterColon hb ha rest

theorem member_eq (layout : Layout) (key : String) (value : List Char) :
    ∃ quoted, QuotedText quoted key ∧ ∀ tail,
      layout.member key value ++ tail = '"' :: (quoted ++ (layout.colon ++ value ++ tail)) := by
  obtain ⟨quoted, hq, hk⟩ := quote_eq key
  exact ⟨quoted, hk, fun tail => by simp [member, hq]⟩

theorem membersText_further (hl : layout.Plain) (depth : Nat) {member : β → String → Reader β}
    {b c : β} {members : List (String × List Char)} (h : Folds layout member b members c) :
    MembersText member false b
      (furtherItems layout depth '}' (members.map fun m => layout.member m.1 m.2)) c := by
  induction h with
  | nil b => exact .done (hl.lineBreak depth)
  | @cons b c d key value members hv hs ih =>
    obtain ⟨quoted, hk, hm⟩ := member_eq layout key value
    rw [List.map_cons, furtherItems_cons, hm]
    refine .next blanks_nil (hl.lineBreak (depth + 1)) hk (fun rest => ?_) ih
    rw [List.append_assoc]
    exact hv rest

/-- The text of a written object behind its opening brace. -/
theorem object_eq (hl : layout.Plain) (depth : Nat) {member : β → String → Reader β}
    {b c : β} {members : List (String × List Char)} (h : Folds layout member b members c) :
    ∃ text, layout.object depth (members.map fun m => layout.member m.1 m.2) = '{' :: text ∧
      MembersText member true b text c := by
  cases h with
  | nil => exact ⟨_, rfl, .done blanks_nil⟩
  | @cons b c d key value members hv hs =>
    obtain ⟨quoted, hk, hm⟩ := member_eq layout key value
    rw [object, List.map_cons, bracketed_cons, hm]
    refine ⟨_, rfl, .first (hl.lineBreak (depth + 1)) hk (fun rest => ?_)
      (membersText_further hl depth hs)⟩
    rw [List.append_assoc]
    exact hv rest

end Implementors.Json.Layout
