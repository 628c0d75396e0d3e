import Implementors.Fragment
import Implementors.Proofs.Text.Lines
import Implementors.Proofs.Text.Trim
import Mathlib.Data.List.Basic

/-! The layout of a script: blanks around its lines, the way its lines end, and lines that are no
entries put in anywhere. Only the line numbers of errors tell one layout from another. -/
namespace Implementors

/-- The same error, with another number for its line. -/
def Error.mapLine (f : Nat → Nat) : Error → Error
  | .malformedEntry n => .malformedEntry (f n)
  | .json n error => .json (f n) error
  | error => error

theorem Error.mapLine_mapLine (f g : Nat → Nat) (e : Error) :
    (e.mapLine g).mapLine f = e.mapLine fun n => f (g n) := by
  cases e <;> rfl

namespace Script

@[simp] theorem EntryFault.mapLine_onLine (f : Nat → Nat) (n : Nat) (fault : EntryFault) :
    (fault.onLine n).mapLine f = fault.onLine (f n) := by
  cases fault <;> rfl

/-- How a line ends. Only the last line of a text may do so without a line feed. -/
inductive LineEnd
  | feed
  | returnFeed
  | missing
  deriving DecidableEq

def LineEnd.text : LineEnd → List Char
  | feed => ['\n']
  | returnFeed => ['\r', '\n']
  | missing => []

/-- What a new layout does at one line: it keeps a line, with blanks on either side and another
end, or puts a line in. -/
inductive Piece
  | kept (left line right : List Char) (before after : LineEnd)
  | inserted (line : List Char) (ending : LineEnd)

/-- The text before the change. -/
def oldText : List Piece → List Char
  | [] => []
  | .kept _ line _ before _ :: ps => line ++ (before.text ++ oldText ps)
  | .inserted _ _ :: ps => oldText ps

/-- The text after the change. -/
def newText : List Piece → List Char
  | [] => []
  | .kept left line right _ after :: ps => left ++ (line ++ right) ++ (after.text ++ newText ps)
  | .inserted line ending :: ps => line ++ (ending.text ++ newText ps)

/-- The pieces are whole lines, in the text before and in the one after; what is put around a line
is blank, and what is put in as a line is no entry. -/
inductive IsLayout : List Piece → Prop
  | nil : IsLayout []
  | kept {left line right : List Char} {before after : LineEnd} {ps : List Piece}
      (hline : '\n' ∉ left ++ (line ++ right)) (hleft : left.all Text.isBlank = true)
      (hright : right.all Text.isBlank = true) (hbefore : before = .missing → oldText ps = [])
      (hafter : after = .missing → newText ps = []) (hps : IsLayout ps) :
      IsLayout (.kept left line right before after :: ps)
  | inserted {line : List Char} {ending : LineEnd} {ps : List Piece} (hline : '\n' ∉ line)
      (hentry : entryText? line = none) (hending : ending = .missing → newText ps = [])
      (hps : IsLayout ps) : IsLayout (.inserted line ending :: ps)

/-- How many lines are put in above a kept one, where `k` lines are kept before it. -/
def insertedAbove : List Piece → Nat → Nat
  | [], _ => 0
  | .inserted _ _ :: ps, k => insertedAbove ps k + 1
  | .kept _ _ _ _ _ :: _, 0 => 0
  | .kept _ _ _ _ _ :: ps, k + 1 => insertedAbove ps k

theorem mapError_mapLine {α : Type} (f g : Nat → Nat) (x : Except Error α) :
    (x.mapError (Error.mapLine g)).mapError (Error.mapLine f) =
      x.mapError (Error.mapLine fun n => f (g n)) := by
  cases x with
  | ok a => rfl
  | error e => exact congrArg Except.error (e.mapLine_mapLine f g)

/-- The number of the first line only shows in errors. -/
theorem readLines_succ (n : Nat) (r : Registry) (ls : List (List Char)) :
    readLines (n + 1) r ls = (readLines n r ls).mapError (Error.mapLine (· + 1)) := by
  induction ls generalizing n r with
  | nil => rfl
  | cons line ls ih =>
    rw [readLines, readLines]
    cases entryText? line with
    | none => exact ih (n + 1) r
    | some text =>
      dsimp only
      rcases readEntry text with fault | ⟨name, list⟩
      · exact congrArg Except.error (EntryFault.mapLine_onLine (· + 1) n fault).symm
      · exact ih (n + 1) (r.set name list)

theorem entryText?_congr {s t : List Char} (h : Text.trim s = Text.trim t) :
    entryText? s = entryText? t := by
  rw [entryText?, h, entryText?]

theorem readLines_congr (n : Nat) (r : Registry) {s t : List Char}
    (h : Text.trim s = Text.trim t) (ls : List (List Char)) :
    readLines n r (s :: ls) = readLines n r (t :: ls) := by
  rw [readLines, readLines, entryText?_congr h]

/-- The end of a line does not matter to how it is read. -/
theorem readLines_line (n : Nat) (r : Registry) {s : List Char} (hs : '\n' ∉ s) {ending : LineEnd}
    {rest : List Char} (hending : ending = .missing → rest = []) :
    readLines n r (Text.lines (s ++ (ending.text ++ rest))) =
      readLines n r (s :: Text.lines rest) := by
  cases ending with
  | feed =>
    rw [LineEnd.text, List.singleton_append, Text.lines_feed s rest hs]
    exact readLines_congr n r (Text.trim_dropReturn s) _
  | returnFeed =>
    have hr : '\n' ∉ s ++ ['\r'] := by simpa using hs
    have ht : s ++ (LineEnd.returnFeed.text ++ rest) = (s ++ ['\r']) ++ '\n' :: rest := by
      simp [LineEnd.text]
    rw [ht, Text.lines_feed _ rest hr]
    exact readLines_congr n r ((Text.trim_dropReturn _).trans (Text.trim_blanks rfl s)) _
  | missing =>
    rw [hending rfl, LineEnd.text, List.append_nil, List.append_nil]
    rcases List.eq_nil_or_concat s with rfl | ⟨_, _, rfl⟩
    · rfl
    · rw [Text.lines_of_no_feed (by simp) hs, Text.lines_nil]

/-- Counted from zero, a line stands as many lines lower as are put in above it. -/
theorem readLines_newText {ps : List Piece} (h : IsLayout ps) (r : Registry) :
    readLines 0 r (Text.lines (newText ps)) =
      (readLines 0 r (Text.lines (oldText ps))).mapError
        (Error.mapLine fun k => k + insertedAbove ps k) := by
  induction h generalizing r with
  | nil => rfl
  | @kept left line right before after ps hline hleft hright hbefore hafter hps ih =>
    have htrim : Text.trim (left ++ (line ++ right)) = Text.trim line := by
      rw [Text.trim_append hleft, Text.trim_blanks hright]
    have hold : '\n' ∉ line := fun hm => hline (by simp [hm])
    -- behind this line, both texts are read as the pieces behind it are, one line further down
    have hrest (r : Registry) : readLines 1 r (Text.lines (newText ps)) =
        (readLines 1 r (Text.lines (oldText ps))).mapError
          (Error.mapLine fun k => k + insertedAbove (.kept left line right before after :: ps) k) := by
      rw [readLines_succ, readLines_succ 0 r, ih, mapError_mapLine, mapError_mapLine]
      simp only [insertedAbove, Nat.add_right_comm]
    rw [newText, oldText, readLines_line 0 r hline hafter, readLines_line 0 r hold hbefore,
      readLines_congr 0 r htrim, readLines, readLines]
    cases entryText? line with
    | none => exact hrest r
    | some text =>
      dsimp only
      rcases readEntry text with fault | ⟨name, list⟩
      · simp [Except.mapError, insertedAbove]
      · exact hrest (r.set name list)
  | @inserted line ending ps hline hentry hending hps ih =>
    rw [newText, oldText, readLines_line 0 r hline hending, readLines]
    simp only [hentry]
    rw [readLines_succ, ih, mapError_mapLine]
    rfl

/-- Every text consists of lines, and so has the layout that keeps them all as they are. -/
theorem exists_layout (s : List Char) : ∃ ps, IsLayout ps ∧ oldText ps = s ∧ newText ps = s := by
  by_cases h : '\n' ∈ s
  · obtain ⟨line, rest, hs, hline⟩ := List.eq_append_cons_of_mem h
    have hlt : rest.length < s.length := by
      simp only [hs, List.length_append, List.length_cons]
      omega
    obtain ⟨ps, hps, hold, hnew⟩ := exists_layout rest
    refine ⟨.kept [] line [] .feed .feed :: ps, ?_, ?_, ?_⟩
    · exact .kept (by simpa using hline) rfl rfl (by simp) (by simp) hps
    · simp [oldText, LineEnd.text, hold, hs]
    · simp [newText, LineEnd.text, hnew, hs]
  · refine ⟨[.kept [] s [] .missing .missing], ?_, ?_, ?_⟩
    · exact .kept (by simpa using h) rfl rfl (fun _ => rfl) (fun _ => rfl) .nil
    · simp [oldText, LineEnd.text]
    · simp [newText, LineEnd.text]
termination_by s.length

theorem parse_newText {ps : List Piece} (h : IsLayout ps) :
    parse (String.ofList (newText ps)) =
      (parse (String.ofList (oldText ps))).mapError
        (Error.mapLine fun n => n + insertedAbove ps (n - 1)) := by
  rw [parse, parse, String.toList_ofList, String.toList_ofList, readLines_succ,
    readLines_succ 0, readLines_newText h, mapError_mapLine, mapError_mapLine]
  simp only [Nat.add_sub_cancel, Nat.add_right_comm]

/-- Any script can be laid out anew at any of its lines: with other blanks around them, other line
ends, and lines put in that are no entries. What is read is the same fragment, or else the same
error, with its line number raised by the number of lines put in above the line it tells of. -/
theorem ofScript_relaid (p : TraitPath) :
    (∀ source : String,
      ∃ ps, IsLayout ps ∧ oldText ps = source.toList ∧ newText ps = source.toList) ∧
    ∀ ps, IsLayout ps →
      Fragment.ofScript p (String.ofList (newText ps)) =
        (Fragment.ofScript p (String.ofList (oldText ps))).mapError
          (Error.mapLine fun n => n + insertedAbove ps (n - 1)) := by
  refine ⟨fun source => exists_layout source.toList, fun ps h => ?_⟩
  rw [Fragment.ofScript, Fragment.ofScript, parse_newText h]
  cases parse (String.ofList (oldText ps)) <;> rfl

/-- The third line is told as the fifth where two are put in above it. -/
theorem ofScript_relaid_two_above :
    ∃ ps, IsLayout ps ∧
      oldText ps = "// a\nimplementors[\"a\"] = [];\r\nimplementors[\"b\"] = [0];".toList ∧
      newText ps = ("// a\r\n// b\n\timplementors[\"a\"] = [];\u00A0\n\r\n" ++
        "implementors[\"b\"] = [0]; \nc").toList ∧
      Fragment.ofScript ⟨[], "T"⟩ (String.ofList (oldText ps)) =
        .error (.json 3 ⟨.wrongKind (.integer 0) .descriptor, 1, 2⟩) ∧
      Fragment.ofScript ⟨[], "T"⟩ (String.ofList (newText ps)) =
        .error (.json 5 ⟨.wrongKind (.integer 0) .descriptor, 1, 2⟩) := by
  obtain ⟨ps, hps, hold, hnew, habove⟩ : ∃ ps, IsLayout ps ∧
      oldText ps = "// a\nimplementors[\"a\"] = [];\r\nimplementors[\"b\"] = [0];".toList ∧
      newText ps = ("// a\r\n// b\n\timplementors[\"a\"] = [];\u00A0\n\r\n" ++
        "implementors[\"b\"] = [0]; \nc").toList ∧ insertedAbove ps 2 = 2 := by
    refine ⟨[.kept [] "// a".toList [] .feed .returnFeed, .inserted "// b".toList .feed,
      .kept ['\t'] "implementors[\"a\"] = [];".toList ['\u00A0'] .returnFeed .feed,
      .inserted [] .returnFeed,
      .kept [] "implementors[\"b\"] = [0];".toList [' '] .missing .feed,
      .inserted ['c'] .missing], ?_, ?_, ?_, rfl⟩
    · refine .kept ?_ ?_ ?_ ?_ ?_ <| .inserted ?_ ?_ ?_ <| .kept ?_ ?_ ?_ ?_ ?_ <|
        .inserted ?_ ?_ ?_ <| .kept ?_ ?_ ?_ ?_ ?_ <| .inserted ?_ ?_ ?_ .nil
      all_goals decide +kernel
    all_goals decide +kernel
  have herror : Fragment.ofScript ⟨[], "T"⟩ (String.ofList (oldText ps)) =
      .error (.json 3 ⟨.wrongKind (.integer 0) .descriptor, 1, 2⟩) := by
    rw [hold]
    decide +kernel
  refine ⟨ps, hps, hold, hnew, herror, ?_⟩
  rw [(ofScript_relaid ⟨[], "T"⟩).2 ps hps, herror]
  simp [Except.mapError, Error.mapLine, habove]

end Script
end Implementors
