/-! Lines of a text: each ends at a line feed, and a carriage return right before it belongs to
the line end. A carriage return elsewhere is an ordinary character. -/
namespace Implementors.Text

/-- Removes the carriage return that stands before a line feed; the line is given backwards. -/
def dropReturn : List Char → List Char
  | '\r' :: r => r
  | s => s

/-- The lines of a text after `held`, the characters of the current line read backwards.
A last line without a line feed counts when it holds any character. -/
def linesFrom (held : List Char) : List Char → List (List Char)
  | [] => if held.isEmpty then [] else [held.reverse]
  | c :: s =>
    if c = '\n' then (dropReturn held).reverse :: linesFrom [] s
    else linesFrom (c :: held) s

def lines (s : List Char) : List (List Char) := linesFrom [] s

theorem lines_nil : lines [] = [] := rfl

private theorem linesFrom_no_feed (held s : List Char) (hs : '\n' ∉ s) (rest : List Char) :
    linesFrom held (s ++ '\n' :: rest) = (dropReturn (s.reverse ++ held)).reverse :: lines rest := by
  induction s generalizing held with
  | nil => simp [linesFrom, lines]
  | cons c s ih =>
    simp only [List.mem_cons, not_or] at hs
    simp only [List.cons_append, linesFrom, if_neg (Ne.symm hs.1), ih (c :: held) hs.2]
    simp

theorem lines_feed (s rest : List Char) (hs : '\n' ∉ s) :
    lines (s ++ '\n' :: rest) = (dropReturn s.reverse).reverse :: lines rest := by
  rw [lines, linesFrom_no_feed [] s hs, List.append_nil]

/-- A line that does not end in a carriage return is read back whole. -/
theorem lines_append (s rest : List Char) (hs : '\n' ∉ s) (hr : s.getLast? ≠ some '\r') :
    lines (s ++ '\n' :: rest) = s :: lines rest := by
  rw [lines_feed s rest hs]
  congr 1
  have : dropReturn s.reverse = s.reverse := by
    unfold dropReturn
    split
    · next r h =>
      rw [List.getLast?_eq_head?_reverse, h] at hr
      simp at hr
    · rfl
  rw [this, List.reverse_reverse]

end Implementors.Text
