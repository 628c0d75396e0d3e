import Implementors.Board

/-! A page that makes its board when it is first needed, so that fragments and the sink may come in
any order. -/
namespace Implementors

structure Page (σ : Type) where
  board : Option (Board σ) := none
  deriving DecidableEq

/-- What a page cannot do. -/
inductive PageFault
  | noBoard
  | alreadyInstalled (plugin : String)
  deriving DecidableEq, Repr

def PageFault.message : PageFault → String
  | noBoard =>
    "No implementor board exists for this page; did you forget to register any implementors?"
  | alreadyInstalled plugin =>
    "Error adding plugin " ++ plugin ++ ": : plugin was already added in application"

namespace Page

variable {σ : Type}

/-- The board of the page, or a new one. -/
def boardOrNew (p : Page σ) : Board σ := p.board.getD {}

def load (p : Page σ) (f : Fragment) : Outcome σ (Page σ) Unit :=
  ((p.boardOrNew.load f).mapState fun b => ⟨some b⟩).mapAnswer fun _ => ()

/-- Binds the page's sink. A further one is passed over, with a warning that names it. -/
def bind (p : Page σ) (sink : σ) (label : String) : Outcome σ (Page σ) Unit :=
  let o := p.boardOrNew.bind sink
  let ignored : List Event :=
    match o.answer with
    | .ok _ => []
    | .error _ => [.sinkIgnored label]
  ⟨⟨some o.state⟩, (), o.deliveries, o.log ++ ignored⟩

/-- An operation on the board itself, if there is one. -/
def onBoard {Answer : Type} (p : Page σ) (f : Board σ → Outcome σ (Board σ) Answer) :
    Outcome σ (Page σ) (Option Answer) :=
  match p.board with
  | none => { state := p, answer := none }
  | some b => ((f b).mapState fun b => ⟨some b⟩).mapAnswer some

/-- Puts a board in the place of the present one. -/
def place (_ : Page σ) (b : Board σ) : Page σ := ⟨some b⟩

/-- Takes the board away; says whether there was one. -/
def remove (p : Page σ) : Outcome σ (Page σ) Bool :=
  { state := ⟨none⟩, answer := p.board.isSome }

def getBoard (p : Page σ) : Except PageFault (Board σ) :=
  match p.board with
  | some b => .ok b
  | none => .error .noBoard

end Page
end Implementors
