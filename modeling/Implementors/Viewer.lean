import Implementors.Index
import Implementors.Page

/-! A viewer shows a page and takes two plugins, each once: one that sets the policy of the board,
and one that binds an index as the page's sink when the viewer starts, in its first update. -/
namespace Implementors

inductive Plugin (σ : Type)
  | policy (p : Policy)
  | index (sink : σ)
  deriving DecidableEq

def Plugin.label {σ : Type} : Plugin σ → String
  | policy _ => "doc_implementors::plugin::ImplementorsPlugin"
  | index _ => "doc_implementors::plugin::ImplementorIndexPlugin"

structure Viewer (σ : Type) where
  page : Page σ := {}
  hasPolicyPlugin : Bool := false
  index : Option σ := none
  isStarted : Bool := false
  deriving DecidableEq

namespace Viewer

variable {σ : Type}

def onPage {Answer : Type} (v : Viewer σ) (f : Page σ → Outcome σ (Page σ) Answer) :
    Outcome σ (Viewer σ) Answer :=
  (f v.page).mapState fun p => { v with page := p }

/-- A plugin of a kind that is installed already changes nothing. -/
def install (v : Viewer σ) (plugin : Plugin σ) :
    Outcome σ (Viewer σ) (Except PageFault Unit) :=
  match plugin with
  | .policy p =>
    if v.hasPolicyPlugin then
      { state := v, answer := .error (.alreadyInstalled plugin.label) }
    else
      let o := (v.page.board.getD (.withPolicy p)).setPolicy p
      { state := { v with page := ⟨some o.state⟩, hasPolicyPlugin := true }
        answer := .ok ()
        log := o.log }
  | .index sink =>
    if v.index.isSome then { state := v, answer := .error (.alreadyInstalled plugin.label) }
    else { state := { v with index := some sink }, answer := .ok () }

/-- The first update starts the viewer; the others change nothing here. -/
def update (v : Viewer σ) : Outcome σ (Viewer σ) Unit :=
  if v.isStarted then { state := v, answer := () }
  else
    let started := { v with isStarted := true }
    match v.index with
    | none => { state := started, answer := () }
    | some sink => started.onPage fun p => p.bind sink Index.label

end Viewer
end Implementors
