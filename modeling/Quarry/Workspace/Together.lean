import Quarry.Workspace.Search

/-!
Several things that are asked of a workspace at the same time. Searches start in the order in which
they are asked, and see the index as it was then. Changes of the documents wait for them and are
made one after another. A search with a source whose time runs out finishes after all others.
-/

namespace Quarry

/-- One of several things that are asked of a workspace, and what it answers. -/
inductive Job (σ : Type) (β : Type) where
  | search (q : Inquiry) (reply : Except Failure Found → β)
  | change (run : Workspace σ → β × List Note × Workspace σ)
  | immediate (run : Workspace σ → β × List Note × Workspace σ)

namespace Job

variable {σ β : Type} [DocumentStore σ]

inductive Begun (σ : Type) (β : Type) where
  | answered (b : β)
  | searching (u : Workspace.Underway) (reply : Except Failure Found → β)
  | queued (run : Workspace σ → β × List Note × Workspace σ)

inductive Turn where
  | search
  | change
  | lateSearch
deriving DecidableEq

/-- The turn in which a job gets on, if it is not done. -/
def Begun.turn? : Begun σ β → Option Turn
  | answered _ => none
  | queued _ => some .change
  | searching u _ => match u.started with
    | .decided _ => some .search
    | .pending p => some (if p.isLate then .lateSearch else .search)

def begin (now : Float) : List (Job σ β) → Workspace σ → List (Begun σ β) × List Note × Workspace σ
  | [], w => ([], [], w)
  | job :: rest, w =>
    let (begun, notes, w) : Begun σ β × List Note × Workspace σ := match job with
      | search q reply =>
        let ((u, notes), w) := w.beginSearch now q
        (.searching u reply, notes, w)
      | change run => (.queued run, [], w)
      | immediate run =>
        let (b, notes, w) := run w
        (.answered b, notes, w)
    let (others, more, w) := begin now rest w
    (begun :: others, notes ++ more, w)

def Begun.step (ix : Index) (now : Float) (job : Begun σ β) (w : Workspace σ) :
    Begun σ β × List Note × Workspace σ :=
  match job with
  | answered b => (answered b, [], w)
  | searching u reply =>
    let d := w.endSearch ix now u
    (answered (reply d.answer), d.notes, d.workspace)
  | queued run =>
    let (b, notes, w) := run w
    (answered b, notes, w)

/-- Gets on with the jobs whose turn it is, in their order. -/
def advance (ix : Index) (now : Float) (turn : Turn) :
    List (Begun σ β) → Workspace σ → List (Begun σ β) × List Note × Workspace σ
  | [], w => ([], [], w)
  | job :: rest, w =>
    let (job, notes, w) :=
      if job.turn? = some turn then job.step ix now w else (job, [], w)
    let (others, more, w) := advance ix now turn rest w
    (job :: others, notes ++ more, w)

def Begun.answer? : Begun σ β → Option β
  | answered b => some b
  | searching _ _ | queued _ => none

def together (now : Float) (jobs : List (Job σ β)) (w : Workspace σ) :
    List β × List Note × Workspace σ :=
  let ix := w.catalog.index
  let (begun, notes, w) := begin now jobs w
  let (begun, searched, w) := advance ix now .search begun w
  let (begun, changed, w) := advance ix now .change begun w
  let (begun, late, w) := advance ix now .lateSearch begun w
  (begun.filterMap Begun.answer?, notes ++ searched ++ changed ++ late, w)

end Job
end Quarry
