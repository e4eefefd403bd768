import Quarry.Dispatch
import Quarry.Excerpt
import Quarry.Workspace

/-!
Searches of a workspace. A search starts with the settings of that moment and keeps them. When its
answer is there, excerpts of the stored documents are put to the results if they are wanted.
-/

namespace Quarry

/-- What is searched for, in which mode, and whether excerpts are wanted. -/
structure Inquiry where
  mode : Mode
  call : Call
  excerpts : Bool

/-- The answer of a search. If excerpts are wanted there is a place for one for each ranked result,
in the order of the results. -/
structure Found where
  answer : Answer
  excerpts : List (Option Excerpt)

namespace Workspace

variable {σ : Type} [DocumentStore σ]

def window (s : Settings) : Int :=
  match s.window.bind Number.toNat? with
  | some n => n
  | none => Excerpt.defaultWindow

/-- The excerpt of a stored document around what a query matches, if it is stored. -/
def excerptFor (w : Workspace σ) (s : Settings) (parsed : Query) (id : DocId) :
    Except Failure (Option Excerpt) := do
  match ← DocumentStore.get w.store id with
  | none => return none
  | some d =>
    let terms := Bm25.matchedTerms s.tuning.expansions w.catalog.index parsed
    return some (.extract d.text (d.text.locate terms) (window s))

/-- The excerpt of a stored document around what a query matches. -/
def excerpt (w : Workspace σ) (id : DocId) (query : Text) : Done σ (Option Excerpt) :=
  match Query.parse query with
  | .error e => w.failed (.query e)
  | .ok parsed => ⟨w.excerptFor w.settings.current parsed id, [], w⟩

/-- An answer with the excerpts that an inquiry wants. A document that cannot be read fails them
all. -/
def withExcerpts (w : Workspace σ) (s : Settings) (q : Inquiry) (answer : Answer) :
    Except Failure Found :=
  if q.excerpts then
    match answer with
    | .symbols _ _ _ => .ok ⟨answer, []⟩
    | .source _ _ _ | .hybrid _ _ =>
      match Query.parse q.call.query with
      | .error e => .error (.query e)
      | .ok parsed => (answer.rankedIds.mapM (w.excerptFor s parsed)).map fun es => ⟨answer, es⟩
  else .ok ⟨answer, []⟩

structure Underway where
  inquiry : Inquiry
  /-- The settings when it was started. -/
  settings : Settings
  started : Hybrid.Started Dispatch.Waiting Answer

def beginSearch (w : Workspace σ) (now : Float) (q : Inquiry) :
    Hybrid.Noted Underway × Workspace σ :=
  let ((started, notes), hybrid) :=
    Dispatch.start w.hybrid w.catalog w.settings.current now q.mode q.call
  ((⟨q, w.settings.current, started⟩, notes), { w with hybrid })

/-- Finishes a search, which filters its results by the documents of an index. -/
def endSearch (w : Workspace σ) (ix : Index) (now : Float) (u : Underway) : Done σ Found :=
  match u.started with
  | .decided answer => ⟨answer.bind (w.withExcerpts u.settings u.inquiry), [], w⟩
  | .pending p =>
    let ((answer, notes), hybrid) := Dispatch.finish w.hybrid ix now p
    let w := { w with hybrid }
    ⟨answer.bind (w.withExcerpts u.settings u.inquiry), notes, w⟩

def search (w : Workspace σ) (now : Float) (q : Inquiry) : Done σ Found :=
  let ((u, notes), w) := w.beginSearch now q
  (w.endSearch w.catalog.index now u).after notes

end Workspace
end Quarry
