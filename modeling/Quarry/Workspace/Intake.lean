import Quarry.Report
import Quarry.Workspace.Search
import Quarry.Workspace.Upkeep

/-!
Taking up documents from lines of JSON, and searching with the mode as a name.
-/

namespace Quarry

def batchSize : Nat := 500

/-- A list in parts of at most `n + 1` items. -/
def batches (n : Nat) (items : List α) : List (List α) :=
  match items with
  | [] => []
  | x :: rest => (x :: rest.take n) :: batches n (rest.drop n)
termination_by items.length
decreasing_by
  simp only [List.length_drop, List.length_cons]
  omega

namespace Workspace

variable {σ : Type} [DocumentStore σ]

/-- Stores batches of documents one after another, up to the first that fails. -/
def ingestAll (w : Workspace σ) : List (List Document) → Done σ Unit
  | [] => w.done ()
  | batch :: rest =>
    let first := w.ingest batch
    match first.answer with
    | .error _ => first
    | .ok _ => (first.workspace.ingestAll rest).after first.notes

/-- Takes up the documents of the lines of a text and saves a snapshot. Lines that hold no document
are reported. -/
def takeLines (w : Workspace σ) (content : Text) : Done σ Intake :=
  let lines := Lines.ofText content
  let stored := w.ingestAll (batches (batchSize - 1) lines.documents)
  match stored.answer with
  | .error f => (stored.workspace.failed f).after stored.notes
  | .ok _ =>
    let saved := stored.workspace.persist
    { answer := saved.answer.map fun _ =>
        ⟨.whole lines.documents.length, lines.errors.map LineError.message⟩
      notes := stored.notes ++ saved.notes
      workspace := saved.workspace }

/-- Makes the catalog anew, saves a snapshot, and reports both up to the time that they took. -/
def rebuildAndSave (w : Workspace σ) : Done σ Text :=
  let rebuilt := w.rebuild
  match rebuilt.answer with
  | .error f => (rebuilt.workspace.failed f).after rebuilt.notes
  | .ok r =>
    let saved := rebuilt.workspace.persist
    { answer := saved.answer.map fun _ => Report.rebuilt r.documents r.skipped.length
      notes := rebuilt.notes ++ saved.notes
      workspace := saved.workspace }

/-- A search in a mode that is given by its name. -/
def searchNamed (w : Workspace σ) (now : Float) (mode : Text) (call : Call) (excerpts : Bool) :
    Done σ Found :=
  match Mode.ofName? mode with
  | some mode => w.search now { mode, call, excerpts }
  | none => w.failed (.unknownMode mode (Mode.all.map Mode.name))

end Workspace
end Quarry
