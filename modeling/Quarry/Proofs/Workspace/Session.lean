import Quarry.Store
import Quarry.Workspace.Search
import Quarry.Workspace.Upkeep

/-! Sessions: what is asked of a workspace, task after task. A search is begun and finished apart,
so that other tasks come in between. It goes by the index that it began on, which changes along with
the documents until a rebuild puts another in its place. -/

namespace Quarry

/-- One of the things that are asked of a workspace. The last two are reads of its index, which
keeps what it reads. -/
inductive Task where
  | add (values : List Json)
  | remove (id : DocId)
  | rebuild
  | configureWeights (j : Json)
  | configureMethods (j : Json)
  | setProvider (s : Source) (p : Option Provider)
  | begin (now : Float) (q : Inquiry)
  | finish (n : Nat) (now : Float)
  | readPostings (term : Term)
  | readVocabulary

/-- A search underway, and the index that it began on if another stands in its place by now. -/
structure Unfinished where
  search : Workspace.Underway
  left : Option Index

structure Session (σ : Type) where
  workspace : Workspace σ
  unfinished : List Unfinished

namespace Workspace

variable {σ : Type}

/-- The workspace after a read of its index. -/
def withIndex (w : Workspace σ) (index : Index) : Workspace σ :=
  { w with catalog := { w.catalog with index } }

end Workspace

namespace Session

variable {σ : Type} [DocumentStore σ]

/-- The session with its workspace in another state. -/
def withWorkspace (s : Session σ) (w : Workspace σ) : Session σ := { s with workspace := w }

/-- The searches underway after a rebuild, which leaves them the index that they began on. -/
def leave (s : Session σ) : List Unfinished :=
  s.unfinished.map fun u => { u with left := u.left.or (some s.workspace.catalog.index) }

def step (s : Session σ) : Task → Session σ
  | .add values => s.withWorkspace (s.workspace.add values).workspace
  | .remove id => s.withWorkspace (s.workspace.remove id).workspace
  | .rebuild =>
    let rebuilt := s.workspace.rebuild
    match rebuilt.answer with
    | .ok _ => ⟨rebuilt.workspace, s.leave⟩
    | .error _ => s.withWorkspace rebuilt.workspace
  | .configureWeights j => s.withWorkspace (s.workspace.configureWeights j).workspace
  | .configureMethods j => s.withWorkspace (s.workspace.configureMethods j).workspace
  | .setProvider source p => s.withWorkspace (s.workspace.setProvider source p)
  | .begin now q =>
    let begun := s.workspace.beginSearch now q
    ⟨begun.2, s.unfinished ++ [⟨begun.1.1, none⟩]⟩
  | .finish n now =>
    match s.unfinished[n]? with
    | none => s
    | some u =>
      let ix := u.left.getD s.workspace.catalog.index
      ⟨(s.workspace.endSearch ix now u.search).workspace, s.unfinished.eraseIdx n⟩
  | .readPostings term =>
    s.withWorkspace (s.workspace.withIndex (s.workspace.catalog.index.readPostings term).2)
  | .readVocabulary =>
    s.withWorkspace (s.workspace.withIndex s.workspace.catalog.index.readVocabulary.2)

/-- Whether a rebuild fails or not, the workspace is the one that it leaves. -/
theorem workspace_step_rebuild (s : Session σ) :
    (s.step .rebuild).workspace = s.workspace.rebuild.workspace := by
  rw [step]
  cases s.workspace.rebuild.answer <;> rfl

/-- The session after several tasks. -/
def run (s : Session σ) (tasks : List Task) : Session σ := tasks.foldl step s

/-- A session over an empty store in memory. -/
def fresh (settings : Settings) (semantic fuzzy : Option Provider) (snapshot : Option SnapshotFile)
    (digest : Text → Text) (globs : GlobReader) : Session MemoryStore :=
  ⟨Workspace.new MemoryStore.empty settings semantic fuzzy snapshot digest globs, []⟩

end Session
end Quarry
