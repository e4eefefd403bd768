import Quarry.Document.Reader
import Quarry.File
import Quarry.Hybrid
import Quarry.Store

/-!
A workspace: a store of documents, the catalog derived from it, and what searches need. Documents
are written to the store before they are taken up into the catalog, so that the catalog can always
be made from the store again.

Every operation answers a result or a failure, leaves notes, and gives the workspace as it is then.
-/

namespace Quarry

/-- Where the snapshot of an index is kept, and what stands there. -/
structure SnapshotFile where
  path : Text
  state : FileState

structure Workspace (σ : Type) where
  store : σ
  catalog : Catalog
  hybrid : Hybrid
  settings : SettingsHolder
  /-- The snapshot; without one the index is kept in memory only. -/
  snapshot : Option SnapshotFile

structure Done (σ : Type) (α : Type) where
  answer : Except Failure α
  notes : List Note
  workspace : Workspace σ

structure Stats where
  documents : Nat
  terms : Nat
  postings : Nat
  averageLength : Float
  version : Nat
  symbols : Nat
  entries : Nat
  hits : Nat
  misses : Nat
  hitRate : Float
  /-- How often each source was run. -/
  runs : PerSource Nat

namespace Done

variable {σ α : Type}

def after (notes : List Note) (d : Done σ α) : Done σ α := { d with notes := notes ++ d.notes }

end Done

namespace Workspace

variable {σ : Type} [DocumentStore σ]

/-- Plugs in what provides the list of a source, or takes it away. -/
def setProvider (w : Workspace σ) (s : Source) (p : Option Provider) : Workspace σ :=
  match p with
  | some p => { w with hybrid := w.hybrid.register s p }
  | none => { w with hybrid := w.hybrid.unregister s }

/-- The responses that a cache holds at most under some settings. -/
def cacheBound (s : Settings) : Option Nat :=
  Cache.boundOf (s.cacheBound.getD (.whole Cache.defaultBound))

def new (store : σ) (settings : Settings) (semantic fuzzy : Option Provider)
    (snapshot : Option SnapshotFile) (digest : Text → Text) (globs : GlobReader) : Workspace σ :=
  let w : Workspace σ :=
    { store, catalog := .empty 0, settings := .start settings, snapshot
      hybrid := (Hybrid.empty (cacheBound settings) digest globs).register .bm25 .index }
  (w.setProvider .semantic semantic).setProvider .fuzzy fuzzy

def failed (w : Workspace σ) (f : Failure) : Done σ α := ⟨.error f, [], w⟩

def done (w : Workspace σ) (a : α) : Done σ α := ⟨.ok a, [], w⟩

/-! ### Documents -/

def ingest (w : Workspace σ) (docs : List Document) : Done σ Unit :=
  match DocumentStore.put w.store docs with
  | .error f => w.failed f
  | .ok store => done { w with store, catalog := docs.foldl Catalog.add w.catalog } ()

/-- Adds documents given as values, each in place of one with the same name. If one of them is not a
document, none is added. -/
def add (w : Workspace σ) (values : List Json) : Done σ Unit :=
  match values.mapM Document.read with
  | .error f => w.failed f
  | .ok [] => w.done ()
  | .ok docs => w.ingest docs

def remove (w : Workspace σ) (id : DocId) : Done σ Bool :=
  match DocumentStore.delete w.store id with
  | .error f => w.failed f
  | .ok (stored, store) =>
    done { w with store, catalog := w.catalog.remove id }
      (stored || w.catalog.index.hasDocument id)

def lookup (w : Workspace σ) (name : Text) : List Definition := w.catalog.symbols.lookup name

/-! ### Settings -/

def configure (w : Workspace σ) (change : Settings → Except Failure Settings) : Done σ Settings :=
  match w.settings.update change with
  | .error f => w.failed f
  | .ok holder => done { w with settings := holder } holder.current

/-- A value laid over members: the members that it names count in place of theirs. -/
def overlay (ms : List (Text × Json)) (j : Json) : Json :=
  match j with
  | .object more => .object (Json.ofMembers (ms ++ more))
  | _ => .object ms

def configureWeights (w : Workspace σ) (j : Json) : Done σ Settings :=
  w.configure fun s => s.withWeights (overlay (Settings.weightsJson s.weights) j)

/-- Changes which of the sources that a value names take part. -/
def configureMethods (w : Workspace σ) (j : Json) : Done σ Settings :=
  w.configure fun s => s.withMethods (overlay (Settings.methodsJson s.enabled) j)

def stats (w : Workspace σ) : Stats where
  documents := w.catalog.index.documentCount
  terms := w.catalog.index.termCount
  postings := w.catalog.index.postingCount
  averageLength := Bm25.averageLength w.catalog.index
  version := w.catalog.index.version
  symbols := w.catalog.symbols.size
  entries := w.hybrid.cache.size
  hits := w.hybrid.cache.hits
  misses := w.hybrid.cache.misses
  hitRate := w.hybrid.cache.hitRate
  runs := w.hybrid.runs

end Workspace
end Quarry
