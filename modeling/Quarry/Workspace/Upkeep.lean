import Quarry.Index.Snapshot
import Quarry.Workspace

/-!
Upkeep of a workspace: making the catalog from the store, and saving and loading snapshots of the
index. A snapshot saves the work of reading all documents; those that it does not hold soundly are
read from the store, and one that cannot be read at all counts for nothing.
-/

namespace Quarry

structure Rebuilt where
  documents : Nat
  /-- Documents that could not be read. -/
  skipped : List DocId

inductive Origin where
  | snapshot
  | store
deriving DecidableEq

structure Loaded where
  origin : Origin
  documents : Nat
  /-- Documents that the snapshot did not hold soundly and that were read from the store. -/
  recovered : List DocId

namespace Workspace

variable {σ : Type} [DocumentStore σ]

/-- Puts a catalog in the place of the present one. Cached responses are dropped. -/
def swap (w : Workspace σ) (catalog : Catalog) : Workspace σ :=
  { w with catalog, hybrid := { w.hybrid with cache := w.hybrid.cache.invalidate } }

def unreadableNote (id : DocId) (f : Failure) : Note where
  level := .error
  component := "Service"
  message := Text.concat ["Skipping unreadable document ", id]
  detail := .failure f

structure Reading where
  documents : List Document
  /-- Names of documents that were not read. -/
  missing : List DocId
  notes : List Note
  /-- Whether a document could not be read for a reason that cannot be noted. -/
  untold : Bool

/-- The stored documents of some names. One that cannot be read is noted and left out. -/
def readAll (w : Workspace σ) : List DocId → Reading
  | [] => ⟨[], [], [], false⟩
  | id :: rest =>
    let others := w.readAll rest
    match DocumentStore.get w.store id with
    | .ok (some d) => { others with documents := d :: others.documents }
    | .ok none => { others with missing := id :: others.missing }
    | .error f => match f.asError? with
      | some f => { others with
          missing := id :: others.missing
          notes := unreadableNote id f :: others.notes }
      | none => { others with untold := true }

/-- A catalog with documents added to it, unless one of them has no name. -/
def catalogWith (c : Catalog) (docs : List Document) : Except Failure Catalog :=
  match docs.foldlM Catalog.add? c with
  | some c => .ok c
  | none => .error .unnamed

def rebuiltNote (r : Rebuilt) : Note where
  level := .info
  component := "Service"
  message := "Index rebuilt"
  detail := .data (.object [("documents", .number (.whole r.documents)),
    ("skipped", .array (r.skipped.map Json.text))])

/-- Makes the catalog from the store anew, at a later version. -/
def rebuild (w : Workspace σ) : Done σ Rebuilt :=
  match DocumentStore.ids w.store with
  | .error f => w.failed f
  | .ok ids =>
    if w.settings.current.readers.isNone then w.failed .noReaders
    else
      let reading := w.readAll ids
      if reading.untold then (w.failed .textless).after reading.notes
      else match catalogWith (.empty (w.catalog.index.version + 1)) reading.documents with
        | .error f => (w.failed f).after reading.notes
        | .ok catalog =>
          let result : Rebuilt := ⟨catalog.index.documentCount, reading.missing⟩
          ⟨.ok result, reading.notes ++ [rebuiltNote result], w.swap catalog⟩

/-- The note on a document that a snapshot does not hold soundly. -/
def droppedNote (c : Corruption) : Note where
  level := .error
  component := "Snapshot"
  message := Text.concat ["Dropped document ", c.docId]
  detail := .failure (.corrupt c)

def unreadableSnapshotNote (f : Failure) : Note where
  level := .error
  component := "Service"
  message := "Unreadable index snapshot, rebuilding from store"
  detail := .failure f

def readSnapshot (content : Text) : Except Failure Snapshot.Restored :=
  match Json.read? content with
  | none => .error .notJson
  | some j => match Snapshot.restore? j with
    | .ok restored => .ok restored
    | .error issues => .error (.malformed issues)

/-- What the snapshot of a workspace holds: nothing if there is none or if it is not one. Only what
is no file at all is a failure. -/
def loadSnapshot (w : Workspace σ) : Except Failure (Option Snapshot.Restored) × List Note :=
  match w.snapshot with
  | none => (.ok none, [])
  | some file => match file.state with
    | .absent => (.ok none, [])
    | .folder => (.error (.isFolder "read"), [])
    | .content t => match readSnapshot t with
      | .ok restored => (.ok (some restored), restored.dropped.map droppedNote)
      | .error f => (.ok none, [unreadableSnapshotNote f])

def loadedNote (documents dropped recovered : Nat) : Note where
  level := .info
  component := "Service"
  message := "Index loaded from snapshot"
  detail := .data (.object [("documents", .number (.whole documents)),
    ("dropped", .number (.whole dropped)), ("recovered", .number (.whole recovered))])

/-- The catalog of an index: its symbols are those that the fields of its documents give. -/
def catalogOf (ix : Index) : Catalog where
  index := ix
  symbols := (ix.documentIds.filterMap ix.document?).foldl (fun t d => t.set d.id d.fields) .empty

/-- Takes up the index of a snapshot. Documents that were left out are read from the store. -/
def takeUp (w : Workspace σ) (r : Snapshot.Restored) : Done σ Loaded :=
  let reading := w.readAll (r.dropped.map (·.docId))
  if reading.untold then (w.failed .textless).after reading.notes
  else match catalogWith (catalogOf r.index) reading.documents with
    | .error f => (w.failed f).after reading.notes
    | .ok catalog =>
      let documents := catalog.index.documentCount
      ⟨.ok ⟨.snapshot, documents, reading.documents.map (·.id)⟩,
        reading.notes ++ [loadedNote documents r.dropped.length reading.documents.length],
        w.swap catalog⟩

/-- Loads the index: from the snapshot if there is one, and otherwise from the store. -/
def load (w : Workspace σ) : Done σ Loaded :=
  let (restored, notes) := w.loadSnapshot
  match restored with
  | .error f => (w.failed f).after notes
  | .ok (some r) => (w.takeUp r).after notes
  | .ok none =>
    let rebuilt := w.rebuild
    { answer := rebuilt.answer.map fun r => ⟨.store, r.documents, []⟩
      notes := notes ++ rebuilt.notes
      workspace := rebuilt.workspace }

def savedNote (path : Text) (documents : Nat) : Note where
  level := .info
  component := "Service"
  message := "Snapshot saved"
  detail := .data (.object [("path", .text path), ("documents", .number (.whole documents))])

/-- Saves a snapshot of the index, if there is a place for it. -/
def persist (w : Workspace σ) : Done σ Unit :=
  match w.snapshot with
  | none => w.done ()
  | some file =>
    match file.state with
    | .folder => w.failed (.isFolder (Text.concat
        ["rename '", file.path, ".tmp' -> '", file.path, "'"]))
    | .absent | .content _ =>
      let state := FileState.content (Snapshot.ofIndex w.catalog.index).write.replaceLone
      ⟨.ok (), [savedNote file.path w.catalog.index.documentCount],
        { w with snapshot := some { file with state } }⟩

def close (w : Workspace σ) : Done σ Unit :=
  let saved := w.persist
  match saved.answer with
  | .error _ => saved
  | .ok _ => match DocumentStore.close saved.workspace.store with
    | .error f => { saved with answer := .error f }
    | .ok store => { saved with workspace := { saved.workspace with store } }

end Workspace
end Quarry
