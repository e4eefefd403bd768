import Std.Data.TreeMap
import Quarry.Failure
import Quarry.Index.Document

/-!
Stores of documents. A store is what the index and the symbols are made from and can always be made
from again. Every access may fail; one that fails changes nothing.
-/

namespace Quarry

class DocumentStore (σ : Type) where
  /-- Puts documents in, each in place of one with the same name. -/
  put : σ → List Document → Except Failure σ
  /-- Takes a document out, and says whether it was there. -/
  delete : σ → DocId → Except Failure (Bool × σ)
  get : σ → DocId → Except Failure (Option Document)
  /-- The names of all documents, in ascending order. -/
  ids : σ → Except Failure (List DocId)
  count : σ → Except Failure Nat
  clear : σ → Except Failure σ
  close : σ → Except Failure σ

inductive Access where
  | put
  | delete (id : DocId)
  | get (id : DocId)
  | ids
  | count
  | clear
  | close
deriving DecidableEq

/-- A store that holds its documents in memory. Some accesses to it may be set to fail. -/
structure MemoryStore where
  documents : Std.TreeMap DocId Document
  faults : Access → Option Failure

namespace MemoryStore

def empty : MemoryStore := ⟨∅, fun _ => none⟩

def guarded (s : MemoryStore) (access : Access) (result : α) : Except Failure α :=
  match s.faults access with
  | some f => .error f
  | none => .ok result

/-- An access that is not set to fail gives its result. -/
theorem guarded_eq {s : MemoryStore} (h : ∀ access, s.faults access = none) (access : Access)
    {α : Type} (result : α) : s.guarded access result = .ok result := by
  rw [guarded, h]

def insertAll (s : MemoryStore) (docs : List Document) : MemoryStore :=
  { s with documents := docs.foldl (fun m d => m.insert d.id d) s.documents }

instance : DocumentStore MemoryStore where
  put s docs := s.guarded .put (s.insertAll docs)
  delete s id := s.guarded (.delete id)
    (s.documents.contains id, { s with documents := s.documents.erase id })
  get s id := s.guarded (.get id) s.documents[id]?
  ids s := s.guarded .ids s.documents.keys
  count s := s.guarded .count s.documents.size
  clear s := s.guarded .clear { s with documents := ∅ }
  close s := s.guarded .close s

end MemoryStore
end Quarry
